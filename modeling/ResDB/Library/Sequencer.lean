import Mathlib.Order.Monotone.Basic
import Mathlib.Tactic
import ResDB.Library.SortedMap

/-! A sequencer: values come under keys in any order and go out in the order of an enumeration
of places, which need not have all of the keys. Only the least waiting key is looked at, so a
value that has no place stays, and holds back all places after its key. -/

structure Sequencer (K V : Type*) [LinearOrder K] where
  waiting : SortedMap K V := ∅
  out : List V := []

namespace Sequencer
variable {K V : Type*} [LinearOrder K] (place : ℕ → K) (key : V → K)

/-- The least waiting value goes out if the next place is its own. -/
def next (s : Sequencer K V) : Option (Sequencer K V) :=
  match s.waiting with
  | ⟨[], _⟩ => none
  | ⟨(k, v) :: rest, sorted⟩ =>
      if k = place s.out.length then some ⟨⟨rest, sorted.of_cons⟩, s.out ++ [v]⟩ else none

def drain : ℕ → Sequencer K V → Sequencer K V
  | 0, s => s
  | n + 1, s =>
      match s.next place with
      | none => s
      | some s' => drain n s'

def put (s : Sequencer K V) (v : V) : Sequencer K V :=
  { s with waiting := s.waiting.set (key v) v }

def arrive (s : Sequencer K V) (v : V) : Sequencer K V :=
  (s.put key v).drain place (s.put key v).waiting.size

def Reached (past : List V) (j : ℕ) : Prop := ∀ i < j, ∃ v ∈ past, key v = place i

/-- What went out is what came for the longest run of places from the first on. -/
structure Exact (past out : List V) : Prop where
  arrived : ∀ v ∈ out, v ∈ past
  order : out.map key = (List.range out.length).map place
  longest : ∀ j, Reached place key past j ↔ j ≤ out.length

/-- No value without a place that came before is less than a place that the arrival makes
ready. -/
def Clear (past : List V) (v : V) : Prop :=
  ∀ w ∈ past, (∀ i, key w ≠ place i) → ∀ j, Reached place key (past ++ [v]) (j + 1) →
    ¬ Reached place key past (j + 1) → place j < key w

/-- What has come is out or waits, and nothing that waits is for an earlier place. -/
structure Sequenced (past : List V) (s : Sequencer K V) : Prop where
  arrived : ∀ v ∈ s.out, v ∈ past
  order : s.out.map key = (List.range s.out.length).map place
  waiting : ∀ k v, (k, v) ∈ s.waiting.entries ↔
    v ∈ past ∧ key v = k ∧ ∀ i < s.out.length, k ≠ place i

variable {place key} {past : List V} {s s' : Sequencer K V}

theorem Sequenced.initial : Sequenced place key [] ({} : Sequencer K V) :=
  ⟨fun _ inside => absurd inside List.not_mem_nil, rfl, fun _ _ =>
    ⟨fun inside => absurd inside List.not_mem_nil,
      fun found => absurd found.1 List.not_mem_nil⟩⟩

omit [LinearOrder K] in
theorem reached_of_order {out : List V} (arrived : ∀ v ∈ out, v ∈ past)
    (order : out.map key = (List.range out.length).map place) :
    Reached place key past out.length := by
  intro i below
  have listed : place i ∈ out.map key := by
    rw [order]
    exact List.mem_map_of_mem (List.mem_range.mpr below)
  obtain ⟨v, inside, eq⟩ := List.mem_map.mp listed
  exact ⟨v, arrived v inside, eq⟩

omit [LinearOrder K] in
theorem Reached.mono {j i : ℕ} (reached : Reached place key past j) (le : i ≤ j) :
    Reached place key past i :=
  fun place' below => reached place' (below.trans_le le)

theorem next_eq_some (more : s.next place = some s') :
    ∃ v, s.waiting.entries = (place s.out.length, v) :: s'.waiting.entries ∧
      s'.out = s.out ++ [v] := by
  obtain ⟨⟨entries, sorted⟩, out⟩ := s
  cases entries with
  | nil => cases more
  | cons head rest =>
      obtain ⟨here, done⟩ := Option.ite_none_right_eq_some.mp more
      cases done
      refine ⟨head.2, ?_, rfl⟩
      rw [← here]

theorem next_eq_none (stuck : s.next place = none) :
    ∀ k v rest, s.waiting.entries = (k, v) :: rest → k ≠ place s.out.length := by
  obtain ⟨⟨entries, sorted⟩, out⟩ := s
  rintro k v rest rfl here
  have moved : next place ⟨⟨(k, v) :: rest, sorted⟩, out⟩ =
      some ⟨⟨rest, sorted.of_cons⟩, out ++ [v]⟩ := if_pos here
  rw [stuck] at moved
  cases moved

theorem next_some (sequenced : Sequenced place key past s) (more : s.next place = some s') :
    Sequenced place key past s' ∧ s'.waiting.size + 1 = s.waiting.size ∧
      s'.out.length = s.out.length + 1 ∧
      ∀ w ∈ past, (∀ i, key w ≠ place i) → place s.out.length < key w := by
  obtain ⟨v, entries, out⟩ := next_eq_some more
  have sorted := s.waiting.sorted
  have waiting := sequenced.waiting
  rw [entries] at sorted
  simp only [entries, List.mem_cons] at waiting
  have above : ∀ e ∈ s'.waiting.entries, place s.out.length < e.1 :=
    (List.pairwise_cons.mp sorted).1
  obtain ⟨inside, own, -⟩ := (waiting _ v).mp (.inl rfl)
  have length : s'.out.length = s.out.length + 1 := by rw [out, List.length_append]; rfl
  refine ⟨⟨?_, ?_, ?_⟩, ?_, length, ?_⟩
  · intro w member
    rw [out] at member
    rcases List.mem_append.mp member with before | new
    · exact sequenced.arrived w before
    · rwa [List.mem_singleton.mp new]
  · rw [length, List.range_succ, out, List.map_append, List.map_append, sequenced.order,
      List.map_singleton, List.map_singleton, own]
  · intro k w
    rw [length]
    constructor
    · intro member
      obtain ⟨came, at', earlier⟩ := (waiting k w).mp (.inr member)
      refine ⟨came, at', fun i below => ?_⟩
      rcases Nat.lt_succ_iff_lt_or_eq.mp below with less | last
      · exact earlier i less
      · rw [last]
        exact (above _ member).ne'
    · rintro ⟨came, at', earlier⟩
      have before : ∀ i < s.out.length, k ≠ place i :=
        fun i below => earlier i (Nat.lt_succ_of_lt below)
      rcases (waiting k w).mpr ⟨came, at', before⟩ with same | member
      · exact absurd (congrArg Prod.fst same) (earlier _ (Nat.lt_succ_self _))
      · exact member
  · rw [SortedMap.size, SortedMap.size, entries, List.length_cons]
  · intro w came off
    rcases (waiting (key w) w).mpr ⟨came, rfl, fun i _ => off i⟩ with same | member
    · exact absurd (congrArg Prod.fst same) (off _)
    · exact above _ member

/-- If the next place is not empty, a value without a place is before it. -/
theorem next_none (increasing : StrictMono place) (sequenced : Sequenced place key past s)
    (stuck : s.next place = none) (ready : Reached place key past (s.out.length + 1)) :
    ∃ w ∈ past, (∀ i, key w ≠ place i) ∧ key w < place s.out.length := by
  obtain ⟨v, came, own⟩ := ready s.out.length (Nat.lt_succ_self _)
  have listed := (sequenced.waiting (place s.out.length) v).mpr
    ⟨came, own, fun i below => (increasing below).ne'⟩
  cases entries : s.waiting.entries with
  | nil =>
      rw [entries] at listed
      exact absurd listed List.not_mem_nil
  | cons head rest =>
      have other : head.1 ≠ place s.out.length := next_eq_none stuck _ _ _ entries
      have sorted := s.waiting.sorted
      have least := (sequenced.waiting head.1 head.2).mp (entries ▸ List.mem_cons_self)
      rw [entries] at listed sorted
      have below : head.1 < place s.out.length := by
        rcases List.mem_cons.mp listed with same | member
        · exact absurd (congrArg Prod.fst same).symm other
        · exact (List.pairwise_cons.mp sorted).1 _ member
      obtain ⟨inside, mine, earlier⟩ := least
      refine ⟨head.2, inside, fun i => ?_, mine ▸ below⟩
      rw [mine]
      by_cases less : i < s.out.length
      · exact earlier i less
      · exact (below.trans_le (increasing.monotone (Nat.le_of_not_lt less))).ne

/-- What a drained sequencer did: the places that it filled are before every value that has
none. -/
theorem drain_sequenced (n : ℕ) (enough : s.waiting.size ≤ n)
    (sequenced : Sequenced place key past s) :
    Sequenced place key past (s.drain place n) ∧ (s.drain place n).next place = none ∧
      s.out.length ≤ (s.drain place n).out.length ∧
      ∀ i, s.out.length ≤ i → i < (s.drain place n).out.length →
        ∀ w ∈ past, (∀ j, key w ≠ place j) → place i < key w := by
  induction n generalizing s with
  | zero =>
      refine ⟨sequenced, ?_, le_rfl, fun i low high => absurd high (Nat.not_lt.mpr low)⟩
      rw [Option.eq_none_iff_forall_ne_some]
      intro s' more
      obtain ⟨-, smaller, -, -⟩ := next_some sequenced more
      omega
  | succ n ih =>
      unfold drain
      cases more : s.next place with
      | none => exact ⟨sequenced, more, le_rfl, fun i low high => absurd high (Nat.not_lt.mpr low)⟩
      | some s' =>
          dsimp only
          obtain ⟨later, smaller, length, first⟩ := next_some sequenced more
          obtain ⟨after, stuck, grown, filled⟩ := ih (by omega) later
          refine ⟨after, stuck, by omega, fun i low high w came off => ?_⟩
          rcases Nat.eq_or_lt_of_le low with same | above
          · rw [← same]
            exact first w came off
          · exact filled i (by omega) high w came off

theorem put_sequenced (sequenced : Sequenced place key past s) {v : V}
    (fresh : ∀ w ∈ past, key w ≠ key v) : Sequenced place key (past ++ [v]) (s.put key v) := by
  refine ⟨fun w inside => List.mem_append_left _ (sequenced.arrived w inside), sequenced.order,
    fun k w => ?_⟩
  rw [put, SortedMap.mem_set, sequenced.waiting, List.mem_append, List.mem_singleton]
  constructor
  · rintro (same | ⟨⟨came, at', earlier⟩, -⟩)
    · cases same
      refine ⟨.inr rfl, rfl, fun i below eq => ?_⟩
      obtain ⟨w, came, at'⟩ := reached_of_order sequenced.arrived sequenced.order i below
      exact fresh w came (at'.trans eq.symm)
    · exact ⟨.inl came, at', earlier⟩
  · rintro ⟨came | new, at', earlier⟩
    · exact .inr ⟨⟨came, at', earlier⟩, at' ▸ fresh w came⟩
    · left
      rw [new] at at' ⊢
      rw [at']

theorem drain_of_stuck (stuck : s.next place = none) (n : ℕ) : s.drain place n = s := by
  cases n with
  | zero => rfl
  | succ n =>
      unfold drain
      rw [stuck]

theorem arrive_sequenced (sequenced : Sequenced place key past s) {v : V}
    (fresh : ∀ w ∈ past, key w ≠ key v) :
    Sequenced place key (past ++ [v]) (s.arrive place key v) ∧
      (s.arrive place key v).next place = none := by
  obtain ⟨after, stuck, -, -⟩ := drain_sequenced _ le_rfl (put_sequenced sequenced fresh)
  exact ⟨after, stuck⟩

/-- An arrival keeps the order exact if and only if it is clear of values without a place. -/
theorem arrive_exact_iff (increasing : StrictMono place) (sequenced : Sequenced place key past s)
    (exact' : Exact place key past s.out) {v : V} (fresh : ∀ w ∈ past, key w ≠ key v) :
    Exact place key (past ++ [v]) (s.arrive place key v).out ↔ Clear place key past v := by
  obtain ⟨after, stuck, grown, filled⟩ :=
    drain_sequenced _ le_rfl (put_sequenced sequenced fresh)
  rw [← arrive] at after stuck grown filled
  constructor
  · intro later w came off j ready unready
    have high := (later.longest _).mp ready
    have low : s.out.length ≤ j := by
      by_contra less
      exact unready ((exact'.longest _).mpr (Nat.lt_of_not_le less))
    exact filled j low high w (List.mem_append_left _ came) off
  · intro clear
    have reached := reached_of_order after.arrived after.order
    refine ⟨after.arrived, after.order, fun j => ⟨fun ready => ?_, fun le => reached.mono le⟩⟩
    by_contra beyond
    have next' := ready.mono (Nat.lt_of_not_le beyond)
    have unready : ¬ Reached place key past ((s.arrive place key v).out.length + 1) := by
      intro before
      have short : (s.arrive place key v).out.length + 1 ≤ s.out.length :=
        (exact'.longest _).mp before
      have long : s.out.length ≤ (s.arrive place key v).out.length := grown
      omega
    obtain ⟨w, came, off, below⟩ := next_none increasing after stuck next'
    rcases List.mem_append.mp came with before | new
    · exact absurd (clear w before off _ next' unready) (not_lt.mpr below.le)
    · -- a value without a place fills none
      refine unready (fun i less => ?_)
      obtain ⟨u, inside, at'⟩ := next' i less
      rcases List.mem_append.mp inside with old | last
      · exact ⟨u, old, at'⟩
      · rw [List.mem_singleton.mp last, ← List.mem_singleton.mp new] at at'
        exact absurd at' (off i)

end Sequencer
