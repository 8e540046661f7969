import Mathlib.Data.List.Nodup
import Mathlib.Order.Defs.LinearOrder
import Mathlib.Tactic
import ResDB.Library.AssocMap

/-! Finite maps in ascending order of their keys: the lookups, updates and iteration order
of an ordered dictionary, over an arbitrary linear order of keys. -/

/-- The entries ascend strictly by construction, so they are in the order of iteration. -/
structure SortedMap (K V : Type*) [LinearOrder K] where
  entries : List (K × V)
  sorted : entries.Pairwise (fun e e' => e.1 < e'.1)

namespace SortedMap
variable {K V : Type*} [LinearOrder K]

instance : EmptyCollection (SortedMap K V) := ⟨⟨[], List.Pairwise.nil⟩⟩
instance : Inhabited (SortedMap K V) := ⟨∅⟩

def size (m : SortedMap K V) : ℕ := m.entries.length

theorem pairwise_split (m : SortedMap K V) (k : K) (v : V) :
    (m.entries.filter (fun e => e.1 < k) ++
      (k, v) :: m.entries.filter (fun e => k < e.1)).Pairwise (fun e e' => e.1 < e'.1) := by
  refine List.pairwise_append.mpr ⟨m.sorted.filter _, ?_, ?_⟩
  · refine List.pairwise_cons.mpr ⟨?_, m.sorted.filter _⟩
    intro e above
    exact of_decide_eq_true (List.mem_filter.mp above).2
  · intro e below e' rest
    have low : e.1 < k := of_decide_eq_true (List.mem_filter.mp below).2
    cases List.mem_cons.mp rest with
    | inl here => rwa [here]
    | inr above => exact low.trans (of_decide_eq_true (List.mem_filter.mp above).2)

def set (m : SortedMap K V) (k : K) (v : V) : SortedMap K V :=
  ⟨m.entries.filter (fun e => e.1 < k) ++ (k, v) :: m.entries.filter (fun e => k < e.1),
    m.pairwise_split k v⟩

def insertNew (m : SortedMap K V) (k : K) (v : V) : SortedMap K V :=
  if m.entries.any (fun e => e.1 = k) then m else m.set k v

theorem mem_set (m : SortedMap K V) (k : K) (v : V) (e : K × V) :
    e ∈ (m.set k v).entries ↔ e = (k, v) ∨ e ∈ m.entries ∧ e.1 ≠ k := by
  rw [ne_iff_lt_or_gt]
  simp only [set, List.mem_append, List.mem_cons, List.mem_filter, decide_eq_true_eq]
  tauto

theorem mem_insertNew (m : SortedMap K V) (k : K) (v : V) (e : K × V) :
    e ∈ (m.insertNew k v).entries ↔
      e ∈ m.entries ∨ e = (k, v) ∧ ∀ w, (k, w) ∉ m.entries := by
  unfold insertNew
  split
  · rename_i present
    obtain ⟨held, inside, same⟩ := List.any_eq_true.mp present
    have taken : (k, held.2) ∈ m.entries := by
      rwa [← of_decide_eq_true same]
    exact ⟨.inl, fun either => either.resolve_right (fun new => new.2 _ taken)⟩
  · rename_i absent
    have free : ∀ w, (k, w) ∉ m.entries := fun w inside =>
      absent (List.any_eq_true.mpr ⟨(k, w), inside, decide_eq_true rfl⟩)
    rw [mem_set]
    constructor
    · rintro (new | ⟨held, -⟩)
      · exact .inr ⟨new, free⟩
      · exact .inl held
    · rintro (held | ⟨new, -⟩)
      · refine .inr ⟨held, fun same => free e.2 ?_⟩
        rwa [← same]
      · exact .inl new

theorem nodup_keys (m : SortedMap K V) : (m.entries.map Prod.fst).Nodup :=
  List.pairwise_map.mpr (m.sorted.imp ne_of_lt)

theorem ext_mem {m m' : SortedMap K V} (same : ∀ e, e ∈ m.entries ↔ e ∈ m'.entries) : m = m' := by
  have distinct : m.entries.Nodup := List.Nodup.of_map _ m.nodup_keys
  have distinct' : m'.entries.Nodup := List.Nodup.of_map _ m'.nodup_keys
  have perm : m.entries.Perm m'.entries := (List.perm_ext_iff_of_nodup distinct distinct').mpr same
  have equal : m.entries = m'.entries :=
    perm.eq_of_pairwise (fun e e' _ _ lt gt => absurd gt lt.asymm) m.sorted m'.sorted
  cases m
  cases m'
  cases equal
  rfl

section Find

def toAssocMap (m : SortedMap K V) : AssocMap K V := ⟨m.entries, m.nodup_keys⟩

def find (m : SortedMap K V) (k : K) : Option V := m.toAssocMap.find k

theorem find_eq_some_iff (m : SortedMap K V) {k : K} {v : V} :
    m.find k = some v ↔ (k, v) ∈ m.entries :=
  m.toAssocMap.find_eq_some_iff

@[simp] theorem find_set (m : SortedMap K V) (k : K) (v : V) (j : K) :
    (m.set k v).find j = if j = k then some v else m.find j := by
  ext w
  rw [find_eq_some_iff, mem_set]
  by_cases same : j = k
  · simp [same, eq_comm]
  · simp [same, find_eq_some_iff]

theorem find_injective : Function.Injective (find : SortedMap K V → K → Option V) := by
  intro m m' same
  refine ext_mem (fun e => ?_)
  rw [← find_eq_some_iff, ← find_eq_some_iff, same]

end Find

section Ranges

/-- A map made of entries one after another; the first under a key stays. -/
def ofList (l : List (K × V)) : SortedMap K V :=
  l.foldl (fun m e => m.insertNew e.1 e.2) ∅

theorem mem_foldl_insertNew {l : List (K × V)} (distinct : (l.map Prod.fst).Nodup)
    (m : SortedMap K V) (fresh : ∀ e ∈ l, ∀ w, (e.1, w) ∉ m.entries) (e : K × V) :
    e ∈ (l.foldl (fun m e => m.insertNew e.1 e.2) m).entries ↔ e ∈ m.entries ∨ e ∈ l := by
  induction l generalizing m with
  | nil => simp
  | cons first rest ih =>
      rw [List.map_cons, List.nodup_cons] at distinct
      have new := fresh first List.mem_cons_self
      rw [List.foldl_cons, ih distinct.2, mem_insertNew, List.mem_cons]
      · simp only [new, not_false_eq_true, implies_true, and_true, Prod.mk.eta]
        tauto
      · intro later inside w held
        rcases (mem_insertNew _ _ _ _).mp held with before | ⟨same, -⟩
        · exact fresh later (List.mem_cons_of_mem _ inside) w before
        · refine distinct.1 (List.mem_map.mpr ⟨later, inside, ?_⟩)
          exact (Prod.mk.inj same).1

theorem mem_ofList {l : List (K × V)} (distinct : (l.map Prod.fst).Nodup) (e : K × V) :
    e ∈ (ofList l).entries ↔ e ∈ l := by
  rw [ofList, mem_foldl_insertNew distinct ∅ (fun _ _ _ => List.not_mem_nil)]
  simp [EmptyCollection.emptyCollection]

/-- The entries from the first key that is not below `lo` on, as long as the keys are not
above `hi`. -/
def range (m : SortedMap K V) (lo hi : K) : List (K × V) :=
  (m.entries.dropWhile (fun e => e.1 < lo)).takeWhile (fun e => e.1 ≤ hi)

theorem mem_dropWhile {l : List (K × V)} (sorted : l.Pairwise (fun e e' => e.1 < e'.1)) (lo : K)
    (e : K × V) : e ∈ l.dropWhile (fun e => e.1 < lo) ↔ e ∈ l ∧ lo ≤ e.1 := by
  induction l with
  | nil => simp
  | cons first rest ih =>
      obtain ⟨above, sorted⟩ := List.pairwise_cons.mp sorted
      by_cases below : first.1 < lo
      · rw [List.dropWhile_cons_of_pos (by simpa using below), ih sorted, List.mem_cons]
        constructor
        · exact fun ⟨inside, high⟩ => ⟨.inr inside, high⟩
        · rintro ⟨rfl | inside, high⟩
          · exact absurd high (not_le_of_gt below)
          · exact ⟨inside, high⟩
      · rw [List.dropWhile_cons_of_neg (by simpa using below)]
        refine ⟨fun inside => ⟨inside, ?_⟩, fun both => both.1⟩
        rcases List.mem_cons.mp inside with rfl | later
        · exact le_of_not_gt below
        · exact (le_of_not_gt below).trans (above e later).le

theorem mem_takeWhile {l : List (K × V)} (sorted : l.Pairwise (fun e e' => e.1 < e'.1)) (hi : K)
    (e : K × V) : e ∈ l.takeWhile (fun e => e.1 ≤ hi) ↔ e ∈ l ∧ e.1 ≤ hi := by
  induction l with
  | nil => simp
  | cons first rest ih =>
      obtain ⟨above, sorted⟩ := List.pairwise_cons.mp sorted
      by_cases within : first.1 ≤ hi
      · rw [List.takeWhile_cons_of_pos (by simpa using within), List.mem_cons, ih sorted,
          List.mem_cons]
        constructor
        · rintro (rfl | ⟨inside, low⟩)
          · exact ⟨.inl rfl, within⟩
          · exact ⟨.inr inside, low⟩
        · rintro ⟨rfl | inside, low⟩
          · exact .inl rfl
          · exact .inr ⟨inside, low⟩
      · rw [List.takeWhile_cons_of_neg (by simpa using within)]
        refine ⟨fun inside => absurd inside List.not_mem_nil, fun ⟨inside, low⟩ => ?_⟩
        rcases List.mem_cons.mp inside with rfl | later
        · exact absurd low within
        · exact absurd ((above e later).le.trans low) within

theorem mem_range (m : SortedMap K V) (lo hi : K) (e : K × V) :
    e ∈ m.range lo hi ↔ e ∈ m.entries ∧ lo ≤ e.1 ∧ e.1 ≤ hi := by
  have sorted := m.sorted.sublist (List.dropWhile_sublist (fun e => decide (e.1 < lo)))
  rw [range, mem_takeWhile sorted, mem_dropWhile m.sorted, and_assoc]

theorem nodup_keys_range (m : SortedMap K V) (lo hi : K) :
    ((m.range lo hi).map Prod.fst).Nodup :=
  m.nodup_keys.sublist (((List.takeWhile_sublist _).trans (List.dropWhile_sublist _)).map _)

end Ranges
end SortedMap
