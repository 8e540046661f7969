import Mathlib.Tactic
import ResDB.Library.WeightedQuorum

/-! Logs of entries that name their predecessor. Where names determine the entries'
links, the place of an entry in a linked log depends on its name alone, and logs whose
entries are backed by heavy quorums agree. -/
namespace LinkedLog
variable {α β κ : Type*}

/-- Each entry's parent is the name of the entry before it, and the first one's is the
root. -/
def Linked (name parent : α → κ) : κ → List α → Prop
  | _, [] => True
  | root, a :: rest => parent a = root ∧ Linked name parent (name a) rest

def tip (name : α → κ) (root : κ) (log : List α) : κ := log.foldl (fun _ a => name a) root

section Links
variable {name parent : α → κ} {root : κ} {log log' : List α}

@[simp] theorem tip_concat (log : List α) (a : α) : tip name root (log ++ [a]) = name a := by
  simp [tip]

theorem linked_append : Linked name parent root (log ++ log') ↔
    Linked name parent root log ∧ Linked name parent (tip name root log) log' := by
  induction log generalizing root with
  | nil => simp [Linked, tip]
  | cons a rest ih => simp only [List.cons_append, Linked, ih, and_assoc, tip, List.foldl_cons]

theorem linked_concat {a : α} : Linked name parent root (log ++ [a]) ↔
    Linked name parent root log ∧ parent a = tip name root log := by
  rw [linked_append]
  simp [Linked]

theorem linked_map {f : β → α} {entries : List β} :
    Linked name parent root (entries.map f) ↔
      Linked (name ∘ f) (parent ∘ f) root entries := by
  induction entries generalizing root with
  | nil => exact Iff.rfl
  | cons b rest ih => simp only [List.map_cons, Linked, ih, Function.comp_apply]

instance decidableLinked [DecidableEq κ] : ∀ (root : κ) (log : List α),
    Decidable (Linked name parent root log)
  | _, [] => .isTrue trivial
  | _, a :: rest =>
      @instDecidableAnd _ _ inferInstance (decidableLinked (name a) rest)

theorem linked_of_isChain (first : ∀ a ∈ log.head?, parent a = root)
    (chain : log.IsChain (fun a b => parent b = name a)) : Linked name parent root log := by
  induction log generalizing root with
  | nil => trivial
  | cons a rest ih =>
      refine ⟨first a rfl, ih ?_ chain.tail⟩
      intro b next
      cases rest with
      | nil => cases next
      | cons c rest =>
          cases next
          exact chain.rel

theorem Linked.parent_zero (linked : Linked name parent root log) (inside : 0 < log.length) :
    parent log[0] = root := by
  cases log with
  | nil => cases inside
  | cons a rest => exact linked.1

theorem Linked.parent_succ (linked : Linked name parent root log) {k : ℕ}
    (inside : k + 1 < log.length) : parent log[k + 1] = name log[k] := by
  induction log generalizing root k with
  | nil => cases inside
  | cons a rest ih =>
      cases k with
      | zero => exact linked.2.parent_zero (Nat.lt_of_succ_lt_succ inside)
      | succ k => exact ih linked.2 (Nat.lt_of_succ_lt_succ inside)

/-- Two entries of one name sit at one place. The walk follows the links of both logs
down to the root. -/
theorem index_unique (linked : Linked name parent root log)
    (linked' : Linked name parent root log') (named : ∀ a ∈ log, name a ≠ root)
    (named' : ∀ a ∈ log', name a ≠ root)
    (bound : ∀ a ∈ log, ∀ b ∈ log', name a = name b → parent a = parent b) {i j : ℕ}
    (hi : i < log.length) (hj : j < log'.length) (same : name log[i] = name log'[j]) : i = j := by
  induction i generalizing j with
  | zero =>
      have down := bound _ (List.getElem_mem hi) _ (List.getElem_mem hj) same
      rw [linked.parent_zero] at down
      cases j with
      | zero => rfl
      | succ j =>
          rw [linked'.parent_succ] at down
          exact absurd down.symm (named' _ (List.getElem_mem _))
  | succ i ih =>
      have down := bound _ (List.getElem_mem hi) _ (List.getElem_mem hj) same
      rw [linked.parent_succ] at down
      cases j with
      | zero =>
          rw [linked'.parent_zero] at down
          exact absurd down (named _ (List.getElem_mem _))
      | succ j =>
          rw [linked'.parent_succ] at down
          exact congrArg Nat.succ (ih _ _ down)

theorem tip_eq_or_mem (name : α → κ) (root : κ) (log : List α) :
    tip name root log = root ∨ tip name root log ∈ log.map name := by
  rcases List.eq_nil_or_concat log with rfl | ⟨rest, a, rfl⟩
  · exact .inl rfl
  · right
    rw [List.concat_eq_append, tip_concat]
    exact List.mem_map_of_mem (List.mem_append_right _ (List.mem_singleton_self a))

theorem Linked.rank_lt (linked : Linked name parent root log) {rank : κ → ℕ}
    (grows : ∀ a ∈ log, rank (parent a) < rank (name a)) :
    ∀ a ∈ log, rank root < rank (name a) := by
  induction log generalizing root with
  | nil =>
      intro a member
      cases member
  | cons b rest ih =>
      have first : rank root < rank (name b) := linked.1 ▸ grows b List.mem_cons_self
      intro a member
      rcases List.mem_cons.mp member with rfl | later
      · exact first
      · exact first.trans (ih linked.2 (fun c inside => grows c (List.mem_cons_of_mem b inside))
          a later)

/-- Every entry comes after its parent, unless the parent is the root. -/
def ParentsFirst (name parent : α → κ) (root : κ) (log : List α) : Prop :=
  ∀ before a after, log = before ++ a :: after → parent a = root ∨ parent a ∈ before.map name

/-- A linked piece may follow when the log holds what the piece stands on. -/
theorem ParentsFirst.append (first : ParentsFirst name parent root log) {bottom : κ}
    (linked : Linked name parent bottom log')
    (grounded : log' ≠ [] → bottom = root ∨ bottom ∈ log.map name) :
    ParentsFirst name parent root (log ++ log') := by
  intro before a after split
  rcases List.append_eq_append_iff.mp split with ⟨middle, rfl, rest⟩ | ⟨middle, rfl, rest⟩
  · rw [rest, linked_append] at linked
    have below : parent a = tip name bottom middle := linked.2.1
    have some : log' ≠ [] := by
      rw [rest]
      exact List.append_ne_nil_of_right_ne_nil _ (List.cons_ne_nil _ _)
    rw [below, List.map_append, List.mem_append]
    rcases tip_eq_or_mem name bottom middle with start | inside
    · rw [start]
      exact (grounded some).imp_right .inl
    · exact .inr (.inr inside)
  · cases middle with
    | nil =>
        simp only [List.nil_append] at rest
        rw [← rest] at linked grounded
        have below : parent a = bottom := linked.1
        rw [below]
        simpa using grounded (List.cons_ne_nil _ _)
    | cons b middle =>
        rw [List.cons_append, List.cons.injEq] at rest
        obtain ⟨rfl, -⟩ := rest
        exact first before a middle rfl

/-- Where names determine parents, every ancestor of an entry comes before it. -/
theorem ParentsFirst.ancestor_before (first : ParentsFirst name parent root log)
    {world : List α} (named : ∀ a ∈ world, name a ≠ root)
    (bound : ∀ a ∈ world, ∀ b ∈ log, name a = name b → parent a = parent b) {a b c : α}
    (path : Relation.TransGen (fun x y => x ∈ world ∧ parent y = name x) a c)
    (same : parent b = parent c) {before after : List α} (split : log = before ++ b :: after) :
    name a ∈ before.map name := by
  induction path generalizing b before after with
  | @single c link =>
      have below := first before b after split
      rw [same, link.2] at below
      exact below.resolve_left (named a link.1)
  | @tail d c _ link ih =>
      have below := first before b after split
      rw [same, link.2] at below
      -- The father's copy in the log has the father's ancestors.
      obtain ⟨copy, member, twin⟩ := List.mem_map.mp (below.resolve_left (named d link.1))
      obtain ⟨early, late, rfl⟩ := List.append_of_mem member
      have inside : copy ∈ log := by
        rw [split]
        exact List.mem_append_left _ member
      have found := ih (bound d link.1 copy inside twin.symm).symm
        (split.trans (List.append_assoc early (copy :: late) (b :: after)))
      rw [List.map_append, List.mem_append]
      exact .inl found

end Links

theorem prefix_of_agree {l l' : List β} (shorter : l.length ≤ l'.length)
    (agree : ∀ k (h : k < l.length) (h' : k < l'.length), l[k] = l'[k]) : l <+: l' := by
  rw [List.prefix_iff_eq_take]
  apply List.ext_getElem
  · rw [List.length_take, Nat.min_eq_left shorter]
  · intro k h h'
    rw [List.getElem_take]
    exact agree k h _

/-- Lists that agree wherever both are defined are prefix-comparable. -/
theorem comparable_of_agree {l l' : List β}
    (agree : ∀ k (h : k < l.length) (h' : k < l'.length), l[k] = l'[k]) :
    l <+: l' ∨ l' <+: l := by
  rcases Nat.le_total l.length l'.length with shorter | shorter
  · exact .inl (prefix_of_agree shorter agree)
  · exact .inr (prefix_of_agree shorter (fun k h h' => (agree k h' h).symm))

/-- Good replicas keep linked logs whose names determine the links. If the name of every
entry that has a successor was taken up by the good members of some heavy set, then two
such logs have the same names wherever both entries have successors. -/
theorem names_agree {ι : Type*} [DecidableEq ι] {name parent : α → κ} {root : κ} (w : ι → ℕ)
    {U bad : Finset ι} {threshold : ℕ}
    (heavy : WeightedQuorum.weight w U + WeightedQuorum.weight w bad < threshold + threshold)
    {log : ι → List α}
    (linked : ∀ i ∈ U, i ∉ bad → Linked name parent root (log i))
    (named : ∀ i ∈ U, i ∉ bad → ∀ a ∈ log i, name a ≠ root)
    (bound : ∀ i ∈ U, i ∉ bad → ∀ j ∈ U, j ∉ bad → ∀ a ∈ log i, ∀ b ∈ log j,
      name a = name b → parent a = parent b)
    (backed : ∀ i ∈ U, i ∉ bad → ∀ k (h : k + 1 < (log i).length), ∃ S ⊆ U,
      threshold ≤ WeightedQuorum.weight w S ∧
        ∀ r ∈ S, r ∉ bad → ∃ a ∈ log r, name a = name (log i)[k])
    {i j : ι} (hi : i ∈ U) (goodi : i ∉ bad) (hj : j ∈ U) (goodj : j ∉ bad) {k : ℕ}
    (ki : k + 1 < (log i).length) (kj : k + 1 < (log j).length) :
    name (log i)[k] = name (log j)[k] := by
  obtain ⟨S, subS, heavyS, tookS⟩ := backed i hi goodi k ki
  obtain ⟨T, subT, heavyT, tookT⟩ := backed j hj goodj k kj
  -- A good replica took up both names, at the place the links give them in its own log.
  obtain ⟨r, inS, inT, goodr⟩ := WeightedQuorum.exists_common_good w subS subT
    (heavy.trans_le (Nat.add_le_add heavyS heavyT))
  have place : ∀ i ∈ U, i ∉ bad → ∀ (h : k < (log i).length), ∀ a ∈ log r,
      name a = name (log i)[k] → ∃ h' : k < (log r).length, (log r)[k] = a := by
    intro i hi goodi h a member same
    obtain ⟨m, hm, rfl⟩ := List.getElem_of_mem member
    have index := index_unique (linked r (subS inS) goodr) (linked i hi goodi)
      (named r (subS inS) goodr) (named i hi goodi) (bound r (subS inS) goodr i hi goodi) hm h same
    subst index
    exact ⟨hm, rfl⟩
  obtain ⟨a, memberA, sameA⟩ := tookS r inS goodr
  obtain ⟨b, memberB, sameB⟩ := tookT r inT goodr
  obtain ⟨_, atA⟩ := place i hi goodi (Nat.lt_of_succ_lt ki) a memberA sameA
  obtain ⟨_, atB⟩ := place j hj goodj (Nat.lt_of_succ_lt kj) b memberB sameB
  rw [← sameA, ← sameB, ← atA, ← atB]

end LinkedLog
