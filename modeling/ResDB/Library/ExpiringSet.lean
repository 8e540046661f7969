import Mathlib.Data.Finset.Basic
import Mathlib.Tactic

/-! A set that forgets what is old. When to forget what is said by a queue of stamps, and an
element that is taken out by hand leaves its stamp behind. -/

structure ExpiringSet (α : Type*) where
  queue : List (α × ℕ) := []
  members : Finset α := ∅

namespace ExpiringSet
variable {α : Type*} [DecidableEq α]

section Operations
variable (s : ExpiringSet α)

def push (a : α) (now : ℕ) : ExpiringSet α := ⟨s.queue ++ [(a, now)], insert a s.members⟩

def erase (a : α) : ExpiringSet α := { s with members := s.members.erase a }

/-- The oldest stamp, if it is late, and what remains. -/
def pop (late : ℕ → Bool) : Option (α × ExpiringSet α) :=
  match s.queue with
  | [] => none
  | (a, stamp) :: rest => if late stamp then some (a, ⟨rest, s.members.erase a⟩) else none

end Operations

variable {s s' : ExpiringSet α} {a b : α} {late : ℕ → Bool} {stamp now : ℕ}

theorem pop_some (popped : s.pop late = some (a, s')) :
    ∃ stamp, s.queue = (a, stamp) :: s'.queue ∧ late stamp = true ∧
      s'.members = s.members.erase a := by
  unfold pop at popped
  split at popped
  · cases popped
  · rename_i queue
    split_ifs at popped with old
    cases popped
    exact ⟨_, queue, old, rfl⟩

structure Ordered (s : ExpiringSet α) (now : ℕ) : Prop where
  sorted : s.queue.Pairwise (fun e e' => e.2 ≤ e'.2)
  past : ∀ e ∈ s.queue, e.2 ≤ now

namespace Ordered

omit [DecidableEq α] in
theorem later (ordered : s.Ordered now) {now' : ℕ} (le : now ≤ now') : s.Ordered now' :=
  ⟨ordered.sorted, fun e member => (ordered.past e member).trans le⟩

theorem push (ordered : s.Ordered now) (a : α) : (s.push a now).Ordered now := by
  refine ⟨List.pairwise_append.mpr ⟨ordered.sorted, List.pairwise_singleton _ _, ?_⟩, ?_⟩
  · intro e member e' last
    cases List.mem_singleton.mp last
    exact ordered.past e member
  · intro e member
    cases List.mem_append.mp member with
    | inl old => exact ordered.past e old
    | inr last =>
        cases List.mem_singleton.mp last
        exact le_rfl

theorem pop (ordered : s.Ordered now) (popped : s.pop late = some (a, s')) : s'.Ordered now := by
  obtain ⟨stamp, queue, -, -⟩ := pop_some popped
  have sorted := ordered.sorted
  have past := ordered.past
  rw [queue] at sorted past
  exact ⟨sorted.of_cons, fun e member => past e (List.mem_cons_of_mem _ member)⟩

end Ordered

/-- The element is in the set, its stamp is `stamp`, and older stamps of it are not fatal. -/
structure Guarded (fatal : ℕ → Prop) (a : α) (stamp : ℕ) (s : ExpiringSet α) : Prop where
  member : a ∈ s.members
  place : ∃ before after, s.queue = before ++ (a, stamp) :: after ∧
    ∀ e ∈ before, e.1 = a → ¬ fatal e.2

namespace Guarded
variable {fatal : ℕ → Prop}

theorem ofPush (harmless : ∀ old, (a, old) ∈ s.queue → ¬ fatal old) :
    Guarded fatal a now (s.push a now) where
  member := Finset.mem_insert_self _ _
  place := by
    refine ⟨s.queue, [], rfl, ?_⟩
    rintro ⟨b, old⟩ member rfl
    exact harmless old member

theorem push (guarded : Guarded fatal a stamp s) (b : α) (now : ℕ) :
    Guarded fatal a stamp (s.push b now) where
  member := Finset.mem_insert_of_mem guarded.member
  place := by
    obtain ⟨before, after, queue, harmless⟩ := guarded.place
    refine ⟨before, after ++ [(b, now)], ?_, harmless⟩
    rw [ExpiringSet.push, queue, List.append_assoc, List.cons_append]

theorem erase (guarded : Guarded fatal a stamp s) (other : b ≠ a) :
    Guarded fatal a stamp (s.erase b) where
  member := Finset.mem_erase.mpr ⟨other.symm, guarded.member⟩
  place := guarded.place

/-- Dropping what is late does no harm as long as the stamp itself is not late, and late
stamps are fatal. -/
theorem pop (guarded : Guarded fatal a stamp s) (young : late stamp = false)
    (deadly : ∀ old, late old = true → fatal old) (popped : s.pop late = some (b, s')) :
    Guarded fatal a stamp s' := by
  obtain ⟨old, front, lateOld, members⟩ := pop_some popped
  obtain ⟨before, after, queue, harmless⟩ := guarded.place
  rw [front] at queue
  cases before with
  | nil =>
      obtain ⟨same, -⟩ := List.cons.inj queue
      obtain ⟨rfl, rfl⟩ := Prod.mk.inj same
      rw [young] at lateOld
      cases lateOld
  | cons e before =>
      obtain ⟨rfl, rest⟩ := List.cons.inj queue
      have other : b ≠ a := fun same => harmless _ List.mem_cons_self same (deadly old lateOld)
      refine ⟨?_, before, after, rest, fun e member => harmless e (List.mem_cons_of_mem _ member)⟩
      rw [members]
      exact Finset.mem_erase.mpr ⟨other.symm, guarded.member⟩

end Guarded

/-- The stamp is still in the queue, unless the element has left the set. -/
def Stale (a : α) (stamp : ℕ) (s : ExpiringSet α) : Prop :=
  (a, stamp) ∈ s.queue ∨ a ∉ s.members

theorem Stale.pop (stale : Stale a stamp s) (popped : s.pop late = some (b, s')) :
    Stale a stamp s' := by
  obtain ⟨old, front, -, members⟩ := pop_some popped
  have shrunk : s'.members ⊆ s.members := members ▸ Finset.erase_subset _ _
  rcases stale with inside | out
  · rw [front] at inside
    cases List.mem_cons.mp inside with
    | inl same =>
        obtain ⟨rfl, -⟩ := Prod.mk.inj same
        exact .inr (members ▸ Finset.notMem_erase _ _)
    | inr later => exact .inl later
  · exact .inr (fun member => out (shrunk member))

theorem exists_pop (ordered : s.Ordered now) (inside : (a, stamp) ∈ s.queue)
    (late_of_le : ∀ old ≤ stamp, late old = true) : ∃ b s', s.pop late = some (b, s') := by
  have sorted := ordered.sorted
  unfold ExpiringSet.pop
  cases queue : s.queue with
  | nil =>
      rw [queue] at inside
      cases inside
  | cons e rest =>
      rw [queue] at inside sorted
      have oldest : e.2 ≤ stamp := by
        cases List.mem_cons.mp inside with
        | inl same => exact (congrArg Prod.snd same).ge
        | inr later => exact (List.pairwise_cons.mp sorted).1 _ later
      obtain ⟨b, old⟩ := e
      dsimp only
      rw [if_pos (late_of_le old oldest)]
      exact ⟨_, _, rfl⟩

end ExpiringSet
