import Mathlib.Algebra.BigOperators.Group.Finset.Basic
import Mathlib.Tactic

/-! Entries that are marked one after the other. A marking takes the weight of its entry out
of a total, and an entry that is marked already has no weight left. -/

/-- A total over entries, each of which can be marked under its key. -/
structure Marking (σ K G : Type*) [DecidableEq K] [AddCommGroup G] where
  total : σ → G
  weight : σ → K → G
  mark : σ → K → σ
  total_mark : ∀ s k, total (mark s k) = total s - weight s k
  weight_mark : ∀ s k j, weight (mark s k) j = if j = k then 0 else weight s j

namespace Marking
variable {σ K G : Type*} [DecidableEq K] [AddCommGroup G] (m : Marking σ K G)

/-- A key that is marked several times counts once. -/
theorem total_foldl (s : σ) (keys : List K) :
    m.total (keys.foldl m.mark s) = m.total s - ∑ k ∈ keys.toFinset, m.weight s k := by
  induction keys generalizing s with
  | nil => simp
  | cons k rest ih =>
      have later : ∑ j ∈ rest.toFinset, m.weight (m.mark s k) j =
          ∑ j ∈ rest.toFinset.erase k, m.weight s j := by
        simp only [m.weight_mark, Finset.sum_ite, Finset.sum_const_zero, zero_add]
        refine Finset.sum_congr ?_ (fun _ _ => rfl)
        ext j
        simp only [Finset.mem_filter, Finset.mem_erase]
        exact and_comm
      have all : insert k rest.toFinset = insert k (rest.toFinset.erase k) := by
        ext j
        simp only [Finset.mem_insert, Finset.mem_erase]
        tauto
      rw [List.foldl_cons, ih, later, m.total_mark, List.toFinset_cons, all,
        Finset.sum_insert (Finset.notMem_erase k _), sub_sub]

end Marking
