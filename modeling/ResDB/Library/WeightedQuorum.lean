import Mathlib.Algebra.BigOperators.Intervals
import Mathlib.Tactic

/-! Weighted quorums over an arbitrary type of parties. A party weighs a natural
number, a set of parties weighs the sum, and two heavy sets must overlap. -/
namespace WeightedQuorum

variable {ι : Type*} (w : ι → ℕ)

def weight (S : Finset ι) : ℕ := ∑ i ∈ S, w i

theorem weight_mono {S T : Finset ι} (sub : S ⊆ T) : weight w S ≤ weight w T :=
  Finset.sum_le_sum_of_subset sub

theorem weight_le_card_mul {S : Finset ι} {m : ℕ} (bound : ∀ i ∈ S, w i ≤ m) :
    weight w S ≤ S.card * m := by
  simpa only [weight, smul_eq_mul] using Finset.sum_le_card_nsmul S w m bound

theorem card_mul_le_weight {S : Finset ι} {m : ℕ} (bound : ∀ i ∈ S, m ≤ w i) :
    S.card * m ≤ weight w S := by
  simpa only [weight, smul_eq_mul] using Finset.card_nsmul_le_sum S w m bound

section Overlap
variable [DecidableEq ι]

theorem weight_sdiff_add {S U : Finset ι} (sub : S ⊆ U) :
    weight w (U \ S) + weight w S = weight w U :=
  Finset.sum_sdiff sub

theorem weight_add_le_inter {A B U : Finset ι} (subA : A ⊆ U) (subB : B ⊆ U) :
    weight w A + weight w B ≤ weight w (A ∩ B) + weight w U := by
  have split : weight w (A ∪ B) + weight w (A ∩ B) = weight w A + weight w B :=
    Finset.sum_union_inter
  have within : weight w (A ∪ B) ≤ weight w U := weight_mono w (Finset.union_subset subA subB)
  omega

theorem exists_notMem_of_lt {S bad : Finset ι} (heavy : weight w bad < weight w S) :
    ∃ i ∈ S, i ∉ bad := by
  by_contra none
  push Not at none
  exact absurd (weight_mono w none) (Nat.not_le_of_lt heavy)

/-- Two sets that outweigh the population and the bad set together share a good member. -/
theorem exists_common_good {A B U bad : Finset ι} (subA : A ⊆ U) (subB : B ⊆ U)
    (heavy : weight w U + weight w bad < weight w A + weight w B) :
    ∃ i, i ∈ A ∧ i ∈ B ∧ i ∉ bad := by
  have overlap := weight_add_le_inter w subA subB
  have larger : weight w bad < weight w (A ∩ B) := by omega
  obtain ⟨i, member, good⟩ := exists_notMem_of_lt w larger
  rw [Finset.mem_inter] at member
  exact ⟨i, member.1, member.2, good⟩

end Overlap
end WeightedQuorum
