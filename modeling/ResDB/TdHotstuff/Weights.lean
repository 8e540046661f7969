import Mathlib.Algebra.BigOperators.Intervals
import Mathlib.Data.List.GetD
import Mathlib.Tactic
import ResDB.Library.WeightedQuorum

/-! Trust weights of a TD-HotStuff deployment: the vector that
`Consensus::BuildWeights` hands out, the threshold the `TdHotstuff` constructor
derives from a vector, and the arithmetic of quorums under them. -/
namespace ResDB.TdHotstuff
open WeightedQuorum

/-- Node ids are 1-based, so an id indexes the vector at `id - 1`. An id outside
the vector weighs nothing. -/
def weightAt (weights : List ℕ) (id : Int) : ℕ :=
  if 1 ≤ id ∧ id ≤ weights.length then weights.getD (id - 1).toNat 0 else 0

def replicas (n : ℕ) : Finset Int := (Finset.range n).image (fun k : ℕ => (k : Int) + 1)

/-- `weight_threshold_` of the constructor: strictly above two thirds of the total. It is an
`int` there, as the sums of weights are, which is exact for a total below `2 ^ 30`. -/
def weightThreshold (weights : List ℕ) : ℕ := 2 * weights.sum / 3 + 1

@[simp] theorem mem_replicas {n : ℕ} {i : Int} : i ∈ replicas n ↔ 1 ≤ i ∧ i ≤ n := by
  simp only [replicas, Finset.mem_image, Finset.mem_range]
  constructor
  · rintro ⟨k, below, rfl⟩
    omega
  · intro range
    exact ⟨(i - 1).toNat, by omega, by omega⟩

theorem replicas_succ (n : ℕ) : replicas (n + 1) = insert ((n : Int) + 1) (replicas n) := by
  ext i
  simp only [mem_replicas, Finset.mem_insert, Nat.cast_add, Nat.cast_one]
  omega

theorem weightAt_append_of_mem {weights : List ℕ} (x : ℕ) {i : Int}
    (known : i ∈ replicas weights.length) :
    weightAt (weights ++ [x]) i = weightAt weights i := by
  rw [mem_replicas] at known
  have inside : (i - 1).toNat < weights.length := by omega
  have longer : 1 ≤ i ∧ i ≤ ((weights ++ [x]).length : Int) := by
    simp only [List.length_append, List.length_singleton, Nat.cast_add, Nat.cast_one]
    omega
  rw [weightAt, weightAt, if_pos longer, if_pos known, List.getD_append _ _ _ _ inside]

theorem weightAt_append_last (weights : List ℕ) (x : ℕ) :
    weightAt (weights ++ [x]) ((weights.length : Int) + 1) = x := by
  have known : 1 ≤ (weights.length : Int) + 1 ∧
      (weights.length : Int) + 1 ≤ ((weights ++ [x]).length : Int) := by
    simp only [List.length_append, List.length_singleton, Nat.cast_add, Nat.cast_one]
    omega
  have index : ((weights.length : Int) + 1 - 1).toNat = weights.length := by omega
  rw [weightAt, if_pos known, index]
  simp

theorem weight_replicas (weights : List ℕ) :
    weight (weightAt weights) (replicas weights.length) = weights.sum := by
  induction weights using List.reverseRecOn with
  | nil => rfl
  | append_singleton weights x ih =>
      have fresh : (weights.length : Int) + 1 ∉ replicas weights.length := by
        simp only [mem_replicas]
        omega
      have same : ∑ i ∈ replicas weights.length, weightAt (weights ++ [x]) i =
          ∑ i ∈ replicas weights.length, weightAt weights i :=
        Finset.sum_congr rfl (fun i known => weightAt_append_of_mem x known)
      simp only [List.length_append, List.length_singleton, replicas_succ, weight,
        Finset.sum_insert fresh, weightAt_append_last, same, List.sum_append, List.sum_singleton]
      rw [← ih, weight, Nat.add_comm]

theorem two_thirds_lt_threshold (weights : List ℕ) :
    2 * weights.sum < 3 * weightThreshold weights := by
  unfold weightThreshold
  omega

theorem third_lt_weight_inter {weights : List ℕ} {A B : Finset Int}
    (subA : A ⊆ replicas weights.length) (subB : B ⊆ replicas weights.length)
    (heavyA : weightThreshold weights ≤ weight (weightAt weights) A)
    (heavyB : weightThreshold weights ≤ weight (weightAt weights) B) :
    weights.sum < 3 * weight (weightAt weights) (A ∩ B) := by
  have overlap := weight_add_le_inter (weightAt weights) subA subB
  have above := two_thirds_lt_threshold weights
  rw [weight_replicas] at overlap
  omega

/-- `Consensus::BuildWeights`: weight 2 for everyone, and 3 for the first replica
when one fault is tolerated. What the source computes after that is only logged. -/
def buildWeights (totalReplicas : ℕ) : List ℕ :=
  let f := (totalReplicas - 1) / 3
  let weights := List.replicate totalReplicas 2
  if 4 ≤ totalReplicas ∧ f = 1 then weights.set 0 3 else weights

theorem buildWeights_small {n : ℕ} (low : 4 ≤ n) (high : n ≤ 6) :
    buildWeights n = (List.replicate n 2).set 0 3 := by
  have one : (n - 1) / 3 = 1 := by omega
  simp only [buildWeights, one, low, and_self, if_true]

theorem buildWeights_uniform {n : ℕ} (other : n < 4 ∨ 6 < n) :
    buildWeights n = List.replicate n 2 := by
  have not : ¬(4 ≤ n ∧ (n - 1) / 3 = 1) := by omega
  simp only [buildWeights, not, if_false]

@[simp] theorem buildWeights_length (n : ℕ) : (buildWeights n).length = n := by
  unfold buildWeights
  dsimp only
  split_ifs <;> simp

theorem buildWeights_sum_small {n : ℕ} (low : 4 ≤ n) (high : n ≤ 6) :
    (buildWeights n).sum = 2 * n + 1 := by
  rw [buildWeights_small low high]
  interval_cases n <;> rfl

theorem buildWeights_sum_uniform {n : ℕ} (other : n < 4 ∨ 6 < n) :
    (buildWeights n).sum = 2 * n := by
  rw [buildWeights_uniform other, List.sum_replicate, smul_eq_mul, Nat.mul_comm]

theorem weightAt_le_of_forall {weights : List ℕ} {m : ℕ} (bound : ∀ w ∈ weights, w ≤ m)
    (i : Int) : weightAt weights i ≤ m := by
  unfold weightAt
  split_ifs with known
  · have inside : (i - 1).toNat < weights.length := by omega
    rw [List.getD_eq_getElem _ _ inside]
    exact bound _ (List.getElem_mem inside)
  · exact Nat.zero_le m

theorem faulty_weight_le (n : ℕ) {F : Finset Int} (size : F.card = (n - 1) / 3) :
    weight (weightAt (buildWeights n)) F ≤
      if 4 ≤ n ∧ n ≤ 6 then 3 else 2 * ((n - 1) / 3) := by
  by_cases small : 4 ≤ n ∧ n ≤ 6
  · rw [if_pos small]
    have heaviest : ∀ w ∈ buildWeights n, w ≤ 3 := by
      obtain ⟨low, high⟩ := small
      rw [buildWeights_small low high]
      interval_cases n <;> decide
    have bound := weight_le_card_mul _ (fun i (_ : i ∈ F) => weightAt_le_of_forall heaviest i)
    have one : (n - 1) / 3 = 1 := by omega
    omega
  · rw [if_neg small]
    have heaviest : ∀ w ∈ buildWeights n, w ≤ 2 := by
      rw [buildWeights_uniform (by omega)]
      intro w member
      exact (List.eq_of_mem_replicate member).le
    have bound := weight_le_card_mul _ (fun i (_ : i ∈ F) => weightAt_le_of_forall heaviest i)
    omega

/-- Sets that reach the constructor's threshold overlap in more than a third of the
total. Under the weights of `BuildWeights` the overlap outweighs every set of
`f = (n - 1) / 3` replicas, so it has a member outside that set. -/
theorem weighted_quorum_intersection (weights : List ℕ) (A B : Finset Int)
    (subA : A ⊆ replicas weights.length) (subB : B ⊆ replicas weights.length)
    (heavyA : weightThreshold weights ≤ weight (weightAt weights) A)
    (heavyB : weightThreshold weights ≤ weight (weightAt weights) B) :
    weights.sum < 3 * weight (weightAt weights) (A ∩ B) ∧
      ∀ n, 1 ≤ n → weights = buildWeights n → ∀ F ⊆ replicas n, F.card = (n - 1) / 3 →
        weight (weightAt weights) F < weight (weightAt weights) (A ∩ B) ∧
          ∃ i ∈ A ∩ B, i ∉ F := by
  have third := third_lt_weight_inter subA subB heavyA heavyB
  refine ⟨third, ?_⟩
  rintro n one rfl F - size
  have faulty := faulty_weight_le n size
  have lighter : weight (weightAt (buildWeights n)) F <
      weight (weightAt (buildWeights n)) (A ∩ B) := by
    have overlap := weight_add_le_inter (weightAt (buildWeights n)) subA subB
    rw [weight_replicas] at overlap
    unfold weightThreshold at heavyA heavyB
    by_cases small : 4 ≤ n ∧ n ≤ 6
    · rw [if_pos small] at faulty
      rw [buildWeights_sum_small small.1 small.2] at overlap heavyA heavyB
      omega
    · rw [if_neg small] at faulty
      rw [buildWeights_sum_uniform (by omega)] at overlap heavyA heavyB
      omega
  exact ⟨lighter, exists_notMem_of_lt _ lighter⟩

theorem weighted_quorum_intersection_four :
    ({1, 2, 3} ∩ {1, 2, 4} : Finset Int) = {1, 2} ∧
      9 < 3 * weight (weightAt (buildWeights 4)) ({1, 2, 3} ∩ {1, 2, 4}) ∧
      ∃ i ∈ ({1, 2, 3} ∩ {1, 2, 4} : Finset Int), i ∉ ({1} : Finset Int) := by
  have both := weighted_quorum_intersection (buildWeights 4) {1, 2, 3} {1, 2, 4}
    (by decide) (by decide) (by decide) (by decide)
  exact ⟨by decide, both.1, (both.2 4 (by decide) rfl {1} (by decide) (by decide)).2⟩

/-- The constraint in the comment of `BuildWeights`: after any `f` replicas are
removed the others still reach the threshold. -/
def Available (n : ℕ) : Prop :=
  ∀ F ⊆ replicas n, F.card = (n - 1) / 3 →
    weightThreshold (buildWeights n) ≤ weight (weightAt (buildWeights n)) (replicas n \ F)

/-- With four replicas the heavier first replica is too heavy to lose. -/
theorem four_replicas_unavailable : ¬ Available 4 := by
  intro available
  exact absurd (available {1} (by decide) (by decide)) (by decide)

/-- The comment's constraint is met for every size of deployment except four. -/
theorem available_iff_ne_four (n : ℕ) (one : 1 ≤ n) : Available n ↔ n ≠ 4 := by
  constructor
  · rintro available rfl
    exact absurd (available {1} (by decide) (by decide)) (by decide)
  · intro other F sub size
    have rest := weight_sdiff_add (weightAt (buildWeights n)) sub
    have faulty := faulty_weight_le n size
    have total := weight_replicas (buildWeights n)
    rw [buildWeights_length] at total
    rw [total] at rest
    unfold weightThreshold
    by_cases small : 4 ≤ n ∧ n ≤ 6
    · rw [if_pos small] at faulty
      rw [buildWeights_sum_small small.1 small.2] at rest ⊢
      omega
    · rw [if_neg small] at faulty
      rw [buildWeights_sum_uniform (by omega)] at rest ⊢
      omega

theorem available_five : 1 ≤ 5 ∧ Available 5 :=
  ⟨by decide, (available_iff_ne_four 5 (by decide)).mpr (by decide)⟩

end ResDB.TdHotstuff
