import Mathlib.Tactic
import ResDB.Library.WeightedQuorum
import ResDB.TdHotstuff.Weights

/-! The replica counts that `ResDBConfig` and the `Consensus` constructors derive from the
number of replicas, and when quorums counted by them overlap in an honest replica. -/
namespace ResDB.Config
open WeightedQuorum
open TdHotstuff (replicas mem_replicas)

/-- The `f` of every constructor. The source subtracts from an unsigned size, which
agrees from one replica on. -/
def faultBound (n : ℕ) : ℕ := (n - 1) / 3

def minDataReceiveNum (n : ℕ) : ℕ := max (2 * faultBound n + 1) 1

def minClientReceiveNum (n : ℕ) : ℕ := max (faultBound n + 1) 1

def maxMaliciousReplicaNum (n : ℕ) : ℕ := max (faultBound n) 0

@[simp] theorem minDataReceiveNum_eq (n : ℕ) : minDataReceiveNum n = 2 * faultBound n + 1 :=
  max_eq_left (by omega)

@[simp] theorem minClientReceiveNum_eq (n : ℕ) : minClientReceiveNum n = faultBound n + 1 :=
  max_eq_left (by omega)

@[simp] theorem maxMaliciousReplicaNum_eq (n : ℕ) : maxMaliciousReplicaNum n = faultBound n :=
  max_eq_left (Nat.zero_le _)

theorem faultBound_exact (f : ℕ) : faultBound (3 * f + 1) = f := by
  unfold faultBound
  omega

theorem replicas_eq_Icc (n : ℕ) : replicas n = Finset.Icc (1 : Int) n := by
  ext i
  rw [mem_replicas, Finset.mem_Icc]

@[simp] theorem card_replicas (n : ℕ) : (replicas n).card = n := by
  rw [replicas_eq_Icc, Int.card_Icc]
  omega

theorem weight_one (S : Finset Int) : weight (fun _ => 1) S = S.card :=
  (Finset.card_eq_sum_ones S).symm

theorem card_add_le_inter {n : ℕ} {A B : Finset Int} (subA : A ⊆ replicas n)
    (subB : B ⊆ replicas n) : A.card + B.card ≤ (A ∩ B).card + n := by
  have overlap := weight_add_le_inter (fun _ => 1) subA subB
  rwa [weight_one, weight_one, weight_one, weight_one, card_replicas] at overlap

theorem exists_common_honest {f : ℕ} {A B byz : Finset Int} (subA : A ⊆ replicas (3 * f + 1))
    (subB : B ⊆ replicas (3 * f + 1)) (largeA : 2 * f + 1 ≤ A.card)
    (largeB : 2 * f + 1 ≤ B.card) (few : byz.card ≤ f) : ∃ i, i ∈ A ∧ i ∈ B ∧ i ∉ byz := by
  apply exists_common_good (fun _ => 1) subA subB
  rw [weight_one, weight_one, weight_one, weight_one, card_replicas]
  omega

/-- Any two sets of the quorum size overlap in more replicas than can be faulty, so in an
honest one. -/
def QuorumsOverlap (n : ℕ) : Prop :=
  ∀ A B : Finset Int, A ⊆ replicas n → B ⊆ replicas n →
    A.card = minDataReceiveNum n → B.card = minDataReceiveNum n →
    maxMaliciousReplicaNum n + 1 ≤ (A ∩ B).card ∧
      ∀ byz : Finset Int, byz.card ≤ maxMaliciousReplicaNum n → ∃ i ∈ A ∩ B, i ∉ byz

theorem extreme_quorums (n : ℕ) (some : 1 ≤ n) : ∃ A B : Finset Int,
    A ⊆ replicas n ∧ B ⊆ replicas n ∧ A.card = minDataReceiveNum n ∧
      B.card = minDataReceiveNum n ∧ (A ∩ B).card = 2 * minDataReceiveNum n - n := by
  have size : 3 * faultBound n < n := by
    unfold faultBound
    omega
  refine ⟨Finset.Icc 1 (2 * faultBound n + 1 : ℕ), Finset.Icc (n - 2 * faultBound n : Int) n,
    ?_, ?_, ?_, ?_, ?_⟩
  · intro i member
    rw [Finset.mem_Icc] at member
    rw [mem_replicas]
    omega
  · intro i member
    rw [Finset.mem_Icc] at member
    rw [mem_replicas]
    omega
  · rw [Int.card_Icc, minDataReceiveNum_eq]
    omega
  · rw [Int.card_Icc, minDataReceiveNum_eq]
    omega
  · have shared : Finset.Icc 1 ((2 * faultBound n + 1 : ℕ) : Int) ∩
        Finset.Icc (n - 2 * faultBound n : Int) n =
        Finset.Icc (n - 2 * faultBound n : Int) (2 * faultBound n + 1 : ℕ) := by
      ext i
      simp only [Finset.mem_inter, Finset.mem_Icc]
      omega
    rw [shared, Int.card_Icc, minDataReceiveNum_eq]
    omega

/-- The quorum of `2 f + 1` is large enough exactly when `n = 3 f + 1`. -/
theorem quorums_overlap_iff (n : ℕ) (some : 1 ≤ n) : QuorumsOverlap n ↔ n % 3 = 1 := by
  constructor
  · intro overlap
    obtain ⟨A, B, subA, subB, sizeA, sizeB, shared⟩ := extreme_quorums n some
    have enough := (overlap A B subA subB sizeA sizeB).1
    rw [shared, maxMaliciousReplicaNum_eq, minDataReceiveNum_eq, faultBound] at enough
    omega
  · intro residue A B subA subB sizeA sizeB
    have total : n = 3 * faultBound n + 1 := by
      unfold faultBound
      omega
    have shared := card_add_le_inter subA subB
    rw [sizeA, sizeB, minDataReceiveNum_eq] at shared
    rw [maxMaliciousReplicaNum_eq]
    refine ⟨by omega, ?_⟩
    intro byz few
    apply exists_notMem_of_lt (fun _ => 1)
    rw [weight_one, weight_one]
    omega

theorem quorums_overlap_four : (1 ≤ 4) ∧ (QuorumsOverlap 4 ↔ 4 % 3 = 1) :=
  ⟨by decide, quorums_overlap_iff 4 (by decide)⟩

/-- With five replicas `{1, 2, 3}` and `{3, 4, 5}` are quorums, one replica may be faulty,
and it may be the only one they share. -/
theorem five_replicas_share_one_faulty : ¬ QuorumsOverlap 5 ∧
    minDataReceiveNum 5 = 3 ∧ maxMaliciousReplicaNum 5 = 1 ∧
    ({1, 2, 3} : Finset Int) ⊆ replicas 5 ∧ ({3, 4, 5} : Finset Int) ⊆ replicas 5 ∧
    ({1, 2, 3} : Finset Int) ∩ {3, 4, 5} = {3} := by
  refine ⟨?_, by decide, by decide, by decide, by decide, by decide⟩
  intro overlap
  have shared := (overlap {1, 2, 3} {3, 4, 5} (by decide) (by decide) (by decide) (by decide)).1
  exact absurd shared (by decide)

end ResDB.Config
