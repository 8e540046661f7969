import Mathlib.Tactic
import ResDB.HotStuff.Message
import ResDB.TdHotstuff.Weights

/-! `ProposalManager::VerifyQC` of TD-HotStuff. It checks every signature and then
compares their number, not the signers' weight, with a floor derived from the heaviest
replica. -/
namespace ResDB.TdHotstuff
open WeightedQuorum HotStuff

/-- `max_w`, which starts at 1. -/
def maxWeight (weights : List ℕ) : ℕ := weights.foldl max 1

/-- `min_sigs`: how many signers of the heaviest weight would reach the threshold. -/
def minSigs (weights : List ℕ) : ℕ :=
  (weightThreshold weights + maxWeight weights - 1) / maxWeight weights

def verifyQC (crypto : Crypto) (weights : List ℕ) (qc : QC) : Bool :=
  if qc.signatures.all (crypto.verifyMessage qc.hash) then
    if qc.signatures.length < minSigs weights then false else true
  else false

/-- The distinct replicas whose valid signature over its hash the certificate contains. -/
def validSigners (crypto : Crypto) (weights : List ℕ) (qc : QC) : Finset Int :=
  (replicas weights.length).filter
    (fun i => ∃ s ∈ qc.signatures, s.nodeId = i ∧ crypto.verifyMessage qc.hash s = true)

theorem foldl_max_ge (l : List ℕ) (start : ℕ) : start ≤ l.foldl max start := by
  induction l generalizing start with
  | nil => exact le_rfl
  | cons w l ih => exact (le_max_left start w).trans (ih (max start w))

theorem one_le_maxWeight (weights : List ℕ) : 1 ≤ maxWeight weights := foldl_max_ge weights 1

theorem le_foldl_max {l : List ℕ} {w : ℕ} (start : ℕ) (member : w ∈ l) :
    w ≤ l.foldl max start := by
  induction l generalizing start with
  | nil => cases member
  | cons v l ih =>
      rcases List.mem_cons.mp member with rfl | later
      · exact (le_max_right start w).trans (foldl_max_ge l (max start w))
      · exact ih (max start v) later

theorem le_maxWeight {weights : List ℕ} {w : ℕ} (member : w ∈ weights) :
    w ≤ maxWeight weights := le_foldl_max 1 member

theorem foldl_max_of_forall {l : List ℕ} {c start : ℕ} (all : ∀ w ∈ l, w = c) (le : start ≤ c)
    (some : l ≠ []) : l.foldl max start = c := by
  induction l generalizing start with
  | nil => exact absurd rfl some
  | cons w l ih =>
      have head : max start w = c := by
        rw [all w (by simp), max_eq_right le]
      have tail : ∀ v ∈ l, v = c := fun v member => all v (List.mem_cons_of_mem w member)
      rw [List.foldl_cons, head]
      cases l with
      | nil => rfl
      | cons v l => exact ih tail le_rfl (List.cons_ne_nil v l)

theorem threshold_le_of_minSigs_le {weights : List ℕ} {k : ℕ} (enough : minSigs weights ≤ k) :
    weightThreshold weights ≤ k * maxWeight weights := by
  have positive := one_le_maxWeight weights
  have ceiling : (weightThreshold weights + maxWeight weights - 1) / maxWeight weights <
      k + 1 := Nat.lt_succ_of_le enough
  rw [Nat.div_lt_iff_lt_mul positive, Nat.succ_mul] at ceiling
  omega

theorem verifyQC_valid {crypto : Crypto} {weights : List ℕ} {qc : QC}
    (accepted : verifyQC crypto weights qc = true) :
    (∀ s ∈ qc.signatures, crypto.verifyMessage qc.hash s = true) ∧
      minSigs weights ≤ qc.signatures.length := by
  unfold verifyQC at accepted
  split_ifs at accepted with valid few
  exact ⟨List.all_eq_true.mp valid, Nat.le_of_not_lt few⟩

theorem card_validSigners {crypto : Crypto} {weights : List ℕ} {qc : QC}
    (valid : ∀ s ∈ qc.signatures, crypto.verifyMessage qc.hash s = true)
    (distinct : (qc.signatures.map SignatureInfo.nodeId).Nodup)
    (known : ∀ s ∈ qc.signatures, s.nodeId ∈ replicas weights.length) :
    (validSigners crypto weights qc).card = qc.signatures.length := by
  have same : validSigners crypto weights qc =
      (qc.signatures.map SignatureInfo.nodeId).toFinset := by
    ext i
    simp only [validSigners, Finset.mem_filter, List.mem_toFinset, List.mem_map]
    constructor
    · rintro ⟨-, s, member, named, -⟩
      exact ⟨s, member, named⟩
    · rintro ⟨s, member, rfl⟩
      exact ⟨known s member, s, member, rfl, valid s member⟩
  rw [same, List.toFinset_card_of_nodup distinct, List.length_map]

/-- The signatures name different replicas of the configuration. -/
def DistinctSigners (weights : List ℕ) (qc : QC) : Prop :=
  (qc.signatures.map SignatureInfo.nodeId).Nodup ∧
    ∀ s ∈ qc.signatures, s.nodeId ∈ replicas weights.length

instance (weights : List ℕ) (qc : QC) : Decidable (DistinctSigners weights qc) :=
  inferInstanceAs (Decidable (_ ∧ _))

/-- As many replicas as the floor asks for weigh the threshold, also the lightest ones. -/
def FloorReaches (weights : List ℕ) : Prop :=
  ∀ S ⊆ replicas weights.length, minSigs weights ≤ S.card →
    weightThreshold weights ≤ weight (weightAt weights) S

theorem validSigners_subset (crypto : Crypto) (weights : List ℕ) (qc : QC) :
    validSigners crypto weights qc ⊆ replicas weights.length :=
  Finset.filter_subset _ _

theorem weightAt_of_forall {weights : List ℕ} {c : ℕ} (equal : ∀ w ∈ weights, w = c) {i : Int}
    (known : i ∈ replicas weights.length) : weightAt weights i = c := by
  have inside := mem_replicas.mp known
  have index : (i - 1).toNat < weights.length := by omega
  rw [weightAt, if_pos inside, List.getD_eq_getElem _ _ index]
  exact equal _ (List.getElem_mem index)

theorem floorReaches_of_equal {weights : List ℕ} (positive : ∀ w ∈ weights, 0 < w) {c : ℕ}
    (equal : ∀ w ∈ weights, w = c) : FloorReaches weights := by
  intro S subset enough
  have reach := threshold_le_of_minSigs_le enough
  cases weights with
  | nil =>
      rw [Finset.subset_empty.mp subset] at reach
      exact absurd reach (by decide)
  | cons first rest =>
      have one : 1 ≤ c := by
        rw [← equal first List.mem_cons_self]
        exact positive first List.mem_cons_self
      rw [maxWeight, foldl_max_of_forall equal one (List.cons_ne_nil _ _)] at reach
      exact reach.trans (card_mul_le_weight _ fun i member =>
        (weightAt_of_forall equal (subset member)).ge)

def signedBy (crypto : Crypto) (hash : Bytes) (S : List Int) : QC :=
  { hash, signatures := S.map (fun i => crypto.signMessage i hash) }

theorem validSigners_signedBy {crypto : Crypto} {weights : List ℕ} {hash : Bytes} {S : List Int}
    (known : ∀ i ∈ S, i ∈ replicas weights.length)
    (signs : ∀ i ∈ S, crypto.verifyMessage hash (crypto.signMessage i hash) = true) :
    validSigners crypto weights (signedBy crypto hash S) = S.toFinset := by
  ext i
  rw [validSigners, Finset.mem_filter, List.mem_toFinset]
  constructor
  · rintro ⟨-, s, listed, rfl, -⟩
    obtain ⟨j, member, rfl⟩ := List.mem_map.mp listed
    exact member
  · intro member
    exact ⟨known i member, _, List.mem_map_of_mem member, rfl, signs i member⟩

theorem verifyQC_signedBy {crypto : Crypto} {weights : List ℕ} {hash : Bytes} {S : List Int}
    (signs : ∀ i ∈ S, crypto.verifyMessage hash (crypto.signMessage i hash) = true)
    (enough : minSigs weights ≤ S.length) :
    verifyQC crypto weights (signedBy crypto hash S) = true := by
  have valid : (signedBy crypto hash S).signatures.all
      (crypto.verifyMessage (signedBy crypto hash S).hash) = true := by
    rw [signedBy, List.all_map]
    exact List.all_eq_true.mpr signs
  have long : ¬ (signedBy crypto hash S).signatures.length < minSigs weights := by
    rw [signedBy, List.length_map]
    exact not_lt.mpr enough
  rw [verifyQC, if_pos valid, if_neg long]

theorem distinctSigners_signedBy (crypto : Crypto) {weights : List ℕ} (hash : Bytes)
    {S : List Int} (distinct : S.Nodup) (known : ∀ i ∈ S, i ∈ replicas weights.length) :
    DistinctSigners weights (signedBy crypto hash S) := by
  have names : (signedBy crypto hash S).signatures.map SignatureInfo.nodeId = S := by
    rw [signedBy, List.map_map]
    exact List.map_id S
  refine ⟨names.symm ▸ distinct, fun s member => ?_⟩
  obtain ⟨i, inside, rfl⟩ := List.mem_map.mp member
  exact known i inside

/-- A certificate that `VerifyQC` accepts holds only valid signatures. If they name distinct
replicas, there are as many signers as could weigh the threshold together were each the heaviest
replica. They do weigh it, whatever the certificate, if and only if as many replicas of the
lightest do, as with equal weights. -/
theorem verifyQC_counts_signers (crypto : Crypto) (weights : List ℕ)
    (positive : ∀ w ∈ weights, 0 < w) :
    (∀ qc, verifyQC crypto weights qc = true →
      (∀ s ∈ qc.signatures, crypto.verifyMessage qc.hash s = true) ∧
        (DistinctSigners weights qc →
          minSigs weights ≤ (validSigners crypto weights qc).card ∧
            weightThreshold weights ≤
              (validSigners crypto weights qc).card * maxWeight weights)) ∧
    (FloorReaches weights → ∀ qc, verifyQC crypto weights qc = true → DistinctSigners weights qc →
      weightThreshold weights ≤ weight (weightAt weights) (validSigners crypto weights qc)) ∧
    (∀ hash, (∀ i ∈ replicas weights.length,
        crypto.verifyMessage hash (crypto.signMessage i hash) = true) →
      (∀ qc, verifyQC crypto weights qc = true → DistinctSigners weights qc →
        weightThreshold weights ≤ weight (weightAt weights) (validSigners crypto weights qc)) →
      FloorReaches weights) ∧
    ((∃ c, ∀ w ∈ weights, w = c) → FloorReaches weights) := by
  have signers : ∀ qc, verifyQC crypto weights qc = true → DistinctSigners weights qc →
      minSigs weights ≤ (validSigners crypto weights qc).card := by
    rintro qc accepted ⟨distinct, known⟩
    obtain ⟨valid, enough⟩ := verifyQC_valid accepted
    rwa [card_validSigners valid distinct known]
  refine ⟨fun qc accepted => ⟨(verifyQC_valid accepted).1, fun distinct => ?_⟩, ?_, ?_, ?_⟩
  · have enough := signers qc accepted distinct
    exact ⟨enough, threshold_le_of_minSigs_le enough⟩
  · intro reaches qc accepted distinct
    exact reaches _ (validSigners_subset crypto weights qc) (signers qc accepted distinct)
  · intro hash signs sound S subset enough
    have known : ∀ i ∈ S.toList, i ∈ replicas weights.length :=
      fun i member => subset (Finset.mem_toList.mp member)
    have valid : ∀ i ∈ S.toList, crypto.verifyMessage hash (crypto.signMessage i hash) = true :=
      fun i member => signs i (known i member)
    have reached := sound _ (verifyQC_signedBy valid (by rwa [Finset.length_toList]))
      (distinctSigners_signedBy crypto hash S.nodup_toList known)
    rwa [validSigners_signedBy known valid, Finset.toList_toFinset] at reached
  · rintro ⟨c, equal⟩
    exact floorReaches_of_equal positive equal

def lightQC : QC := signedBy Crypto.sample [7] [2, 3, 4]

/-- With equal weights they reach the threshold, which is 6 of 8. -/
theorem verifyQC_counts_signers_light :
    verifyQC Crypto.sample [2, 2, 2, 2] lightQC = true ∧
      weightThreshold [2, 2, 2, 2] ≤
        weight (weightAt [2, 2, 2, 2]) (validSigners Crypto.sample [2, 2, 2, 2] lightQC) := by
  obtain ⟨-, reaches, -, equal⟩ :=
    verifyQC_counts_signers Crypto.sample [2, 2, 2, 2] (by decide)
  exact ⟨by decide, reaches (equal ⟨2, by decide⟩) lightQC (by decide) (by decide)⟩

/-- Three distinct replicas pass the floor under the deployed weights, although they
weigh 6 of the 7 that the threshold asks for; so does one replica that signs three times. -/
theorem verifyQC_accepts_below_threshold :
    verifyQC Crypto.sample (buildWeights 4) lightQC = true ∧
      (lightQC.signatures.map SignatureInfo.nodeId).Nodup ∧
      weight (weightAt (buildWeights 4)) (validSigners Crypto.sample (buildWeights 4) lightQC) <
        weightThreshold (buildWeights 4) ∧
      verifyQC Crypto.sample (buildWeights 4) (signedBy Crypto.sample [7] [2, 2, 2]) = true ∧
      weight (weightAt (buildWeights 4))
        (validSigners Crypto.sample (buildWeights 4) (signedBy Crypto.sample [7] [2, 2, 2])) <
        weightThreshold (buildWeights 4) := by
  decide

end ResDB.TdHotstuff
