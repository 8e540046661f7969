import Mathlib.Data.Finset.Card
import Mathlib.Tactic
import ResDB.Geo.Commitment

/-! What the certificates of a forwarded batch vouch for. `VerifyCerts` checks those that there
are against the hash that the batch declares: not how many they are, not whose, and not whether
the hash is that of the batch. -/
namespace ResDB.Geo

namespace BatchUserRequest
variable (batch : BatchUserRequest)

def original : BatchUserRequest :=
  { userRequests := batch.userRequests, createtime := batch.createtime, localId := batch.localId }

/-- What `TransactionExecutor` adds when the request that holds the batch is committed. -/
def complete (seq : ℕ) (hash : Bytes) (proxyId : ℤ) (certs : List SignatureInfo) :
    BatchUserRequest :=
  { batch with
    seq := seq
    hash := hash
    proxyId := proxyId
    committedCerts := some certs }

def certs : List SignatureInfo := batch.committedCerts.getD []

end BatchUserRequest

def Binding (c : Crypto) : Prop :=
  ∀ message message' sig, c.verifyMessage message sig = true →
    c.verifyMessage message' sig = true → message = message'

section Certificates
variable (cfg : GeoConfig) (replicas : ℤ → Finset ℤ) (region : ℤ) (batch : BatchUserRequest)

def dataHash : Bytes := cfg.crypto.sha256 (cfg.format.serialize batch.original)

def maxFaulty : ℕ := ((replicas region).card - 1) / 3

/-- Enough replicas of the region have signed the data of the batch. -/
def Authentic : Prop :=
  ∃ signers ⊆ replicas region, 2 * maxFaulty replicas region + 1 ≤ signers.card ∧
    ∀ id ∈ signers, ∃ sig ∈ batch.certs, sig.nodeId = id ∧
      cfg.crypto.verifyMessage (dataHash cfg batch) sig = true

def named : Finset ℤ :=
  (replicas region).filter (fun id => id ∈ batch.certs.map (fun sig => sig.nodeId))

/-- The batch declares its own hash, and its certificates name enough replicas of the region. -/
def Quorate : Prop :=
  batch.hash = dataHash cfg batch ∧
    2 * maxFaulty replicas region + 1 ≤ (named replicas region batch).card

instance decidableQuorate : Decidable (Quorate cfg replicas region batch) :=
  inferInstanceAs (Decidable (_ ∧ _))

variable {cfg replicas region batch}

theorem complete_hash {sent : BatchUserRequest} (asSent : sent = sent.original) (seq : ℕ)
    (proxyId : ℤ) (certs : List SignatureInfo) :
    dataHash cfg (sent.complete seq (cfg.crypto.sha256 (cfg.format.serialize sent)) proxyId certs) =
      (sent.complete seq (cfg.crypto.sha256 (cfg.format.serialize sent)) proxyId certs).hash := by
  have same : (sent.complete seq (cfg.crypto.sha256 (cfg.format.serialize sent)) proxyId
      certs).original = sent := asSent.symm
  rw [dataHash, same]
  rfl

theorem accepts_of_forwarded {s : Commitment} {request : GeoRequest}
    (forwarded : (s.geoProcessCcm cfg request).1 = 0) : cfg.accepts request.data = true := by
  unfold Commitment.geoProcessCcm at forwarded
  split at forwarded
  · exact absurd forwarded one_ne_zero
  · by_contra invalid
    rw [if_neg invalid] at forwarded
    have code : (-2 : ℤ) = 0 := forwarded
    exact absurd code (by decide)

theorem certs_valid {data : Bytes} (accepted : cfg.accepts data = true)
    (parsed : cfg.format.parse data = some batch) (verifies : cfg.verifies = true) :
    ∀ sig ∈ batch.certs, cfg.crypto.verifyMessage batch.hash sig = true := by
  simp only [GeoConfig.accepts, parsed, Bool.and_eq_true, GeoConfig.verifyCerts, verifies,
    if_true] at accepted
  exact List.all_eq_true.mp accepted.2

theorem Quorate.authentic (quorate : Quorate cfg replicas region batch)
    (valid : ∀ sig ∈ batch.certs, cfg.crypto.verifyMessage batch.hash sig = true) :
    Authentic cfg replicas region batch := by
  refine ⟨named replicas region batch, Finset.filter_subset _ _, quorate.2, fun id inside => ?_⟩
  obtain ⟨sig, listed, own⟩ := List.mem_map.mp (Finset.mem_filter.mp inside).2
  refine ⟨sig, listed, own, ?_⟩
  rw [← quorate.1]
  exact valid sig listed

theorem Authentic.exists_honest (authentic : Authentic cfg replicas region batch)
    {faulty : Finset ℤ} (few : faulty.card ≤ maxFaulty replicas region) :
    ∃ sig ∈ batch.certs, sig.nodeId ∈ replicas region ∧ sig.nodeId ∉ faulty ∧
      cfg.crypto.verifyMessage (dataHash cfg batch) sig = true := by
  obtain ⟨signers, within, enough, signed⟩ := authentic
  have more : faulty.card < signers.card := by omega
  obtain ⟨id, inside, honest⟩ := Finset.exists_mem_notMem_of_card_lt_card more
  obtain ⟨sig, listed, own, valid⟩ := signed id inside
  exact ⟨sig, listed, own ▸ within inside, own ▸ honest, valid⟩

theorem Authentic.quorate (authentic : Authentic cfg replicas region batch)
    (binding : Binding cfg.crypto)
    (valid : ∀ sig ∈ batch.certs, cfg.crypto.verifyMessage batch.hash sig = true) :
    Quorate cfg replicas region batch := by
  have none' : (∅ : Finset ℤ).card ≤ maxFaulty replicas region := Nat.zero_le _
  obtain ⟨sig, listed, -, -, signed⟩ := authentic.exists_honest none'
  obtain ⟨signers, within, enough, every⟩ := authentic
  refine ⟨binding _ _ sig (valid sig listed) signed, enough.trans (Finset.card_le_card ?_)⟩
  intro id inside
  obtain ⟨sig, listed, own, -⟩ := every id inside
  exact Finset.mem_filter.mpr ⟨within inside, List.mem_map.mpr ⟨sig, listed, own⟩⟩

/-- The certificates of a forwarded batch are those of enough replicas of its region for its
data if it declares its own hash and they name as many, and otherwise never if a signature is
for one message. Then some replica that is not faulty has signed the data. -/
theorem forwarded_authentic_iff_quorate (cfg : GeoConfig) (replicas : ℤ → Finset ℤ)
    (s : Commitment) (request : GeoRequest) (batch : BatchUserRequest)
    (parsed : cfg.format.parse request.data = some batch)
    (forwarded : (s.geoProcessCcm cfg request).1 = 0) :
    (cfg.verifies = true → Quorate cfg replicas request.regionId batch →
      Authentic cfg replicas request.regionId batch) ∧
    (cfg.verifies = true → Binding cfg.crypto →
      (Authentic cfg replicas request.regionId batch ↔
        Quorate cfg replicas request.regionId batch)) ∧
    (Authentic cfg replicas request.regionId batch →
      ∀ faulty : Finset ℤ, faulty.card ≤ maxFaulty replicas request.regionId →
        ∃ sig ∈ batch.certs, sig.nodeId ∈ replicas request.regionId ∧ sig.nodeId ∉ faulty ∧
          cfg.crypto.verifyMessage (dataHash cfg batch) sig = true) := by
  have valid := certs_valid (accepts_of_forwarded forwarded) parsed
  refine ⟨fun verifies quorate => quorate.authentic (valid verifies), ?_, ?_⟩
  · intro verifies binding
    exact ⟨fun authentic => authentic.quorate binding (valid verifies),
      fun quorate => quorate.authentic (valid verifies)⟩
  · exact fun authentic faulty few => authentic.exists_honest few

def userRequest (data : Bytes) : UserRequest := ⟨{ data := data }, {}, 0⟩

/-- A batch that region 1 committed, and batches that it did not: one without any certificate,
and one with the hash and the certificates of the first. -/
def committedBatch : BatchUserRequest :=
  let hash := Crypto.sample.sha256 [1, 1, 1, 1]
  { userRequests := [userRequest [7]]
    seq := 1
    hash := hash
    committedCerts := some ([1, 2, 3].map (fun id => Crypto.sample.signMessage id hash)) }

def uncertifiedBatch : BatchUserRequest :=
  { userRequests := [userRequest [8]], seq := 1, committedCerts := some [] }

def swappedBatch : BatchUserRequest :=
  { committedBatch with userRequests := [userRequest [8]] }

def fourReplicas (region : ℤ) : Finset ℤ := if region = 1 then {1, 2, 3, 4} else {5, 6, 7, 8}

def forgingConfig : GeoConfig where
  format := Commitment.tableFormat
    [committedBatch, uncertifiedBatch, swappedBatch, committedBatch.original, swappedBatch.original]
  crypto := Crypto.sample
  verifies := true
  selfId := 5
  selfRegionId := 2

theorem committed_batch_authentic :
    Authentic forgingConfig fourReplicas 1 committedBatch :=
  (forwarded_authentic_iff_quorate forgingConfig fourReplicas {} ⟨[1], 1, 1, 1⟩ committedBatch
    (by decide +kernel) (by decide +kernel)).1 rfl (by decide +kernel)

theorem not_authentic_of_unsigned
    (unsigned : ∀ sig ∈ batch.certs, cfg.crypto.verifyMessage (dataHash cfg batch) sig = false) :
    ¬ Authentic cfg replicas region batch := by
  intro authentic
  have none' : (∅ : Finset ℤ).card ≤ maxFaulty replicas region := Nat.zero_le _
  obtain ⟨sig, listed, -, -, signed⟩ := authentic.exists_honest none'
  rw [unsigned sig listed] at signed
  cases signed

/-- Both batches that the region did not commit are forwarded. -/
theorem uncommitted_batches_forwarded :
    (forgingConfig.format.parse [1, 1] = some uncertifiedBatch ∧
      (({} : Commitment).geoProcessCcm forgingConfig ⟨[1, 1], 1, 1, 1⟩).1 = 0 ∧
      ¬ Authentic forgingConfig fourReplicas 1 uncertifiedBatch) ∧
    (forgingConfig.format.parse [1, 1, 1] = some swappedBatch ∧
      (({} : Commitment).geoProcessCcm forgingConfig ⟨[1, 1, 1], 1, 1, 1⟩).1 = 0 ∧
      ¬ Authentic forgingConfig fourReplicas 1 swappedBatch) := by
  refine ⟨⟨by decide +kernel, by decide +kernel, not_authentic_of_unsigned ?_⟩,
    by decide +kernel, by decide +kernel, not_authentic_of_unsigned ?_⟩
  · exact fun sig inside => absurd inside List.not_mem_nil
  · decide +kernel

end Certificates
end ResDB.Geo
