import Mathlib.Tactic
import ResDB.TdHotstuff.QuorumCert
import ResDB.TdHotstuff.Votes

/-! What `ReceiveCertificate` does over a whole run of calls, one after another. Every
tally is the weight of the signers stored for it, a view and hash get at most one
certificate, and what is formed passes `VerifyQC`. -/
namespace ResDB.TdHotstuff
open WeightedQuorum HotStuff

section Calls
variable {crypto : Crypto} {weights : List ℕ} {votes : Votes} {cert : Certificate}

theorem close_receive_own (h : Bytes) :
    (votes.close cert).receive cert.view h = votes.receive cert.view h := by
  have other : ¬(2 < cert.view ∧ cert.view = cert.view - 2) := by omega
  simp only [Votes.close, if_neg other]

theorem close_receivedWeight_own (h : Bytes) :
    (votes.close cert).receivedWeight cert.view h = votes.receivedWeight cert.view h := by
  have other : ¬(2 < cert.view ∧ cert.view = cert.view - 2) := by omega
  simp only [Votes.close, if_neg other]

theorem countVote_of_admits (ok : admits crypto weights votes cert = true) :
    (countVote crypto weights votes cert).1.receive cert.view cert.hash =
        insertSigner (votes.receive cert.view cert.hash) cert ∧
      (countVote crypto weights votes cert).1.receivedWeight cert.view cert.hash =
        votes.receivedWeight cert.view cert.hash + weightAt weights cert.signer ∧
      (countVote crypto weights votes cert).2 =
        if weightThreshold weights ≤
            votes.receivedWeight cert.view cert.hash + weightAt weights cert.signer then
          some (formQC (votes.receive.insert cert) cert)
        else none := by
  have sum : (votes.add cert (weightAt weights cert.signer)).receivedWeight cert.view cert.hash =
      votes.receivedWeight cert.view cert.hash + weightAt weights cert.signer := by
    simp [Votes.add]
  have stored : (votes.add cert (weightAt weights cert.signer)).receive cert.view cert.hash =
      insertSigner (votes.receive cert.view cert.hash) cert := by
    simp [Votes.add, VoteStore.insert]
  simp only [countVote, ok, if_true, sum]
  split_ifs with reached
  · exact ⟨(close_receive_own _).trans stored, (close_receivedWeight_own _).trans sum, rfl⟩
  · exact ⟨stored, sum, rfl⟩

theorem countVote_isSome_iff : (countVote crypto weights votes cert).2.isSome = true ↔
    votes.receivedWeight cert.view cert.hash < weightThreshold weights ∧
      weightThreshold weights ≤
        (countVote crypto weights votes cert).1.receivedWeight cert.view cert.hash := by
  cases ok : admits crypto weights votes cert with
  | false =>
      rw [countVote_of_not_admits ok]
      simp
  | true =>
      obtain ⟨-, sum, formed⟩ := countVote_of_admits ok
      have below := (admits_iff.mp ok).2.2.2.2.1
      rw [sum, formed]
      split_ifs with reached <;> simp [below, reached]

theorem below_of_none (ok : admits crypto weights votes cert = true)
    (waiting : (countVote crypto weights votes cert).2 = none) :
    votes.receivedWeight cert.view cert.hash + weightAt weights cert.signer <
      weightThreshold weights := by
  have formed := (countVote_of_admits ok).2.2
  rw [waiting] at formed
  by_contra reached
  rw [if_pos (Nat.le_of_not_lt reached)] at formed
  cases formed

theorem floor_lt_of_admits (ok : admits crypto weights votes cert = true) :
    votes.floor < toLex (asUInt64 cert.view, asUInt64 cert.slot) :=
  isStale_eq_false_iff.mp (admits_iff.mp ok).2.1

theorem minView_le_of_admits (ok : admits crypto weights votes cert = true) :
    votes.minView ≤ asUInt64 cert.view := by
  rcases position_lt.mp (floor_lt_of_admits ok) with below | same
  · exact below.le
  · exact same.1.le

theorem verifyQC_of_valid {qc : QC}
    (valid : ∀ s ∈ qc.signatures, crypto.verifyMessage qc.hash s = true)
    (enough : minSigs weights ≤ qc.signatures.length) : verifyQC crypto weights qc = true := by
  rw [verifyQC, if_pos (List.all_eq_true.mpr valid), if_neg (Nat.not_lt.mpr enough)]

theorem minSigs_le {certs : List Certificate}
    (heavy : weightThreshold weights ≤ (certs.map (fun c => weightAt weights c.signer)).sum) :
    minSigs weights ≤ certs.length := by
  have bound : (certs.map (fun c => weightAt weights c.signer)).sum ≤
      certs.length * maxWeight weights := by
    have each : ∀ w ∈ certs.map (fun c => weightAt weights c.signer), w ≤ maxWeight weights := by
      intro w member
      obtain ⟨c, -, rfl⟩ := List.mem_map.mp member
      exact weightAt_le_of_forall (fun w inside => le_maxWeight inside) c.signer
    simpa using List.sum_le_card_nsmul _ _ each
  have positive := one_le_maxWeight weights
  rw [minSigs, ← Nat.lt_succ_iff, Nat.div_lt_iff_lt_mul positive, Nat.succ_mul]
  omega

end Calls

/-! ### Runs -/

def Collector.run (crypto : Crypto) (weights : List ℕ) (certs : List Certificate) : Collector :=
  certs.foldl (Collector.receive crypto weights) {}

/-- What holds after every run. A view and hash whose tally is full have their certificate.
The tally of a certificate stays full until its view is erased, and then the view is stale. -/
structure Collector.Exact (crypto : Crypto) (weights : List ℕ) (c : Collector) : Prop where
  tallied : c.votes.Tallied weights
  valid : ∀ v h, ∀ x ∈ c.votes.receive v h, crypto.verifyMessage h x.sign = true
  reached : ∀ v h, weightThreshold weights ≤ c.votes.receivedWeight v h →
    ∃ qc ∈ c.formed, qc.view = v ∧ qc.hash = h
  closed : ∀ qc ∈ c.formed, weightThreshold weights ≤ c.votes.receivedWeight qc.view qc.hash ∨
    asUInt64 qc.view < c.votes.minView
  once : (c.formed.map (fun qc => (qc.view, qc.hash))).Nodup
  verified : ∀ qc ∈ c.formed, verifyQC crypto weights qc = true

namespace Collector
variable {crypto : Crypto} {weights : List ℕ} {c : Collector} {cert : Certificate}

theorem run_concat (certs : List Certificate) (cert : Certificate) :
    run crypto weights (certs ++ [cert]) =
      (run crypto weights certs).receive crypto weights cert := List.foldl_concat ..

theorem Exact.empty : Exact crypto weights {} where
  tallied := ⟨fun _ _ => List.nodup_nil, fun _ _ => rfl⟩
  valid _ _ _ member := absurd member List.not_mem_nil
  reached _ _ full := absurd full (by simp [weightThreshold])
  closed _ member := absurd member List.not_mem_nil
  once := List.nodup_nil
  verified _ member := absurd member List.not_mem_nil

theorem Exact.fresh (exact : Exact crypto weights c)
    (ok : admits crypto weights c.votes cert = true) :
    ∀ qc ∈ c.formed, ¬(qc.view = cert.view ∧ qc.hash = cert.hash) := by
  rintro qc member ⟨view, hash⟩
  have below := (admits_iff.mp ok).2.2.2.2.1
  have current := minView_le_of_admits ok
  rcases exact.closed qc member with full | stale
  · rw [view, hash] at full
    omega
  · rw [view] at stale
    omega

theorem Exact.add (exact : Exact crypto weights c)
    (ok : admits crypto weights c.votes cert = true) :
    (c.votes.add cert (weightAt weights cert.signer)).Tallied weights ∧
      ∀ v h, ∀ x ∈ (c.votes.add cert (weightAt weights cert.signer)).receive v h,
        crypto.verifyMessage h x.sign = true := by
  obtain ⟨-, -, -, valid, -, fresh⟩ := admits_iff.mp ok
  refine ⟨exact.tallied.add fresh, ?_⟩
  intro v h x member
  rcases VoteStore.mem_insert member with ⟨-, rfl, rfl⟩ | old
  · exact valid
  · exact exact.valid v h x old

theorem Exact.waiting (exact : Exact crypto weights c)
    (ok : admits crypto weights c.votes cert = true)
    (below : c.votes.receivedWeight cert.view cert.hash + weightAt weights cert.signer <
      weightThreshold weights) :
    Exact crypto weights { c with votes := c.votes.add cert (weightAt weights cert.signer) } where
  tallied := (exact.add ok).1
  valid := (exact.add ok).2
  reached v h full := by
    simp only [Votes.add] at full
    split_ifs at full with own
    · obtain ⟨rfl, rfl⟩ := own
      omega
    · exact exact.reached v h full
  closed qc member := by
    have other : ¬(qc.view = cert.view ∧ qc.hash = cert.hash) := exact.fresh ok qc member
    simp only [Votes.add, if_neg other]
    exact exact.closed qc member
  once := exact.once
  verified := exact.verified

theorem Exact.verifyQC_formQC (exact : Exact crypto weights c)
    (ok : admits crypto weights c.votes cert = true)
    (reached : weightThreshold weights ≤
      c.votes.receivedWeight cert.view cert.hash + weightAt weights cert.signer) :
    verifyQC crypto weights
      (formQC (c.votes.add cert (weightAt weights cert.signer)).receive cert) = true := by
  obtain ⟨tallied, valid⟩ := exact.add ok
  have sum : (c.votes.add cert (weightAt weights cert.signer)).receivedWeight cert.view cert.hash =
      c.votes.receivedWeight cert.view cert.hash + weightAt weights cert.signer := by
    simp [Votes.add]
  rw [← sum, tallied.tally] at reached
  have enough := minSigs_le reached
  refine verifyQC_of_valid ?_ (by simpa [formQC] using enough)
  intro sign member
  obtain ⟨x, stored, rfl⟩ := List.mem_map.mp member
  exact valid _ _ x stored

theorem Exact.forming (exact : Exact crypto weights c)
    (ok : admits crypto weights c.votes cert = true)
    (reached : weightThreshold weights ≤
      c.votes.receivedWeight cert.view cert.hash + weightAt weights cert.signer) :
    Exact crypto weights
      { votes := (c.votes.add cert (weightAt weights cert.signer)).close cert
        formed := c.formed ++
          [formQC (c.votes.add cert (weightAt weights cert.signer)).receive cert] } where
  tallied := (exact.add ok).1.close cert
  valid v h x member := by
    simp only [Votes.close] at member
    split_ifs at member
    · cases member
    · exact (exact.add ok).2 v h x member
  reached v h full := by
    simp only [List.mem_append, List.mem_singleton]
    by_cases own : v = cert.view ∧ h = cert.hash
    · exact ⟨_, .inr rfl, own.1.symm, own.2.symm⟩
    · simp only [Votes.close, Votes.add, if_neg own] at full
      split_ifs at full with erased
      · exact absurd full (by simp [weightThreshold])
      · obtain ⟨qc, member, names⟩ := exact.reached v h full
        exact ⟨qc, .inl member, names⟩
  closed qc member := by
    have current := minView_le_of_admits ok
    rcases List.mem_append.mp member with old | new
    · have other : ¬(qc.view = cert.view ∧ qc.hash = cert.hash) := exact.fresh ok qc old
      simp only [Votes.close, Votes.add, if_neg other]
      rcases exact.closed qc old with full | stale
      · -- the only views that lose their votes are two below the new floor
        split_ifs with erased
        · right
          rw [asUInt64_of_nonneg (by omega), asUInt64_of_nonneg (by omega)]
          omega
        · exact .inl full
      · exact .inr (stale.trans_le current)
    · left
      rw [List.mem_singleton.mp new]
      show weightThreshold weights ≤ (Votes.close _ cert).receivedWeight cert.view cert.hash
      rw [close_receivedWeight_own]
      simpa [Votes.add] using reached
  once := by
    rw [List.map_append, List.nodup_append]
    refine ⟨exact.once, List.nodup_singleton _, ?_⟩
    intro a old b new same
    obtain ⟨qc, member, rfl⟩ := List.mem_map.mp old
    rw [List.map_singleton, List.mem_singleton] at new
    rw [new] at same
    exact exact.fresh ok qc member (Prod.mk.inj same)
  verified qc member := by
    rcases List.mem_append.mp member with old | new
    · exact exact.verified qc old
    · rw [List.mem_singleton.mp new]
      exact exact.verifyQC_formQC ok reached

theorem Exact.receive (exact : Exact crypto weights c) (cert : Certificate) :
    Exact crypto weights (c.receive crypto weights cert) := by
  rcases countVote_cases crypto weights c.votes cert with same | ⟨ok, counted | ⟨reached, formed⟩⟩
  · simp only [Collector.receive, same, Option.toList_none, List.append_nil]
    exact exact
  · have below := below_of_none ok (congrArg Prod.snd counted)
    simp only [Collector.receive, counted, Option.toList_none, List.append_nil]
    exact exact.waiting ok below
  · simp only [Collector.receive, formed, Option.toList_some]
    exact exact.forming ok reached

theorem exact_run (crypto : Crypto) (weights : List ℕ) (certs : List Certificate) :
    Exact crypto weights (run crypto weights certs) :=
  List.foldlRecOn certs _ Exact.empty (fun _ exact cert _ => exact.receive cert)

theorem stored_of_isSome {votes : Votes}
    (formed : (countVote crypto weights votes cert).2.isSome = true) :
    cert ∈ (countVote crypto weights votes cert).1.receive cert.view cert.hash := by
  cases ok : admits crypto weights votes cert with
  | false =>
      rw [countVote_of_not_admits ok] at formed
      cases formed
  | true =>
      rw [(countVote_of_admits ok).1]
      exact (insertSigner_perm (admits_iff.mp ok).2.2.2.2.2).mem_iff.mpr List.mem_cons_self

theorem formed_signatures {votes : Votes} {qc : QC}
    (formed : (countVote crypto weights votes cert).2 = some qc) :
    qc.view = cert.view ∧ qc.hash = cert.hash ∧ qc.signatures =
      ((countVote crypto weights votes cert).1.receive cert.view cert.hash).map
        Certificate.sign := by
  cases ok : admits crypto weights votes cert with
  | false =>
      rw [countVote_of_not_admits ok] at formed
      cases formed
  | true =>
      obtain ⟨stored, -, result⟩ := countVote_of_admits ok
      rw [result] at formed
      split_ifs at formed
      cases formed
      refine ⟨rfl, rfl, ?_⟩
      rw [stored]
      simp [formQC, VoteStore.insert]

end Collector

/-- After every run of calls, each tally is the weight of the distinct signers stored for its
view and hash, and no view and hash have had two certificates. The next call makes one exactly
when its vote is stored and lifts the tally over the threshold, with the signatures of all
the votes stored there. -/
theorem vote_accounting_exact (crypto : Crypto) (weights : List ℕ) (certs : List Certificate) :
    (∀ view hash,
      (((Collector.run crypto weights certs).votes.receive view hash).map
        Certificate.signer).Nodup ∧
      (Collector.run crypto weights certs).votes.receivedWeight view hash =
        weight (weightAt weights) (((Collector.run crypto weights certs).votes.receive
          view hash).map Certificate.signer).toFinset) ∧
    ((Collector.run crypto weights certs).formed.map (fun qc => (qc.view, qc.hash))).Nodup ∧
    ∀ cert,
      ((countVote crypto weights (Collector.run crypto weights certs).votes cert).2.isSome = true ↔
        cert ∈ (countVote crypto weights (Collector.run crypto weights certs).votes
          cert).1.receive cert.view cert.hash ∧
        (Collector.run crypto weights certs).votes.receivedWeight cert.view cert.hash <
          weightThreshold weights ∧
        weightThreshold weights ≤ (countVote crypto weights
          (Collector.run crypto weights certs).votes cert).1.receivedWeight
            cert.view cert.hash) ∧
      ∀ qc, (countVote crypto weights (Collector.run crypto weights certs).votes cert).2 =
          some qc →
        qc.view = cert.view ∧ qc.hash = cert.hash ∧
          qc.signatures = ((countVote crypto weights (Collector.run crypto weights certs).votes
            cert).1.receive cert.view cert.hash).map Certificate.sign := by
  have exact := Collector.exact_run crypto weights certs
  refine ⟨fun view hash => ⟨exact.tallied.distinct view hash, ?_⟩, exact.once, fun cert => ⟨?_, ?_⟩⟩
  · exact exact.tallied.weight_signers view hash
  · constructor
    · intro formed
      exact ⟨Collector.stored_of_isSome formed, countVote_isSome_iff.mp formed⟩
    · rintro ⟨-, crossing⟩
      exact countVote_isSome_iff.mpr crossing
  · intro qc formed
    exact Collector.formed_signatures formed

theorem third_vote_completes :
    (countVote Crypto.sample (buildWeights 4) (Collector.run Crypto.sample (buildWeights 4)
        [voteOf 1 1, voteOf 2 2]).votes (voteOf 3 3)).2.isSome = true ∧
      weightThreshold (buildWeights 4) ≤ (countVote Crypto.sample (buildWeights 4)
        (Collector.run Crypto.sample (buildWeights 4) [voteOf 1 1, voteOf 2 2]).votes
          (voteOf 3 3)).1.receivedWeight 1 [7] := by
  have exact := vote_accounting_exact Crypto.sample (buildWeights 4) [voteOf 1 1, voteOf 2 2]
  have formed : (countVote Crypto.sample (buildWeights 4) (Collector.run Crypto.sample
      (buildWeights 4) [voteOf 1 1, voteOf 2 2]).votes (voteOf 3 3)).2.isSome = true := by decide
  exact ⟨formed, (((exact.2.2 (voteOf 3 3)).1).mp formed).2.2⟩

/-- Every certificate that `ReceiveCertificate` builds passes `VerifyQC` under the same
weights. -/
theorem formed_passes_verifyQC (crypto : Crypto) (weights : List ℕ) (certs : List Certificate) :
    ∀ qc ∈ (Collector.run crypto weights certs).formed, verifyQC crypto weights qc = true :=
  (Collector.exact_run crypto weights certs).verified

theorem three_votes_pass_verifyQC :
    ((Collector.run Crypto.sample (buildWeights 4)
        (([1, 2, 3] : List Int).map (fun i => voteOf i i))).formed.map QC.view) = [1] ∧
      ∀ qc ∈ (Collector.run Crypto.sample (buildWeights 4)
          (([1, 2, 3] : List Int).map (fun i => voteOf i i))).formed,
        verifyQC Crypto.sample (buildWeights 4) qc = true :=
  ⟨by decide, formed_passes_verifyQC Crypto.sample (buildWeights 4) _⟩

end ResDB.TdHotstuff
