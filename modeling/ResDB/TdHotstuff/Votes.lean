import Mathlib.Tactic
import ResDB.HotStuff.VoteStore
import ResDB.TdHotstuff.Weights

/-! `TdHotstuff::ReceiveCertificate` up to the quorum certificate it may form: the
stale-vote filter, the signature check, the weight accumulation per view and hash, and
the garbage collection. Each call runs to its end before the next one starts. -/
namespace ResDB.TdHotstuff
open WeightedQuorum HotStuff

/-- The members `ReceiveCertificate` reads and writes. An entry absent from
`received_weight_` reads as 0, below every threshold. -/
structure Votes where
  receive : VoteStore := fun _ _ => []
  receivedWeight : Int → Bytes → ℕ := fun _ _ => 0
  minView : Int := 0
  minSlot : Int := 0
  qcDone : Finset Int := ∅

namespace Votes

def doneKey (view slot : Int) : Int := view * 100000 + slot

def add (votes : Votes) (cert : Certificate) (signerWeight : ℕ) : Votes :=
  { votes with
    receive := votes.receive.insert cert
    receivedWeight := fun v h =>
      if v = cert.view ∧ h = cert.hash then votes.receivedWeight v h + signerWeight
      else votes.receivedWeight v h }

/-- What a formed certificate leaves behind: the new floor, the done mark, and the
erased entries of two views ago. -/
def close (votes : Votes) (cert : Certificate) : Votes :=
  let done := insert (doneKey cert.view cert.slot) votes.qcDone
  { receive := fun v h => if 2 < cert.view ∧ v = cert.view - 2 then [] else votes.receive v h
    receivedWeight := fun v h =>
      if 2 < cert.view ∧ v = cert.view - 2 then 0 else votes.receivedWeight v h
    minView := asUInt64 cert.view
    minSlot := asUInt64 cert.slot
    qcDone :=
      if 2 < cert.view then done.filter (fun key => ¬ key < (cert.view - 2) * 100000) else done }

def floor (votes : Votes) : Position := toLex (votes.minView, votes.minSlot)

end Votes

/-- The early returns of `ReceiveCertificate`, in their order. A signature that does
not verify runs into `assert(1==0)`, after which the call has no effect either. -/
def admits (crypto : Crypto) (weights : List ℕ) (votes : Votes) (cert : Certificate) : Bool :=
  if ¬(1 ≤ cert.signer ∧ cert.signer ≤ weights.length) then false
  else if isStale votes.minView votes.minSlot cert then false
  else if Votes.doneKey cert.view cert.slot ∈ votes.qcDone then false
  else if !crypto.verifyMessage cert.hash cert.sign then false
  else if weightThreshold weights ≤ votes.receivedWeight cert.view cert.hash then false
  else if (votes.receive cert.view cert.hash).any (fun c => c.signer = cert.signer) then false
  else true

def countVote (crypto : Crypto) (weights : List ℕ) (votes : Votes) (cert : Certificate) :
    Votes × Option QC :=
  if admits crypto weights votes cert then
    let counted := votes.add cert (weightAt weights cert.signer)
    if weightThreshold weights ≤ counted.receivedWeight cert.view cert.hash then
      (counted.close cert, some (formQC counted.receive cert))
    else (counted, none)
  else (votes, none)

theorem countVote_cases (crypto : Crypto) (weights : List ℕ) (votes : Votes)
    (cert : Certificate) :
    countVote crypto weights votes cert = (votes, none) ∨
      admits crypto weights votes cert = true ∧
        (countVote crypto weights votes cert =
            (votes.add cert (weightAt weights cert.signer), none) ∨
          weightThreshold weights ≤
              votes.receivedWeight cert.view cert.hash + weightAt weights cert.signer ∧
            countVote crypto weights votes cert =
              ((votes.add cert (weightAt weights cert.signer)).close cert,
                some (formQC (votes.add cert (weightAt weights cert.signer)).receive cert))) := by
  unfold countVote
  cases admits crypto weights votes cert with
  | false => exact .inl rfl
  | true =>
      refine .inr ⟨rfl, ?_⟩
      simp only [if_true]
      split_ifs with reached
      · refine .inr ⟨?_, rfl⟩
        simpa [Votes.add] using reached
      · exact .inl rfl

theorem any_signer_eq_false {certs : List Certificate} {signer : Int} :
    certs.any (fun c => c.signer = signer) = false ↔ ∀ c ∈ certs, c.signer ≠ signer := by
  simp [List.any_eq_false]

theorem admits_iff {crypto : Crypto} {weights : List ℕ} {votes : Votes} {cert : Certificate} :
    admits crypto weights votes cert = true ↔
      cert.signer ∈ replicas weights.length ∧ isStale votes.minView votes.minSlot cert = false ∧
        Votes.doneKey cert.view cert.slot ∉ votes.qcDone ∧
        crypto.verifyMessage cert.hash cert.sign = true ∧
        votes.receivedWeight cert.view cert.hash < weightThreshold weights ∧
        ∀ c ∈ votes.receive cert.view cert.hash, c.signer ≠ cert.signer := by
  rw [← any_signer_eq_false, mem_replicas]
  constructor
  · intro ok
    unfold admits at ok
    split_ifs at ok with unknown stale done forged full seen
    exact ⟨unknown, by simpa using stale, done, by simpa using forged, Nat.lt_of_not_le full,
      by simpa using seen⟩
  · rintro ⟨known, current, open', valid, below, unseen⟩
    simp [admits, known, current, open', valid, Nat.not_le_of_lt below, unseen]

theorem countVote_of_not_admits {crypto : Crypto} {weights : List ℕ} {votes : Votes}
    {cert : Certificate} (refused : admits crypto weights votes cert = false) :
    countVote crypto weights votes cert = (votes, none) := by
  simp [countVote, refused]

theorem countVote_stale {crypto : Crypto} {weights : List ℕ} {votes : Votes}
    {cert : Certificate} (view : 0 ≤ cert.view) (slot : 0 ≤ cert.slot)
    (below : cert.position ≤ votes.floor) :
    countVote crypto weights votes cert = (votes, none) := by
  apply countVote_of_not_admits
  unfold admits
  rw [if_pos (isStale_of_le view slot below)]
  exact ite_self false

theorem countVote_floor {crypto : Crypto} {weights : List ℕ} {votes votes' : Votes}
    {cert : Certificate} (waiting : countVote crypto weights votes cert = (votes', none)) :
    votes'.floor = votes.floor := by
  rcases countVote_cases crypto weights votes cert with same | ⟨-, counted | ⟨-, formed⟩⟩
  · rw [same] at waiting
    cases waiting
    rfl
  · rw [counted] at waiting
    cases waiting
    rfl
  · rw [formed] at waiting
    cases waiting

theorem countVote_fields {crypto : Crypto} {weights : List ℕ} {votes votes' : Votes}
    {cert : Certificate} {qc : QC}
    (formed : countVote crypto weights votes cert = (votes', some qc)) :
    qc.hash = cert.hash ∧ qc.view = cert.view ∧ qc.slot = cert.slot ∧
      qc.isFinal = cert.isFinal ∧
      votes'.floor = toLex (asUInt64 cert.view, asUInt64 cert.slot) := by
  rcases countVote_cases crypto weights votes cert with same | ⟨-, counted | ⟨-, closed⟩⟩
  · rw [same] at formed
    cases formed
  · rw [counted] at formed
    cases formed
  · rw [closed] at formed
    cases formed
    exact ⟨rfl, rfl, rfl, rfl, rfl⟩

theorem countVote_formed {crypto : Crypto} {weights : List ℕ} {votes votes' : Votes}
    {cert : Certificate} {qc : QC} (view : 0 ≤ cert.view) (slot : 0 ≤ cert.slot)
    (formed : countVote crypto weights votes cert = (votes', some qc)) :
    votes'.floor = cert.position ∧ qc.hash = cert.hash ∧ qc.view = cert.view ∧
      qc.slot = cert.slot ∧ qc.isFinal = cert.isFinal := by
  obtain ⟨hash, sameView, sameSlot, final, floor⟩ := countVote_fields formed
  refine ⟨?_, hash, sameView, sameSlot, final⟩
  rw [floor, asUInt64_of_nonneg view, asUInt64_of_nonneg slot]
  rfl

theorem countVote_receive {crypto : Crypto} {weights : List ℕ} {votes : Votes}
    {cert c : Certificate} {v : Int} {h : Bytes}
    (member : c ∈ (countVote crypto weights votes cert).1.receive v h) :
    (v = cert.view ∧ h = cert.hash ∧ c = cert) ∨ c ∈ votes.receive v h := by
  rcases countVote_cases crypto weights votes cert with same | ⟨-, counted | ⟨-, formed⟩⟩
  · rw [same] at member
    exact .inr member
  · rw [counted] at member
    exact VoteStore.mem_insert member
  · rw [formed] at member
    simp only [Votes.close] at member
    split_ifs at member
    · cases member
    · exact VoteStore.mem_insert member

theorem countVote_signatures {crypto : Crypto} {weights : List ℕ} {votes votes' : Votes}
    {cert : Certificate} {qc : QC}
    (formed : countVote crypto weights votes cert = (votes', some qc)) :
    qc.hash = cert.hash ∧ ∀ sign ∈ qc.signatures,
      sign = cert.sign ∨ ∃ c ∈ votes.receive cert.view cert.hash, sign = c.sign := by
  rcases countVote_cases crypto weights votes cert with same | ⟨-, counted | ⟨-, closed⟩⟩
  · rw [same] at formed
    cases formed
  · rw [counted] at formed
    cases formed
  · rw [closed] at formed
    cases formed
    refine ⟨rfl, ?_⟩
    intro sign member
    obtain ⟨c, stored, rfl⟩ := List.mem_map.mp member
    rcases VoteStore.mem_insert stored with ⟨-, -, rfl⟩ | old
    · exact .inl rfl
    · exact .inr ⟨c, old, rfl⟩

/-! ### Whose weight a certificate carries -/

/-- The collector over many calls, with the certificates it has formed so far. -/
structure Collector where
  votes : Votes := {}
  formed : List QC := []

def Collector.receive (crypto : Crypto) (weights : List ℕ) (c : Collector)
    (cert : Certificate) : Collector :=
  { votes := (countVote crypto weights c.votes cert).1
    formed := c.formed ++ (countVote crypto weights c.votes cert).2.toList }

/-- The tally of a view and hash is the weight of the declared signers stored for it,
each of them once. -/
structure Votes.Tallied (weights : List ℕ) (votes : Votes) : Prop where
  distinct : ∀ v h, ((votes.receive v h).map Certificate.signer).Nodup
  tally : ∀ v h, votes.receivedWeight v h =
    ((votes.receive v h).map (fun c => weightAt weights c.signer)).sum

def Votes.Genuine (signed : Bytes → Finset Int) (votes : Votes) : Prop :=
  ∀ v h, ∀ c ∈ votes.receive v h, c.signer ∈ signed h

section Authenticity
variable {weights : List ℕ} {votes : Votes} {cert : Certificate} {signed : Bytes → Finset Int}

theorem Votes.Tallied.add (tallied : votes.Tallied weights)
    (fresh : ∀ c ∈ votes.receive cert.view cert.hash, c.signer ≠ cert.signer) :
    (votes.add cert (weightAt weights cert.signer)).Tallied weights := by
  constructor
  · intro v h
    simp only [Votes.add, VoteStore.insert]
    split_ifs with here
    · obtain ⟨rfl, rfl⟩ := here
      have order := (insertSigner_perm fresh).map Certificate.signer
      rw [order.nodup_iff, List.map_cons, List.nodup_cons]
      refine ⟨?_, tallied.distinct _ _⟩
      intro member
      obtain ⟨c, stored, same⟩ := List.mem_map.mp member
      exact fresh c stored same
    · exact tallied.distinct v h
  · intro v h
    simp only [Votes.add, VoteStore.insert]
    split_ifs with here
    · obtain ⟨rfl, rfl⟩ := here
      have order := (insertSigner_perm fresh).map (fun c => weightAt weights c.signer)
      rw [order.sum_eq, List.map_cons, List.sum_cons, tallied.tally, add_comm]
    · exact tallied.tally v h

theorem Votes.Tallied.close (tallied : votes.Tallied weights) (cert : Certificate) :
    (votes.close cert).Tallied weights := by
  constructor
  · intro v h
    simp only [Votes.close]
    split_ifs
    · exact List.nodup_nil
    · exact tallied.distinct v h
  · intro v h
    simp only [Votes.close]
    split_ifs
    · rfl
    · exact tallied.tally v h

theorem Votes.Genuine.add (genuine : votes.Genuine signed) {w : ℕ}
    (own : cert.signer ∈ signed cert.hash) : (votes.add cert w).Genuine signed := by
  intro v h c member
  rcases VoteStore.mem_insert member with ⟨-, rfl, rfl⟩ | old
  · exact own
  · exact genuine v h c old

theorem Votes.Genuine.close (genuine : votes.Genuine signed) (cert : Certificate) :
    (votes.close cert).Genuine signed := by
  intro v h c member
  simp only [Votes.close] at member
  split_ifs at member
  · cases member
  · exact genuine v h c member

theorem Votes.Tallied.weight_signers (tallied : votes.Tallied weights) (v : Int) (h : Bytes) :
    votes.receivedWeight v h =
      weight (weightAt weights) ((votes.receive v h).map Certificate.signer).toFinset := by
  rw [weight, List.sum_toFinset _ (tallied.distinct v h), List.map_map]
  exact tallied.tally v h

theorem Votes.Tallied.le_weight (tallied : votes.Tallied weights)
    (genuine : votes.Genuine signed) (v : Int) (h : Bytes) :
    votes.receivedWeight v h ≤ weight (weightAt weights) (signed h) := by
  rw [tallied.weight_signers]
  apply weight_mono
  intro i member
  obtain ⟨c, stored, rfl⟩ := List.mem_map.mp (List.mem_toFinset.mp member)
  exact genuine v h c stored

/-- What the collector keeps while every counted vote is declared by its own signer. -/
structure Collector.Authentic (weights : List ℕ) (signed : Bytes → Finset Int)
    (c : Collector) : Prop where
  tallied : c.votes.Tallied weights
  genuine : c.votes.Genuine signed
  heavy : ∀ qc ∈ c.formed,
    weightThreshold weights ≤ weight (weightAt weights) (signed qc.hash)

theorem Collector.Authentic.receive {crypto : Crypto} {c : Collector}
    (auth : c.Authentic weights signed) (own : crypto.verifyMessage cert.hash cert.sign = true →
      cert.signer ∈ signed cert.hash) :
    (c.receive crypto weights cert).Authentic weights signed := by
  rcases countVote_cases crypto weights c.votes cert with same | ⟨ok, cases⟩
  · simp only [Collector.receive, same, Option.toList_none, List.append_nil]
    exact auth
  · obtain ⟨-, -, -, valid, -, fresh⟩ := admits_iff.mp ok
    have tallied := auth.tallied.add fresh
    have genuine := auth.genuine.add (w := weightAt weights cert.signer) (own valid)
    rcases cases with counted | ⟨reached, formed⟩
    · simp only [Collector.receive, counted, Option.toList_none, List.append_nil]
      exact ⟨tallied, genuine, auth.heavy⟩
    · simp only [Collector.receive, formed, Option.toList_some]
      refine ⟨tallied.close cert, genuine.close cert, ?_⟩
      intro qc member
      rcases List.mem_append.mp member with old | new
      · exact auth.heavy qc old
      · rw [List.mem_singleton.mp new]
        calc weightThreshold weights
            ≤ c.votes.receivedWeight cert.view cert.hash + weightAt weights cert.signer := reached
          _ = (c.votes.add cert (weightAt weights cert.signer)).receivedWeight
                cert.view cert.hash := by simp [Votes.add]
          _ ≤ weight (weightAt weights) (signed cert.hash) := tallied.le_weight genuine _ _

end Authenticity

/-- While each verifying vote declares the node whose key signed it, a certificate is
formed only when replicas of the threshold's weight signed its hash, and no tally exceeds
the weight of those that signed. -/
theorem formed_weight_authentic (crypto : Crypto) (weights : List ℕ)
    (signed : Bytes → Finset Int) (certs : List Certificate)
    (unforged : ∀ cert ∈ certs, crypto.verifyMessage cert.hash cert.sign = true →
      cert.sign.nodeId ∈ signed cert.hash)
    (declared : ∀ cert ∈ certs, crypto.verifyMessage cert.hash cert.sign = true →
      cert.signer = cert.sign.nodeId) :
    (∀ qc ∈ (certs.foldl (Collector.receive crypto weights) {}).formed,
      weightThreshold weights ≤ weight (weightAt weights) (signed qc.hash)) ∧
    ∀ view hash,
      (certs.foldl (Collector.receive crypto weights) {}).votes.receivedWeight view hash ≤
      weight (weightAt weights) (signed hash) := by
  have auth : (certs.foldl (Collector.receive crypto weights) {}).Authentic weights signed := by
    refine List.foldlRecOn certs _ ⟨⟨?_, ?_⟩, ?_, ?_⟩ ?_
    · exact fun _ _ => List.nodup_nil
    · exact fun _ _ => rfl
    · exact fun _ _ c member => absurd member List.not_mem_nil
    · exact fun qc member => absurd member List.not_mem_nil
    · intro c auth cert member
      apply auth.receive
      intro valid
      rw [declared cert member valid]
      exact unforged cert member valid
  exact ⟨auth.heavy, auth.tallied.le_weight auth.genuine⟩

/-- A vote for the hash 7 in view 1 under a declared signer. -/
def voteOf (signer signedBy : Int) : Certificate :=
  { hash := [7], view := 1, signer := signer, sign := Crypto.sample.signMessage signedBy [7] }

theorem formed_weight_authentic_three :
    ((([1, 2, 3] : List Int).map (fun i => voteOf i i)).foldl
        (Collector.receive Crypto.sample (buildWeights 4)) {}).formed.length = 1 ∧
      ∀ qc ∈ ((([1, 2, 3] : List Int).map (fun i => voteOf i i)).foldl
          (Collector.receive Crypto.sample (buildWeights 4)) {}).formed,
        7 ≤ weight (weightAt (buildWeights 4)) {1, 2, 3} :=
  ⟨by decide, (formed_weight_authentic Crypto.sample (buildWeights 4) (fun _ => {1, 2, 3}) _
    (by decide) (by decide)).1⟩

/-- Replica 4 alone signs, under three declared names, and a certificate is formed. -/
theorem declared_signers_form_certificate :
    (∀ cert ∈ ([1, 2, 3] : List Int).map (fun i => voteOf i 4),
      Crypto.sample.verifyMessage cert.hash cert.sign = true →
        cert.sign.nodeId ∈ ({4} : Finset Int)) ∧
    ∃ qc ∈ ((([1, 2, 3] : List Int).map (fun i => voteOf i 4)).foldl
        (Collector.receive Crypto.sample (buildWeights 4)) {}).formed,
      weight (weightAt (buildWeights 4)) {4} < weightThreshold (buildWeights 4) := by
  decide

end ResDB.TdHotstuff
