import Mathlib.Tactic
import ResDB.HotStuff.Chained
import ResDB.HotStuff.VoteStore

/-! One replica of a protocol without slots. `HotStuff`, `HotStuff1` and `HotStuff2` share
the bodies of their handlers; what they fill in are the fields of `ViewProtocol`. A handler
call is one state transition that returns what it sends. -/
namespace ResDB.HotStuff

/-- `rollbackNum` belongs to HotStuff-1 and is 0 elsewhere. The member `crash_num_` of all
three starts at 0 and is never set. -/
structure ViewProtocol where
  crypto : Crypto
  codec : Codec
  totalNum : ℕ
  f : ℕ
  rollbackNum : Int
  crashNum : ℕ
  commitFrom : (Bytes → Option Proposal) → Proposal → Proposal → Option Bytes
  addQC : Int → ProposalManager → QC → ProposalManager

/-- `formedQC` is the certificate that waits for the proposal it belongs to, while
`qcFormed` is set. -/
structure ViewReplica where
  manager : ProposalManager := {}
  votes : VoteStore := fun _ _ => []
  hasSent : Bool := false
  qcFormed : Bool := false
  proposalReceived : Bool := false
  formedQC : Option QC := none
  txns : List Transaction := []
  commitQ : List Proposal := []

def ViewReplica.receiveTransaction (r : ViewReplica) (id : Int) (now : ℕ) (txn : Transaction) :
    ViewReplica :=
  { r with txns := r.txns ++ [{ txn with receptionTime := now, proposer := id }] }

def ViewReplica.startNewRound (r : ViewReplica) : ViewReplica := { r with hasSent := false }

namespace ViewProtocol
variable (P : ViewProtocol)

def getLeader (view : Int) : Int := roundRobin P.totalNum view

def nextLeader (view : Int) : Int := P.getLeader (view + 1)

def isLeader (id view : Int) : Bool := P.getLeader view = id

/-- The replica seen through its proposals and certificates only. -/
def chained (id : Int) : ChainedProtocol where
  crypto := P.crypto
  codec := P.codec
  verifyQC := verifyCount P.crypto (2 * P.f + 1)
  safeNode := ProposalManager.newerThanLock
  addQC := P.addQC id
  addProposal := ProposalManager.addProposalWith P.commitFrom

def verify (m : ProposalManager) (p : Proposal) : Bool :=
  verifyWith P.crypto P.codec (m.newerThanLock p) (verifyCount P.crypto (2 * P.f + 1)) p

def generateCertificate (id : Int) (p : Proposal) : Certificate :=
  { hash := p.hash
    view := p.header.view
    signer := id
    sign := P.crypto.signMessage id p.hash }

/-- What both handlers do once a formed certificate and its proposal are there. -/
def addFormed (id : Int) (r : ViewReplica) (qc : QC) : ViewReplica :=
  { { r with manager := P.addQC id r.manager qc }.startNewRound with
    qcFormed := false
    proposalReceived := false }

/-- The certificate that `ReceiveCertificate` left behind, if any, is added. -/
def addParked (id : Int) (r : ViewReplica) : ViewReplica :=
  match r.qcFormed, r.formedQC with
  | true, some qc => { P.addFormed id r qc with formedQC := none }
  | _, _ => r

/-- The next leader notes that a proposal has arrived before it looks at it. -/
def noteProposal (id : Int) (r : ViewReplica) (p : Proposal) : ViewReplica :=
  if id = P.nextLeader p.header.view then { r with proposalReceived := true } else r

/-- The part of `ReceiveProposal` under the lock, for a proposal that `Verify` accepts. -/
def accepting (id : Int) (r : ViewReplica) (p : Proposal) : ViewReplica :=
  let r := P.noteProposal id r p
  let (manager, committed) := r.manager.addProposalWith P.commitFrom p
  P.addParked id { r with manager := manager, commitQ := r.commitQ ++ committed.reverse }

/-- `ReceiveProposal`. The vote goes to the next leader, and past a crashed one to the
leader after it. -/
def receiveProposal (id : Int) (r : ViewReplica) (p : Proposal) : ViewReplica × List Envelope :=
  if !P.verify r.manager p then (P.noteProposal id r p, [])
  else
    let cert := P.generateCertificate id p
    let r := P.accepting id r p
    let leader := P.getLeader (p.header.view + 1)
    let vote : Envelope := ⟨leader, .vote cert⟩
    if leader.tmod 3 = 1 ∧ leader ≤ 3 * P.crashNum then
      let afterNext := P.getLeader (p.header.view + 2)
      let r := if id = afterNext then { r with proposalReceived := true } else r
      (r, [vote, ⟨afterNext, .vote { cert with view := p.header.view + 1 }⟩])
    else (r, [vote])

/-- The certificate over what is stored for a view and a hash. -/
def quorum (votes : VoteStore) (view : Int) (hash : Bytes) : QC :=
  { hash := hash, view := view, signatures := (votes view hash).map Certificate.sign }

/-- `ReceiveCertificate`. A certificate is formed whenever exactly `2 f + 1` votes are
stored, after a repeated vote as well. An invalid vote is dropped. -/
def receiveCertificate (id : Int) (r : ViewReplica) (cert : Certificate) : ViewReplica :=
  if id.tmod 3 = 1 ∧ id ≤ 3 * P.crashNum then r
  else if !P.crypto.verifyMessage cert.hash cert.sign then r
  else
    let votes := r.votes.insert cert
    let r := { r with votes := votes }
    if (votes cert.view cert.hash).length = 2 * P.f + 1 then
      let qc := quorum votes cert.view cert.hash
      let r := { r with qcFormed := true }
      if r.proposalReceived then P.addFormed id r qc else { r with formedQC := some qc }
    else r

def Ready (id : Int) (r : ViewReplica) : Bool := P.isLeader id r.manager.round && !r.hasSent

def broadcast (p : Proposal) : List Envelope :=
  (List.range P.totalNum).map (fun k => ⟨(k : Int) + 1, .newProposal p⟩)

/-- The rollback attack sends the second proposal to every third replica. -/
def splitBroadcast (p fake : Proposal) : List Envelope :=
  (List.range P.totalNum).map (fun k =>
    let i : Int := k + 1
    ⟨i, .newProposal (if i % 3 = 0 ∧ i ≤ 3 * P.f then fake else p)⟩)

def generateProposal (id : Int) (m : ProposalManager) (txns : List Transaction) (now : ℕ) :
    Proposal :=
  generateWith P.crypto P.codec id m.round m.genericQC txns 0 false now

def generateFakeProposal (id : Int) (m : ProposalManager) (txns : List Transaction) (now : ℕ) :
    Proposal :=
  generateWith P.crypto P.codec id m.round m.fakeGenericQC txns 0 false now

/-- One iteration of `AsyncSend`: `none` while the replica is not ready or has no
transaction. The batch size is 1. The result lists the proposals it made and the envelopes
it sent. -/
def asyncSend (id : Int) (r : ViewReplica) (now : ℕ) :
    Option (ViewReplica × List Proposal × List Envelope) :=
  if !P.Ready id r then none
  else match r.txns with
    | [] => none
    | txn :: rest =>
        let p := P.generateProposal id r.manager [txn] now
        let sent := { r with txns := rest, hasSent := true }
        if id < 3 * P.rollbackNum ∧ id.tmod 3 = 1 then
          let fake := P.generateFakeProposal id r.manager [txn] now
          some (sent, [p, fake], P.splitBroadcast p fake)
        else some (sent, [p], P.broadcast p)

/-- `AddQC` without the attacks: a newer certificate is stored and its successor view
entered. -/
def adoptRound (m : ProposalManager) (qc : QC) : ProposalManager :=
  if m.genericQC.view = 0 ∨ m.genericQC.view < qc.view then
    { m with genericQC := qc, round := qc.view + 1 }
  else m

/-- The replicas run without the built-in attacks and crashes. -/
structure Calm : Prop where
  rollback : P.rollbackNum = 0
  crash : P.crashNum = 0
  adopt : ∀ id m qc, P.addQC id m qc = adoptRound m qc

theorem tmod_three_ne_one {x : Int} (nonpos : x ≤ 0) : x.tmod 3 ≠ 1 := by
  have flipped := Int.tmod_nonneg 3 (show 0 ≤ -x by omega)
  rw [Int.neg_tmod] at flipped
  omega

theorem addQCByView_calm (getLeader : Int → Int) (m : ProposalManager) (qc : QC) :
    ProposalManager.addQCByView getLeader 0 m qc = adoptRound m qc := by
  have loyal : ¬(getLeader qc.view < 3 * 0 ∧ (getLeader qc.view).tmod 3 = 1) := by
    rintro ⟨small, residue⟩
    exact tmod_three_ne_one (by omega) residue
  simp only [ProposalManager.addQCByView, adoptRound, loyal, not_false_eq_true, if_true]

@[simp] theorem adoptRound_localBlock (m : ProposalManager) (qc : QC) :
    (adoptRound m qc).localBlock = m.localBlock := by
  unfold adoptRound
  split_ifs <;> rfl

@[simp] theorem adoptRound_lockQC (m : ProposalManager) (qc : QC) :
    (adoptRound m qc).lockQC = m.lockQC := by
  unfold adoptRound
  split_ifs <;> rfl

theorem adoptRound_generic (m : ProposalManager) (qc : QC) :
    (adoptRound m qc).genericQC = qc ∨ (adoptRound m qc).genericQC = m.genericQC := by
  unfold adoptRound
  split_ifs
  · exact .inl rfl
  · exact .inr rfl

section Handlers
variable {P} {id : Int} {r : ViewReplica}

theorem noteProposal_eq (id : Int) (r : ViewReplica) (p : Proposal) :
    ∃ arrived, P.noteProposal id r p = { r with proposalReceived := arrived } := by
  unfold noteProposal
  split_ifs
  · exact ⟨true, rfl⟩
  · exact ⟨r.proposalReceived, rfl⟩

theorem accepting_unparked (id : Int) (p : Proposal) (free : r.qcFormed = false) :
    ∃ arrived, P.accepting id r p =
      { r with
        manager := (r.manager.addProposalWith P.commitFrom p).1
        commitQ := r.commitQ ++ (r.manager.addProposalWith P.commitFrom p).2.reverse
        proposalReceived := arrived } := by
  obtain ⟨arrived, noted⟩ := noteProposal_eq (P := P) id r p
  refine ⟨arrived, ?_⟩
  simp only [accepting, noted, addParked, free]

theorem accepting_parked (id : Int) (p : Proposal) (formed : r.qcFormed = true) {qc : QC}
    (waiting : r.formedQC = some qc) :
    P.accepting id r p =
      { r with
        manager := P.addQC id (r.manager.addProposalWith P.commitFrom p).1 qc
        commitQ := r.commitQ ++ (r.manager.addProposalWith P.commitFrom p).2.reverse
        hasSent := false
        qcFormed := false
        proposalReceived := false
        formedQC := none } := by
  obtain ⟨arrived, noted⟩ := noteProposal_eq (P := P) id r p
  simp only [accepting, noted, addParked, formed, waiting, addFormed, ViewReplica.startNewRound]

structure Accepted (P : ViewProtocol) (r : ViewReplica) (p : Proposal) (r' : ViewReplica) :
    Prop where
  blocks : r'.manager.localBlock = (r.manager.addProposalWith P.commitFrom p).1.localBlock
  lock : r'.manager.lockQC = (r.manager.addProposalWith P.commitFrom p).1.lockQC
  commits : r'.commitQ = r.commitQ ++ (r.manager.addProposalWith P.commitFrom p).2.reverse
  votes : r'.votes = r.votes
  generic : r'.manager.genericQC = r.manager.genericQC ∨ r'.manager.genericQC = p.header.qc ∨
    r.formedQC = some r'.manager.genericQC
  parked : r'.formedQC = r.formedQC ∨ r'.formedQC = none

theorem accepting_accepted (calm : P.Calm) (id : Int) (r : ViewReplica) (p : Proposal) :
    Accepted P r p (P.accepting id r p) := by
  have generic : (r.manager.addProposalWith P.commitFrom p).1.genericQC = r.manager.genericQC ∨
      (r.manager.addProposalWith P.commitFrom p).1.genericQC = p.header.qc := by
    rw [ProposalManager.addProposalWith_generic]
    split_ifs
    · exact .inr rfl
    · exact .inl rfl
  obtain ⟨arrived, noted⟩ := noteProposal_eq (P := P) id r p
  simp only [accepting, noted, addParked]
  split
  · rename_i qc _ waiting
    simp only [addFormed, calm.adopt, ViewReplica.startNewRound]
    refine ⟨adoptRound_localBlock _ qc, adoptRound_lockQC _ qc, rfl, rfl, ?_, .inr rfl⟩
    rcases adoptRound_generic (r.manager.addProposalWith P.commitFrom p).1 qc with new | old
    · refine .inr (.inr ?_)
      rw [new]
      exact waiting
    · rw [old]
      exact generic.imp_right .inl
  · exact ⟨rfl, rfl, rfl, rfl, generic.imp_right .inl, .inl rfl⟩

structure SameBlocks (r r' : ViewReplica) : Prop where
  blocks : r'.manager.localBlock = r.manager.localBlock
  lock : r'.manager.lockQC = r.manager.lockQC
  commits : r'.commitQ = r.commitQ

theorem receiveProposal_refused {p : Proposal} (refuse : P.verify r.manager p = false) :
    P.receiveProposal id r p = (P.noteProposal id r p, []) := by
  rw [receiveProposal, refuse]
  rfl

theorem receiveProposal_accepted (calm : P.Calm) {p : Proposal}
    (accept : P.verify r.manager p = true) :
    P.receiveProposal id r p =
      (P.accepting id r p,
        [⟨P.nextLeader p.header.view, .vote (P.generateCertificate id p)⟩]) := by
  have alive : ¬((P.getLeader (p.header.view + 1)).tmod 3 = 1 ∧
      P.getLeader (p.header.view + 1) ≤ 3 * P.crashNum) := by
    rw [calm.crash]
    rintro ⟨residue, small⟩
    exact tmod_three_ne_one small residue
  simp only [receiveProposal, accept, Bool.not_true, Bool.false_eq_true, if_false, if_neg alive]
  rfl

theorem asyncSend_some (calm : P.Calm) {r' : ViewReplica} {now : ℕ} {made : List Proposal}
    {sent : List Envelope} (iteration : P.asyncSend id r now = some (r', made, sent)) :
    P.Ready id r = true ∧ ∃ txn rest,
      made = [P.generateProposal id r.manager [txn] now] ∧
      sent = P.broadcast (P.generateProposal id r.manager [txn] now) ∧
      r' = { r with txns := rest, hasSent := true } := by
  unfold asyncSend at iteration
  cases ready : P.Ready id r with
  | false => simp [ready] at iteration
  | true =>
      simp only [ready, Bool.not_true, Bool.false_eq_true, if_false] at iteration
      split at iteration
      · cases iteration
      · rename_i txn rest _
        have single : ¬(id < 3 * P.rollbackNum ∧ id.tmod 3 = 1) := by
          rw [calm.rollback]
          rintro ⟨small, residue⟩
          exact tmod_three_ne_one (by omega) residue
        rw [if_neg single, Option.some.injEq, Prod.mk.injEq, Prod.mk.injEq] at iteration
        exact ⟨rfl, txn, rest, iteration.2.1.symm, iteration.2.2.symm, iteration.1.symm⟩

theorem mem_broadcast {p : Proposal} {e : Envelope} (member : e ∈ P.broadcast p) :
    e.message = .newProposal p := by
  obtain ⟨k, -, rfl⟩ := List.mem_map.mp member
  rfl

/-- What a vote can do: it is dropped, it is counted, or it completes a certificate, which
is then added at once or parked. -/
inductive Voted (P : ViewProtocol) (id : Int) (r : ViewReplica) (cert : Certificate) :
    ViewReplica → Prop where
  | dropped : Voted P id r cert r
  | counted (valid : P.crypto.verifyMessage cert.hash cert.sign = true)
      (waiting : (r.votes.insert cert cert.view cert.hash).length ≠ 2 * P.f + 1) :
      Voted P id r cert { r with votes := r.votes.insert cert }
  | added (valid : P.crypto.verifyMessage cert.hash cert.sign = true)
      (complete : (r.votes.insert cert cert.view cert.hash).length = 2 * P.f + 1)
      (arrived : r.proposalReceived = true) :
      Voted P id r cert (P.addFormed id { r with votes := r.votes.insert cert, qcFormed := true }
        (quorum (r.votes.insert cert) cert.view cert.hash))
  | parked (valid : P.crypto.verifyMessage cert.hash cert.sign = true)
      (complete : (r.votes.insert cert cert.view cert.hash).length = 2 * P.f + 1)
      (missing : r.proposalReceived = false) :
      Voted P id r cert { r with
        votes := r.votes.insert cert
        qcFormed := true
        formedQC := some (quorum (r.votes.insert cert) cert.view cert.hash) }

theorem receiveCertificate_voted (id : Int) (r : ViewReplica) (cert : Certificate) :
    Voted P id r cert (P.receiveCertificate id r cert) := by
  simp only [receiveCertificate]
  split_ifs with crashed invalid complete arrived
  · exact .dropped
  · exact .dropped
  · exact .added (by simpa using invalid) complete arrived
  · exact .parked (by simpa using invalid) complete (by simpa using arrived)
  · exact .counted (by simpa using invalid) complete

theorem Voted.sameBlocks (calm : P.Calm) {r' : ViewReplica} {cert : Certificate}
    (voted : Voted P id r cert r') : SameBlocks r r' := by
  cases voted with
  | dropped => exact ⟨rfl, rfl, rfl⟩
  | counted _ _ => exact ⟨rfl, rfl, rfl⟩
  | added _ _ _ =>
      simp only [addFormed, calm.adopt, ViewReplica.startNewRound]
      exact ⟨adoptRound_localBlock _ _, adoptRound_lockQC _ _, rfl⟩
  | parked _ _ _ => exact ⟨rfl, rfl, rfl⟩

end Handlers
end ViewProtocol
end ResDB.HotStuff
