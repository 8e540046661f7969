import Mathlib.Tactic
import ResDB.HotStuff.ProposalManager

/-! One replica of a slotted protocol. `TdHotstuff` and `SlotHotStuff1` share the
bodies of their handlers; what they fill in differently are the fields of `SlotProtocol`.
A handler call is one state transition that returns what it sends. Delays, sleeps and
timers show up as the moment a transition is taken and as the outcome of the timer test. -/
namespace ResDB.HotStuff

/-- What a slotted protocol fixes for a whole deployment. `countVote` is the part of
`ReceiveCertificate` that ends with a quorum certificate or without one. -/
structure SlotProtocol where
  crypto : Crypto
  codec : Codec
  totalNum : ℕ
  f : ℕ
  forkTailNum : Int
  rollbackNum : Int
  getLeader : Int → Int
  nextLeader : Int → Int
  nextPrimary : Proposal → Int
  certWeight : Int → Int
  verifyQC : QC → Bool
  takeTransaction : Bool → List Transaction → Option (Transaction × List Transaction)
  Votes : Type
  noVotes : Votes
  countVote : Votes → Certificate → Votes × Option QC

structure SlotProtocol.NoAttack (P : SlotProtocol) : Prop where
  forkTail : P.forkTailNum = 0
  rollback : P.rollbackNum = 0

/-- What the vote counters of the slotted protocols have in common. `floor` is the
position below which votes are stale; a certificate is formed only for the vote that
completes it, takes its fields from that vote, and raises the floor to it. -/
structure SlotProtocol.Lawful (P : SlotProtocol) (floor : P.Votes → Position) : Prop where
  handover : ∀ view, P.nextLeader view = P.getLeader (view + 1)
  stale : ∀ votes (cert : Certificate), 0 ≤ cert.view → 0 ≤ cert.slot →
    cert.position ≤ floor votes → P.countVote votes cert = (votes, none)
  counting : ∀ votes cert votes', P.countVote votes cert = (votes', none) →
    floor votes' = floor votes
  forming : ∀ votes (cert : Certificate) votes' (qc : QC), 0 ≤ cert.view → 0 ≤ cert.slot →
    P.countVote votes cert = (votes', some qc) →
    floor votes' = cert.position ∧ qc.hash = cert.hash ∧ qc.view = cert.view ∧
      qc.slot = cert.slot ∧ qc.isFinal = cert.isFinal

/-- `slot` is the counter local to `AsyncSend`. The queue `commitQ` keeps what was
pushed, in order; `asyncCommit` reads it from the front. -/
structure Replica (P : SlotProtocol) where
  manager : ProposalManager := {}
  votes : P.Votes
  ready : Bool
  slot : Int := 0
  txns : List Transaction := []
  commitQ : List Proposal := []

namespace SlotProtocol
variable (P : SlotProtocol)

def isLeader (id view : Int) : Bool := P.getLeader view = id

def start (id : Int) : Replica P := { votes := P.noVotes, ready := P.isLeader id 1 }

def verify (m : ProposalManager) (p : Proposal) : Bool :=
  verifyWith P.crypto P.codec (m.safeNode p) P.verifyQC p

def addQC (id : Int) (m : ProposalManager) (qc : QC) : ProposalManager :=
  m.addQC P.getLeader id P.forkTailNum P.rollbackNum qc

def generateProposal (id : Int) (m : ProposalManager) (txns : List Transaction) (slot : Int)
    (isFinal : Bool) (now : ℕ) : Proposal :=
  generateWith P.crypto P.codec id m.round m.genericQC txns slot isFinal now

def generateFakeProposal (id : Int) (m : ProposalManager) (txns : List Transaction) (slot : Int)
    (isFinal : Bool) (now : ℕ) : Proposal :=
  generateWith P.crypto P.codec id m.round m.fakeGenericQC txns slot isFinal now

/-- The signature covers the hash only; view, slot and finality travel unsigned. -/
def generateCertificate (id : Int) (p : Proposal) : Certificate :=
  { hash := p.hash
    view := p.header.view
    slot := p.header.slot
    isFinal := p.header.isFinal
    signer := id
    weight := P.certWeight id
    sign := P.crypto.signMessage id p.hash }

def receiveTransaction (id : Int) (now : ℕ) (r : Replica P) (txn : Transaction) : Replica P :=
  { r with txns := r.txns ++ [{ txn with receptionTime := now, proposer := id }] }

/-- The transactions of a block that a final proposal commits learn the next primary. -/
def stampPrimary (p committed : Proposal) : Proposal :=
  if p.header.isFinal then
    { committed with transactions :=
        committed.transactions.map (fun t => { t with nextPrimary := P.nextPrimary p }) }
  else committed

/-- `ReceiveProposal`: `none` when `Verify` refuses, else the new state and the vote.
A final proposal's vote goes to the next leader, any other vote to the declared sender. -/
def receiveProposal (id : Int) (r : Replica P) (p : Proposal) : Option (Replica P × Envelope) :=
  if !P.verify r.manager p then none
  else
    let (manager, committed) := r.manager.addProposal p
    let pushed := (committed.map (P.stampPrimary p)).toList
    let voteTo := if p.header.isFinal then P.nextLeader p.header.view else p.sender
    some ({ r with manager := manager, commitQ := r.commitQ ++ pushed },
      ⟨voteTo, .vote (P.generateCertificate id p)⟩)

/-- `ReceiveCertificate`, with the certificate it formed, if any. -/
def receiveCertificate (id : Int) (r : Replica P) (cert : Certificate) : Replica P × Option QC :=
  match P.countVote r.votes cert with
  | (votes, none) => ({ r with votes := votes }, none)
  | (votes, some qc) =>
      ({ r with votes := votes, manager := P.addQC id r.manager qc, ready := true }, some qc)

def Ready (id : Int) (r : Replica P) : Bool := P.isLeader id r.manager.round && r.ready

def broadcast (p : Proposal) : List Envelope :=
  (List.range P.totalNum).map (fun k => ⟨(k : Int) + 1, .newProposal p⟩)

/-- The rollback attack sends the second proposal to every third replica. -/
def splitBroadcast (p fake : Proposal) : List Envelope :=
  (List.range P.totalNum).map (fun k =>
    let i : Int := k + 1
    ⟨i, .newProposal (if i % 3 = 0 ∧ i ≤ 3 * P.f then fake else p)⟩)

/-- One iteration of `AsyncSend` that proposes: `none` while the replica is not ready
or has no transaction. `isFinal` is the outcome of the timer test, and the batch size is 1.
The result lists the proposals it made and the envelopes it sent. -/
def asyncSend (id : Int) (r : Replica P) (isFinal : Bool) (now : ℕ) :
    Option (Replica P × List Proposal × List Envelope) :=
  if !P.Ready id r then none
  else match P.takeTransaction (r.slot = 0 ∧ (P.totalNum : Int) < r.manager.round) r.txns with
    | none => none
    | some (txn, rest) =>
        let p := P.generateProposal id r.manager [txn] r.slot isFinal now
        let sent : Replica P :=
          { r with txns := rest, ready := false, slot := if isFinal then 0 else r.slot + 1 }
        if id < 3 * P.rollbackNum ∧ id.tmod 3 = 1 ∧ r.slot = 0 then
          let fake := P.generateFakeProposal id r.manager [txn] r.slot isFinal now
          some (sent, [p, fake], P.splitBroadcast p fake)
        else some (sent, [p], P.broadcast p)

section Handlers
variable {P}

theorem receiveProposal_some {id : Int} {r r' : Replica P} {p : Proposal} {e : Envelope}
    (accepted : P.receiveProposal id r p = some (r', e)) :
    P.verify r.manager p = true ∧
      r' = { r with
        manager := (r.manager.addProposal p).1
        commitQ := r.commitQ ++
          ((r.manager.getProposal p.header.prehash).map (P.stampPrimary p)).toList } ∧
      e = ⟨if p.header.isFinal then P.nextLeader p.header.view else p.sender,
        .vote (P.generateCertificate id p)⟩ := by
  unfold receiveProposal at accepted
  cases ok : P.verify r.manager p with
  | false => simp [ok] at accepted
  | true =>
      simp only [ok, Bool.not_true, Bool.false_eq_true, if_false, Option.some.injEq,
        Prod.mk.injEq] at accepted
      refine ⟨rfl, ?_, accepted.2.symm⟩
      rw [← accepted.1, ProposalManager.addProposal_commit]

theorem receiveProposal_of_verify (id : Int) {r : Replica P} {p : Proposal}
    (ok : P.verify r.manager p = true) : (P.receiveProposal id r p).isSome = true := by
  simp [receiveProposal, ok]

theorem receiveCertificate_none {id : Int} {r : Replica P} {cert : Certificate} {votes : P.Votes}
    (counted : P.countVote r.votes cert = (votes, none)) :
    P.receiveCertificate id r cert = ({ r with votes := votes }, none) := by
  simp only [receiveCertificate, counted]

theorem receiveCertificate_some {id : Int} {r : Replica P} {cert : Certificate}
    {votes : P.Votes} {qc : QC} (counted : P.countVote r.votes cert = (votes, some qc)) :
    P.receiveCertificate id r cert =
      ({ r with votes := votes, manager := P.addQC id r.manager qc, ready := true },
        some qc) := by
  simp only [receiveCertificate, counted]

theorem addQC_of_newer (calm : P.NoAttack) (id : Int) {m : ProposalManager} {qc : QC}
    (newer : m.genericQC.view = 0 ∨ m.genericQC.position < qc.position) :
    P.addQC id m qc =
      { m with genericQC := qc, round := if qc.isFinal then qc.view + 1 else m.round } := by
  rw [addQC, calm.forkTail, calm.rollback]
  exact ProposalManager.addQC_newer P.getLeader id newer

theorem addQC_generic (calm : P.NoAttack) (id : Int) (m : ProposalManager) (qc : QC) :
    (P.addQC id m qc).genericQC = qc ∨ (P.addQC id m qc).genericQC = m.genericQC := by
  by_cases newer : m.genericQC.view = 0 ∨ m.genericQC.position < qc.position
  · left
    rw [addQC_of_newer calm id newer]
  · right
    rw [addQC, calm.forkTail, calm.rollback, ProposalManager.addQC_older P.getLeader id newer]

theorem generateProposal_qc (id : Int) (m : ProposalManager) (txns : List Transaction) (slot : Int)
    (isFinal : Bool) (now : ℕ) :
    (P.generateProposal id m txns slot isFinal now).header.qc = {} ∨
      (P.generateProposal id m txns slot isFinal now).header.qc = m.genericQC := by
  by_cases empty : m.genericQC.hash = []
  · left
    rw [generateProposal, Header.qc, (generateWith_root _ _ _ _ _ _ _ _ _ empty).2]
    rfl
  · right
    rw [generateProposal, Header.qc, (generateWith_link _ _ _ _ _ _ _ _ _ empty).2]
    rfl

theorem mem_broadcast {p : Proposal} {e : Envelope} (member : e ∈ P.broadcast p) :
    e.message = .newProposal p := by
  obtain ⟨k, -, rfl⟩ := List.mem_map.mp member
  rfl

theorem asyncSend_some (calm : P.NoAttack) {id : Int} (known : 1 ≤ id) {r r' : Replica P}
    {isFinal : Bool} {now : ℕ} {made : List Proposal} {sent : List Envelope}
    (iteration : P.asyncSend id r isFinal now = some (r', made, sent)) :
    P.Ready id r = true ∧ ∃ txn rest,
      made = [P.generateProposal id r.manager [txn] r.slot isFinal now] ∧
      sent = P.broadcast (P.generateProposal id r.manager [txn] r.slot isFinal now) ∧
      r' = { r with txns := rest, ready := false, slot := if isFinal then 0 else r.slot + 1 } := by
  unfold asyncSend at iteration
  cases ready : P.Ready id r with
  | false => simp [ready] at iteration
  | true =>
      simp only [ready, Bool.not_true, Bool.false_eq_true, if_false] at iteration
      split at iteration
      · cases iteration
      · rename_i txn rest _
        have single : ¬(id < 3 * P.rollbackNum ∧ id.tmod 3 = 1 ∧ r.slot = 0) := by
          rw [calm.rollback]
          omega
        rw [if_neg single, Option.some.injEq, Prod.mk.injEq, Prod.mk.injEq] at iteration
        exact ⟨rfl, txn, rest, iteration.2.1.symm, iteration.2.2.symm, iteration.1.symm⟩

end Handlers
end SlotProtocol
end ResDB.HotStuff
