import Mathlib.Tactic
import ResDB.HotStuff.SlotReplica
import ResDB.HotStuff.VoteStore

/-! Slotted HotStuff-1: round-robin leaders and plain vote counting. Its handlers and
its `ProposalManager` are those of the slotted protocols. -/
namespace ResDB.SlotHs1
open HotStuff

structure Config where
  crypto : Crypto
  codec : Codec
  totalNum : ℕ
  f : ℕ
  forkTailNum : Int := 0
  rollbackNum : Int := 0

def getLeader (totalNum : ℕ) : Int → Int := roundRobin totalNum

def nextLeader (totalNum : ℕ) (view : Int) : Int := roundRobin totalNum (view + 1)

structure Votes where
  receive : VoteStore := fun _ _ => []
  minView : Int := 0
  minSlot : Int := 0
  certCount : ℕ := 0

def Votes.floor (votes : Votes) : Position := toLex (votes.minView, votes.minSlot)

/-- `ReceiveCertificate` up to the certificate it may form. A vote is counted before
its signature is looked at, and the count restarts when a certificate is formed. -/
def countVote (crypto : Crypto) (f : ℕ) (votes : Votes) (cert : Certificate) :
    Votes × Option QC :=
  if 2 * f + 1 ≤ votes.certCount ∨ isStale votes.minView votes.minSlot cert then (votes, none)
  else if !crypto.verifyMessage cert.hash cert.sign then
    ({ votes with certCount := votes.certCount + 1 }, none)
  else
    let receive := votes.receive.insert cert
    if (receive cert.view cert.hash).length = 2 * f + 1 then
      ({ receive := receive
         minView := asUInt64 cert.view
         minSlot := asUInt64 cert.slot
         certCount := 0 }, some (formQC receive cert))
    else ({ votes with receive := receive, certCount := votes.certCount + 1 }, none)

-- Past the warm-up views the transaction popped first is dropped and the iteration
-- waits for a second one.
def takeTransaction : Bool → List Transaction → Option (Transaction × List Transaction)
  | _, [] => none
  | true, [_] => none
  | true, _ :: fresh :: rest => some (fresh, rest)
  | false, txn :: rest => some (txn, rest)

def protocol (cfg : Config) : SlotProtocol where
  crypto := cfg.crypto
  codec := cfg.codec
  totalNum := cfg.totalNum
  f := cfg.f
  forkTailNum := cfg.forkTailNum
  rollbackNum := cfg.rollbackNum
  getLeader := getLeader cfg.totalNum
  nextLeader := nextLeader cfg.totalNum
  nextPrimary p := p.sender.tmod cfg.totalNum + 1
  certWeight _ := 0
  verifyQC := verifyCount cfg.crypto (2 * cfg.f + 1)
  takeTransaction := takeTransaction
  Votes := Votes
  noVotes := {}
  countVote := countVote cfg.crypto cfg.f

section Laws
variable {crypto : Crypto} {f : ℕ} {votes votes' : Votes} {cert : Certificate}

theorem countVote_stale (view : 0 ≤ cert.view) (slot : 0 ≤ cert.slot)
    (below : cert.position ≤ votes.floor) : countVote crypto f votes cert = (votes, none) := by
  rw [countVote, if_pos (Or.inr (isStale_of_le view slot below))]

theorem countVote_floor (waiting : countVote crypto f votes cert = (votes', none)) :
    votes'.floor = votes.floor := by
  simp only [countVote] at waiting
  split_ifs at waiting <;> cases waiting <;> rfl

theorem countVote_formed {qc : QC} (view : 0 ≤ cert.view) (slot : 0 ≤ cert.slot)
    (formed : countVote crypto f votes cert = (votes', some qc)) :
    votes'.floor = cert.position ∧ qc.hash = cert.hash ∧ qc.view = cert.view ∧
      qc.slot = cert.slot ∧ qc.isFinal = cert.isFinal := by
  simp only [countVote] at formed
  split_ifs at formed <;> cases formed
  refine ⟨?_, rfl, rfl, rfl, rfl⟩
  rw [Votes.floor, Certificate.position, asUInt64_of_nonneg view, asUInt64_of_nonneg slot]

end Laws

theorem protocol_lawful (cfg : Config) : (protocol cfg).Lawful Votes.floor where
  handover _ := rfl
  stale _ _ := countVote_stale
  counting _ _ _ := countVote_floor
  forming _ _ _ _ := countVote_formed

end ResDB.SlotHs1
