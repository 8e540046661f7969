import Mathlib.Tactic
import ResDB.HotStuff.SlotReplica
import ResDB.TdHotstuff.Leader
import ResDB.TdHotstuff.QuorumCert
import ResDB.TdHotstuff.Votes

/-! TD-HotStuff as a slotted protocol. -/
namespace ResDB.TdHotstuff
open HotStuff

/-- What a deployment fixes. The trust weights are positive. -/
structure Config where
  crypto : Crypto
  codec : Codec
  weights : List ℕ
  positive : ∀ w ∈ weights, 0 < w
  f : ℕ
  forkTailNum : Int := 0
  rollbackNum : Int := 0

/-- The weight `GenerateCertificate` writes into a vote. No handler reads it. -/
def certWeight (weights : List ℕ) (id : Int) : Int :=
  if 1 ≤ id ∧ id ≤ weights.length then weightAt weights id else 1

-- Past the warm-up views the first slot takes the second transaction when there is one.
def takeTransaction : Bool → List Transaction → Option (Transaction × List Transaction)
  | _, [] => none
  | true, _ :: fresh :: rest => some (fresh, rest)
  | _, txn :: rest => some (txn, rest)

def protocol (cfg : Config) : SlotProtocol where
  crypto := cfg.crypto
  codec := cfg.codec
  totalNum := cfg.weights.length
  f := cfg.f
  forkTailNum := cfg.forkTailNum
  rollbackNum := cfg.rollbackNum
  getLeader := vrfLeader cfg.crypto cfg.weights
  nextLeader := nextLeader cfg.crypto cfg.weights
  nextPrimary p := nextLeader cfg.crypto cfg.weights p.header.view
  certWeight := certWeight cfg.weights
  verifyQC := verifyQC cfg.crypto cfg.weights
  takeTransaction := takeTransaction
  Votes := Votes
  noVotes := {}
  countVote := countVote cfg.crypto cfg.weights

theorem protocol_lawful (cfg : Config) : (protocol cfg).Lawful Votes.floor where
  handover _ := rfl
  stale _ _ := countVote_stale
  counting _ _ _ := countVote_floor
  forming _ _ _ _ := countVote_formed

end ResDB.TdHotstuff
