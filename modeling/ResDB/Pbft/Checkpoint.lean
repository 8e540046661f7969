import Mathlib.Data.List.Lex
import Mathlib.Data.Prod.Lex
import Mathlib.Tactic
import ResDB.Library.SortedMap
import ResDB.Pbft.Request

/-! `CheckPointManager`: the digest of what a replica has executed, the votes for such
digests, and the checkpoint that a quorum of votes makes stable. -/
namespace ResDB.Pbft

structure CheckPointData where
  seq : ℕ
  hash : Bytes
  hashSignature : SignatureInfo
  deriving DecidableEq

/-- The votes for one digest. `sender_ckpt_` and `sign_ckpt_` have the same keys at all
times and are one map here. -/
structure CheckPointVotes where
  seq : ℕ
  hash : Bytes
  senders : Finset Int := ∅
  signatures : List SignatureInfo := []

def CheckPointVotes.add (votes : CheckPointVotes) (sender : Int) (sign : SignatureInfo) :
    CheckPointVotes :=
  if sender ∈ votes.senders then votes
  else { votes with
    senders := insert sender votes.senders
    signatures := votes.signatures ++ [sign] }

/-- `lastSeq` and `lastHash` are the progress of the thread that digests what was executed,
of which `taken` requests have passed through it. The other thread keeps what it last
fetched in `lastCommittableSeq`. -/
structure CheckPointManager where
  votes : SortedMap (ℕ ×ₗ List ℕ) CheckPointVotes := ∅
  newData : ℕ := 0
  stableCkpt : StableCheckPoint := {}
  currentStableSeq : ℕ := 0
  committableSeq : ℕ := 0
  lastCommittableSeq : ℕ := 0
  lastSeq : ℕ := 0
  lastHash : Bytes := []
  lastCkptSeq : ℕ := 0
  taken : ℕ := 0

namespace CheckPointManager
variable (D : Deployment) (id : Int) (m : CheckPointManager)

/-- The order of the keys: by number, then by the bytes of the hash. -/
def key (seq : ℕ) (hash : Bytes) : ℕ ×ₗ List ℕ := toLex (seq, hash.map UInt8.toNat)

def votesFor (seq : ℕ) (hash : Bytes) : CheckPointVotes :=
  ((m.votes.entries.find? (fun entry => entry.1 = key seq hash)).map Prod.snd).getD
    { seq := seq, hash := hash }

def addVote (sender : Int) (data : CheckPointData) : CheckPointManager :=
  let votes := m.votesFor data.seq data.hash
  { m with
    votes := m.votes.set (key data.seq data.hash) (votes.add sender data.hashSignature)
    newData := if sender ∈ votes.senders then m.newData else m.newData + 1 }

def processCheckPoint (sender : Int) (message : Option CheckPointData) :
    CheckPointManager × Int :=
  match message with
  | none => (m, -2)
  | some data =>
      if data.seq % D.checkpointWaterMark ≠ 0 then (m, -2)
      else if D.crypto.verifyMessage data.hash data.hashSignature = false then (m, -2)
      else (m.addVote sender data, 0)

def getHash (crypto : Crypto) (h₁ h₂ : Bytes) : Bytes := crypto.sha256 (h₁ ++ h₂)

/-- `UpdateCheckPointStatus` takes an executed request. -/
def digest (request : Request) : CheckPointManager × List CheckPointData :=
  if request.seq ≠ m.lastSeq + 1 then (m, [])
  else
    let m := { m with
      lastHash := getHash D.crypto m.lastHash request.hash, lastSeq := m.lastSeq + 1 }
    if request.seq = m.lastCkptSeq + D.checkpointWaterMark then
      ({ m with lastCkptSeq := request.seq },
        [⟨request.seq, m.lastHash, D.crypto.signMessage id m.lastHash⟩])
    else (m, [])

/-- The votes of a quorum, the last in the order of the map. -/
def stableVotes : Option CheckPointVotes :=
  (m.votes.entries.map Prod.snd).reverse.find? (fun votes => D.quorum ≤ votes.senders.card)

/-- The second half of a round of `UpdateStableCheckPointStatus`. -/
def installStable : CheckPointManager :=
  match m.stableVotes D with
  | none => m
  | some votes =>
      if m.currentStableSeq < votes.seq then
        { m with
          votes := ⟨m.votes.entries.filter (fun entry => votes.seq < entry.2.seq),
            m.votes.sorted.filter _⟩
          stableCkpt := ⟨votes.seq, votes.hash, votes.signatures⟩
          currentStableSeq := votes.seq }
      else m

end CheckPointManager
end ResDB.Pbft
