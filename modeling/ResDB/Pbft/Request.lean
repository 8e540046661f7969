import Mathlib.Tactic
import ResDB.Common.Crypto
import ResDB.Config.ReplicaCounts

/-! The messages of PBFT, with the fields that its handlers read. Sequence numbers and views
are the source's `uint64`s. -/
namespace ResDB.Pbft

/-- The types that the handlers tell apart. The field on the wire is any `int32`. -/
inductive RequestType where
  | none
  | prePrepare
  | prepare
  | commit
  | response
  | checkpoint
  | newTxns
  | viewChange
  | newView
  | other (tag : Int)
  deriving DecidableEq, Encodable

structure Request where
  type : RequestType := .none
  data : Bytes := []
  currentView : ℕ := 0
  seq : ℕ := 0
  hash : Bytes := []
  senderId : Int := 0
  dataSignature : Option SignatureInfo := none
  committedCerts : List SignatureInfo := []
  isRecovery : Bool := false
  deriving DecidableEq, Encodable

/-- A request with the signature of the message that it came in. -/
structure RequestInfo where
  request : Request
  signature : SignatureInfo
  deriving DecidableEq

/-- `NewRequest`: a copy under another type and sender. -/
def newRequest (type : RequestType) (request : Request) (senderId : Int) : Request :=
  { request with type := type, senderId := senderId }

/-- `StableCheckPoint`: the votes of a checkpoint. -/
structure StableCheckPoint where
  seq : ℕ := 0
  hash : Bytes := []
  signatures : List SignatureInfo := []
  deriving DecidableEq

/-- The PREPAREs that a replica reports for one sequence number. -/
structure PreparedMessage where
  seq : ℕ
  proof : List RequestInfo
  deriving DecidableEq

structure ViewChangeMessage where
  viewNumber : ℕ
  stableCkpt : StableCheckPoint := {}
  preparedMsg : List PreparedMessage := []
  deriving DecidableEq

structure NewViewMessage where
  viewNumber : ℕ
  request : List Request := []
  viewchangeMessages : List ViewChangeMessage := []
  deriving DecidableEq

/-- What the signature of a message covers: the serialized request. -/
structure Codec where
  request : Request → Bytes

/-- What the replicas share. The replicas are numbered from 1 on, in the order of the
configuration. A `preVerify` that was not set accepts everything. -/
structure Deployment where
  crypto : Crypto
  codec : Codec
  totalNum : ℕ
  maxProcessTxn : ℕ := 64
  enableViewchange : Bool := false
  enableCheckpoint : Bool := false
  checkpointWaterMark : ℕ := 5
  needQc : Bool := false
  preVerify : Request → Bool := fun _ => true

/-- `GetMinDataReceiveNum`. -/
def Deployment.quorum (D : Deployment) : ℕ := Config.minDataReceiveNum D.totalNum

/-- What `ConsensusManager::Process` lets through to the handlers: a message with a valid
signature or without one. -/
def admissible (crypto : Crypto) (codec : Codec) (info : RequestInfo) : Bool :=
  info.signature.signature.isEmpty ||
    crypto.verifyMessage (codec.request info.request) info.signature

theorem verifyMessage_of_admissible {crypto : Crypto} {codec : Codec} {info : RequestInfo}
    (valid : admissible crypto codec info = true)
    (signed : info.signature.signature.isEmpty = false) :
    crypto.verifyMessage (codec.request info.request) info.signature = true := by
  rwa [admissible, signed, Bool.false_or] at valid

end ResDB.Pbft
