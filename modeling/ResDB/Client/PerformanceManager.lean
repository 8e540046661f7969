import ResDB.Common.Crypto
import ResDB.Library.AssocMap

/-! The load generator of the common framework, `PerformanceManager`: it registers each
batch under a local id, counts the responses that name the id, and takes a batch for done
when enough were counted. The protocols' own generators derive from it. -/
namespace ResDB.Client

/-- `BatchUserResponse`, with the fields that the clients read. -/
structure BatchUserResponse where
  response : List Bytes := []
  localId : ℕ := 0
  primaryId : Int := 0
  nextPrimary : Int := 0
  deriving DecidableEq

/-- A `Request` of type `TYPE_RESPONSE`. -/
structure ResponseMsg where
  ret : Int := 0
  seq : ℕ := 0
  hash : Bytes := []
  senderId : Int := 0
  data : Bytes := []
  deriving DecidableEq

/-- `BatchUserResponse::ParseFromString`. -/
structure ResponseCodec where
  parse : Bytes → Option BatchUserResponse

inductive CollectorResultCode where
  | invalid
  | ok
  | stateChanged
  | firstResponse
  deriving DecidableEq

/-- `response` is the table `response_`, whose split into shards only spreads its locks.
`inflight` is indexed by replica. -/
structure PerformanceManager where
  response : AssocMap ℕ ℕ := ∅
  localId : ℕ := 1
  sendNum : Int := 0
  inflight : Int → Int := fun _ => 0
  primary : Int := 1

namespace PerformanceManager
variable (codec : ResponseCodec) (minNum : ℕ) (m : PerformanceManager) (request : ResponseMsg)

/-- The part of `DoBatch` before the batch is signed: it takes the next local id. -/
def register : PerformanceManager :=
  { m with localId := m.localId + 1, response := m.response.set m.localId 0 }

/-- The responses counted for a registered id after one more, and whether they are enough;
then the id is forgotten. -/
def tally (seq : ℕ) : Option (ℕ × Bool) × PerformanceManager :=
  match m.response.find seq with
  | none => (none, m)
  | some count =>
      if minNum ≤ count + 1 then
        (some (count + 1, true), { m with response := m.response.erase seq })
      else (some (count + 1, false), { m with response := m.response.set seq (count + 1) })

/-- `PerformanceManager::AddResponseMsg`, with the batch response its callback was given. -/
def addResponseMsg : CollectorResultCode × Option BatchUserResponse × PerformanceManager :=
  match codec.parse request.data with
  | none => (.invalid, none, m)
  | some batchResponse =>
      match m.tally minNum batchResponse.localId with
      | (some (_, true), m) => (.stateChanged, some batchResponse, m)
      | (_, m) => (.ok, none, m)

/-- The effect of `SendResponseToClient`; its statistics are left out. -/
def sendResponseToClient (networkDelayNum : ℕ) : PerformanceManager :=
  if networkDelayNum = 0 then { m with sendNum := m.sendNum - 1 } else m

/-- `PerformanceManager::ProcessResponseMsg`, with the batch response it delivers. -/
def processResponseMsg (networkDelayNum : ℕ) : Option BatchUserResponse × PerformanceManager :=
  if request.ret = -2 then (none, { m with sendNum := m.sendNum - 1 })
  else
    match m.addResponseMsg codec minNum request with
    | (.stateChanged, some batchResponse, m) =>
        -- with a simulated delay the slot is released at the first response instead, a
        -- result that this class never returns
        if 0 < networkDelayNum then
          (some batchResponse, m.sendResponseToClient networkDelayNum)
        else
          let released := Function.update m.inflight batchResponse.primaryId
            (m.inflight batchResponse.primaryId - 1)
          (some batchResponse,
            ({ m with inflight := released }).sendResponseToClient networkDelayNum)
    | (_, _, m) => (none, m)

theorem tally_frame (seq : ℕ) :
    ∃ table, (m.tally minNum seq).2 = { m with response := table } := by
  unfold tally
  cases m.response.find seq with
  | none => exact ⟨m.response, rfl⟩
  | some count =>
      simp only []
      split_ifs
      · exact ⟨_, rfl⟩
      · exact ⟨_, rfl⟩

end PerformanceManager
end ResDB.Client
