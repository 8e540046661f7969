import Mathlib.Data.Prod.Lex
import Mathlib.Tactic
import ResDB.Geo.Commitment
import ResDB.Library.Run
import ResDB.Library.Sequencer

/-! `GeoGlobalExecutor`, and with `GeoPBFTCommitment` a replica of a region. Requests are
executed by their number and then by their region, from `(1, 1)` on. Only the least key of the
map is looked at, so one that is none of `(s, 1), …, (s, R)` with `s` from 1 on holds back all
that follow it. -/
namespace ResDB.Geo

structure BatchUserResponse where
  response : List Bytes
  createtime : ℕ
  localId : ℕ
  proxyId : ℤ
  seq : ℕ

/-- The regions of the configuration, and the responses of the transaction manager as it has
executed some batches; it need not give one. -/
structure ExecutorConfig where
  regionSize : ℕ
  regionSize_pos : 0 < regionSize
  myRegion : ℤ
  executeBatch : List BatchUserRequest → Option (List Bytes)

def GeoRequest.key (request : GeoRequest) : ℕ ×ₗ ℤ := toLex (request.seq, request.regionId)

/-- The history is the requests that `AddData` took from the queue, and those whose batches the
transaction manager was given. -/
structure GlobalExecutor where
  orderQueue : List GeoRequest := []
  executeMap : SortedMap (ℕ ×ₗ ℤ) GeoRequest := ∅
  nextSeq : ℕ := 1
  nextRegion : ℤ := 1
  respQueue : List BatchUserResponse := []
  batches : List BatchUserRequest := []
  arrived : List GeoRequest := []
  executed : List GeoRequest := []

namespace GlobalExecutor
variable (format : BatchFormat) (cfg : ExecutorConfig) (e : GlobalExecutor)

def respond (request : GeoRequest) (batch : BatchUserRequest) : List BatchUserResponse :=
  match cfg.executeBatch (e.batches ++ [batch]) with
  | none => []
  | some response =>
      if request.regionId = cfg.myRegion then
        [⟨response, batch.createtime, batch.localId, batch.proxyId, batch.seq⟩]
      else []

def execute (request : GeoRequest) : GlobalExecutor :=
  match format.parse request.data with
  | none => e
  | some batch =>
      if request.data = [] then e
      else { e with
        respQueue := e.respQueue ++ e.respond cfg request batch
        batches := e.batches ++ [batch]
        executed := e.executed ++ [request] }

def orderGeoRequest (request : GeoRequest) : GlobalExecutor :=
  { e with orderQueue := e.orderQueue ++ [request] }

def addData : GlobalExecutor :=
  match e.orderQueue with
  | [] => e
  | request :: rest =>
      { e with
        orderQueue := rest
        executeMap := e.executeMap.set request.key request
        arrived := e.arrived ++ [request] }

def advance : GlobalExecutor :=
  if (cfg.regionSize : ℤ) < e.nextRegion + 1 then
    { e with nextRegion := 1, nextSeq := e.nextSeq + 1 }
  else { e with nextRegion := e.nextRegion + 1 }

def getNextMap : Option (GeoRequest × GlobalExecutor) :=
  match e.executeMap with
  | ⟨[], _⟩ => none
  | ⟨(key, request) :: rest, sorted⟩ =>
      if key = toLex (e.nextSeq, e.nextRegion) then
        some (request, advance cfg { e with executeMap := ⟨rest, sorted.of_cons⟩ })
      else none

/-- The inner loop of `OrderRound`, for at most that many rounds. -/
def executeReady : ℕ → GlobalExecutor → GlobalExecutor
  | 0, e => e
  | n + 1, e =>
      match e.getNextMap cfg with
      | none => e
      | some (request, e') => executeReady n (e'.execute format cfg request)

/-- A round of `OrderRound`. Each round of the inner loop takes a request from the map. -/
def orderRound : GlobalExecutor :=
  e.addData.executeReady format cfg e.addData.executeMap.size

end GlobalExecutor

/-- A replica: what `GeoProcessCcm` forwards goes to the queue of the executor, and
`PostProcessExecutedMsg` raises `min_seq_` to the number of the batch of a response. -/
structure GeoReplica where
  commitment : Commitment := {}
  executor : GlobalExecutor := {}

namespace GeoReplica
variable (geo : GeoConfig) (cfg : ExecutorConfig) (s : GeoReplica)

inductive Action where
  | geoProcessCcm (request : GeoRequest)
  | orderRound
  | postProcessExecutedMsg

def geoProcessCcm (request : GeoRequest) : GeoReplica :=
  match s.commitment.geoProcessCcm geo request with
  | (ret, commitment) =>
      if ret = 0 then ⟨commitment, s.executor.orderGeoRequest request⟩
      else ⟨commitment, s.executor⟩

def postProcessExecutedMsg : GeoReplica :=
  match s.executor.respQueue with
  | [] => s
  | response :: rest =>
      ⟨s.commitment.updateSeq response.seq, { s.executor with respQueue := rest }⟩

def step : Action → GeoReplica
  | .geoProcessCcm request => s.geoProcessCcm geo request
  | .orderRound => ⟨s.commitment, s.executor.orderRound geo.format cfg⟩
  | .postProcessExecutedMsg => s.postProcessExecutedMsg

def run (actions : List Action) : GeoReplica := actions.foldl (step geo cfg) {}

end GeoReplica
end ResDB.Geo
