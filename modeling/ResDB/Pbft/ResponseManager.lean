import ResDB.Client.PerformanceManager
import ResDB.Pbft.SequenceWindow

/-! The PBFT proxy, `ResponseManager`: it puts the requests of the clients into batches
for the primary, counts the responses of the replicas in a ring of collectors, and keeps the
contexts of the clients in a second ring until a response for their batch is delivered. -/
namespace ResDB.Pbft
open Client (BatchUserResponse ResponseMsg ResponseCodec)

/-- The way back to a client. A client that asked for no response has no channel. -/
structure Context where
  client : Option ℕ := none
  signature : SignatureInfo := {}
  deriving DecidableEq

/-- A request waiting for its batch. The context is gone once it was moved out. -/
structure QueueItem where
  context : Option Context
  userRequest : Request
  deriving DecidableEq

/-- What the context ring uses of a `TransactionCollector`. -/
structure ContextCell where
  seq : ℕ
  contextList : List (Option Context) := []

structure BatchUserRequest where
  localId : ℕ
  userRequests : List (Request × SignatureInfo)
  deriving DecidableEq

/-- What became of a batch, for the history: its requests, the message to the primary if
it was sent, the contexts that the ring held for its local id at that moment, and the
clients that were told of an error. -/
structure BatchOutcome where
  items : List QueueItem
  sent : Option BatchUserRequest
  stored : List (Option Context)
  errors : List ℕ

/-- `batchReq` is the local variable of the loop of `BatchProposeMsg`. The histories
`taken`, `outcomes` and `replies` say what it took from the queue, what became of it, and
what was sent to the clients. -/
structure ResponseManager where
  collectorPool : ℕ → Collector := fun i => { seq := i }
  contextPool : ℕ → ContextCell := fun i => { seq := i }
  batchQueue : List QueueItem := []
  batchReq : List QueueItem := []
  localId : ℕ := 1
  sendNum : Int := 0
  taken : List QueueItem := []
  outcomes : List BatchOutcome := []
  replies : List (ℕ × Option Bytes) := []

def contextKind : PartnerRing.Kind ContextCell where
  seq := ContextCell.seq
  fresh s := { seq := s }
  seq_fresh _ := rfl

def responseInfo (msg : ResponseMsg) : RequestInfo where
  request := {
    type := .response, data := msg.data, seq := msg.seq, hash := msg.hash,
    senderId := msg.senderId }
  signature := {}

/-- `AddRequest` with the callback of `ResponseManager::AddResponseMsg`: a collector that
was told nothing yet is done with the first hash that enough replicas name. -/
def Collector.addResponse (minNum : ℕ) (c : Collector) (info : RequestInfo) :
    Collector × Int × Bool :=
  if c.isCommitted then (c, -2, false)
  else if c.status = .executed then (c, -2, false)
  else if c.seq ≠ info.request.seq then (c, -2, false)
  else
    let c := c.addSender info
    if c.status = .none ∧ minNum ≤ c.received info then
      ({ c with status := .executed }, 0, true)
    else (c, 0, false)

def Collector.finish (c : Collector) : Collector := { c with status := .executed }

namespace Deployment
variable (D : Deployment)

def minClientReceiveNum : ℕ := Config.minClientReceiveNum D.totalNum

/-- `ResponseManager::AddResponseMsg` on the ring of collectors. -/
def addResponseMsg (pool : ℕ → Collector) (msg : ResponseMsg) :
    (ℕ → Collector) × CollectorResultCode :=
  let (c, ret, changed) :=
    (pool (D.index msg.seq)).addResponse D.minClientReceiveNum (responseInfo msg)
  let pool := Function.update pool (D.index msg.seq) c
  if ret ≠ 0 then (pool, .invalid)
  else if changed then (D.update pool msg.seq, .stateChanged)
  else (pool, .ok)

def Closed (pool : ℕ → Collector) (seq : ℕ) : Prop :=
  (pool (D.index seq)).seq ≠ seq ∨ (pool (D.index seq)).status = .executed

variable {D} {pool : ℕ → Collector} {msg : ResponseMsg}

theorem minClientReceiveNum_pos : 0 < D.minClientReceiveNum :=
  lt_of_lt_of_le Nat.one_pos (le_max_right _ _)

theorem addResponseMsg_closed (closed : D.Closed pool msg.seq) :
    D.addResponseMsg pool msg = (pool, .invalid) := by
  have refused : (pool (D.index msg.seq)).addResponse D.minClientReceiveNum (responseInfo msg) =
      (pool (D.index msg.seq), -2, false) := by
    unfold Collector.addResponse
    rcases closed with other | done
    · rw [if_pos (show (pool (D.index msg.seq)).seq ≠ (responseInfo msg).request.seq from other)]
      split_ifs <;> rfl
    · rw [if_pos done, ite_self]
  rw [addResponseMsg, refused]
  dsimp only
  rw [if_pos (by decide), Function.update_eq_self]

theorem addResponseMsg_open {c : Collector} (slot : pool (D.index msg.seq) = c)
    (own : c.seq = msg.seq) (fresh : c.status = .none) (waiting : c.isCommitted = false) :
    D.addResponseMsg pool msg =
      if D.minClientReceiveNum ≤
          (Collector.setBit msg.senderId (c.senders .response msg.hash)).card then
        (D.update (Function.update pool (D.index msg.seq)
          (c.addSender (responseInfo msg)).finish) msg.seq, .stateChanged)
      else (Function.update pool (D.index msg.seq) (c.addSender (responseInfo msg)), .ok) := by
  have counted : (c.addSender (responseInfo msg)).received (responseInfo msg) =
      (Collector.setBit msg.senderId (c.senders .response msg.hash)).card := by
    simp [Collector.received, Collector.addSender, responseInfo]
  have same : ¬ c.seq ≠ (responseInfo msg).request.seq := not_not.mpr own
  have unset : (c.addSender (responseInfo msg)).status = .none := fresh
  rw [addResponseMsg, slot, Collector.addResponse, waiting, fresh, if_neg (by decide),
    if_neg (by decide), if_neg same]
  dsimp only
  rw [unset, counted]
  simp only [true_and]
  by_cases enough :
      D.minClientReceiveNum ≤ (Collector.setBit msg.senderId (c.senders .response msg.hash)).card
  · rw [if_pos enough, if_pos enough]
    rfl
  · rw [if_neg enough, if_neg enough]
    rfl

end Deployment

namespace ResponseManager
variable (D : Deployment) (codec : ResponseCodec) (clientBatchNum : ℕ) (m : ResponseManager)

def newUserRequest (context : Context) (needResponse : Bool) (userRequest : Request) :
    ResponseManager :=
  let context := if needResponse then context else { context with client := none }
  { m with batchQueue := m.batchQueue ++ [⟨some context, userRequest⟩] }

/-- `FetchContextList`: the contexts leave the ring, and the ring moves on. -/
def fetchContextList (id : ℕ) : List (Option Context) × ResponseManager :=
  let cell := m.contextPool (D.index id)
  if cell.seq ≠ id then
    ([], { m with
      contextPool := PartnerRing.update contextKind D.capacity m.contextPool id })
  else
    let pool := Function.update m.contextPool (D.index id) { cell with contextList := [] }
    (cell.contextList, { m with
      contextPool := PartnerRing.update contextKind D.capacity pool id })

/-- The responses for the contexts that have a channel, by their places. Where the batch
response is too short the source reads out of its bounds. -/
def repliesTo (contexts : List (Option Context)) (response : List Bytes) :
    List (ℕ × Option Bytes) :=
  contexts.zipIdx.filterMap (fun (context, i) =>
    (context.bind Context.client).map (fun client => (client, response[i]?)))

def sendResponseToClient (batchResponse : BatchUserResponse) : ResponseManager :=
  let m := { m with sendNum := m.sendNum - 1 }
  let (contexts, m) := m.fetchContextList D batchResponse.localId
  { m with replies := m.replies ++ repliesTo contexts batchResponse.response }

/-- `ProcessResponseMsg`, with the batch response it delivers. -/
def processResponseMsg (msg : ResponseMsg) : Option BatchUserResponse × ResponseManager :=
  if msg.ret = -2 then (none, { m with sendNum := m.sendNum - 1 })
  else
    match D.addResponseMsg m.collectorPool msg with
    | (pool, .stateChanged) =>
        let m := { m with collectorPool := pool }
        match codec.parse msg.data with
        | some batchResponse => (some batchResponse, m.sendResponseToClient D batchResponse)
        | none => (none, m)
    | (pool, _) => (none, { m with collectorPool := pool })

/-- `DoBatch` of the batch in hand. The contexts are moved out before anything can fail,
and the local id is used up. `signs` is whether `SignMessage` succeeds. -/
def doBatch (signs : Bool) : Int × Option BatchUserRequest × ResponseManager :=
  let contexts := m.batchReq.map QueueItem.context
  let batchRequest : BatchUserRequest := {
    localId := m.localId
    userRequests := m.batchReq.map (fun item =>
      (item.userRequest, (item.context.map Context.signature).getD {})) }
  let cell := m.contextPool (D.index m.localId)
  let m := { m with
    batchReq := m.batchReq.map (fun item => { item with context := none })
    localId := m.localId + 1 }
  if cell.seq ≠ batchRequest.localId then (-2, none, m)
  else
    let m := { m with
      contextPool := Function.update m.contextPool (D.index batchRequest.localId)
        { cell with contextList := contexts } }
    if signs = false then (-2, none, m)
    else (0, some batchRequest, { m with sendNum := m.sendNum + 1 })

/-- The end of a round of `BatchProposeMsg`. The batch is cleared before the clients in it
are told of a failure. -/
def propose (signs : Bool) : ResponseManager :=
  let items := m.batchReq
  let localId := m.localId
  let (ret, sent, m) := m.doBatch D signs
  let m := { m with batchReq := [] }
  let errors :=
    if ret ≠ 0 then m.batchReq.filterMap (fun item => item.context.bind Context.client) else []
  { m with outcomes := m.outcomes ++ [{
      items := items, sent := sent, stored := (m.contextPool (D.index localId)).contextList
      errors := errors }] }

/-- One more request is taken from the queue, if the batch is not full. -/
def take : ResponseManager :=
  match m.batchQueue with
  | [] => m
  | item :: rest =>
      if m.batchReq.length < clientBatchNum then
        { m with batchQueue := rest, batchReq := m.batchReq ++ [item], taken := m.taken ++ [item] }
      else m

/-- A round of the loop of `BatchProposeMsg`. The signed number of batches on their way is
compared as an unsigned one. -/
def batchProposeMsg (signs : Bool) : ResponseManager :=
  if D.maxProcessTxn < (m.sendNum % 2 ^ 32).toNat then m
  else
    let more := m.take clientBatchNum
    -- a request that did not fill the batch ends the round; none within the wait does not
    if m.batchReq.length < more.batchReq.length ∧ more.batchReq.length < clientBatchNum then more
    else if more.batchReq.isEmpty then more
    else more.propose D signs

end ResponseManager

inductive ProxyEvent where
  | newUserRequest (context : Context) (needResponse : Bool) (userRequest : Request)
  | batchProposeMsg (signs : Bool)
  | processResponseMsg (msg : ResponseMsg)
  deriving DecidableEq

def ProxyEvent.apply (D : Deployment) (codec : ResponseCodec) (clientBatchNum : ℕ)
    (m : ResponseManager) : ProxyEvent → ResponseManager
  | .newUserRequest context needResponse userRequest =>
      m.newUserRequest context needResponse userRequest
  | .batchProposeMsg signs => m.batchProposeMsg D clientBatchNum signs
  | .processResponseMsg msg => (m.processResponseMsg D codec msg).2

def sampleProxy : Deployment := { Deployment.sampleDeployment with maxProcessTxn := 1 }

end ResDB.Pbft
