import Mathlib.Tactic
import ResDB.Pbft.Checkpoint
import ResDB.Pbft.Collector

/-! A PBFT replica in normal operation: the ring of collectors, the executor that orders what
it is handed, and the handlers of `Commitment` and `MessageManager`. A handler returns the
new state, its return code and the messages it sends. -/
namespace ResDB.Pbft

/-- The part of `TransactionExecutor` that puts requests in order. -/
structure Executor where
  commitQueue : List Request := []
  candidates : SortedMap ℕ Request := ∅
  nextExecuteSeq : ℕ := 1
  executeQueue : List Request := []

namespace Executor
variable (e : Executor)

def commit (message : Request) : Executor :=
  { e with commitQueue := e.commitQueue ++ [message] }

/-- `OrderMessage` takes a message from the queue. -/
def order : Option Executor :=
  match e.commitQueue with
  | [] => none
  | message :: rest =>
      if message.seq < e.nextExecuteSeq then some { e with commitQueue := rest }
      else some { e with
        commitQueue := rest
        candidates := e.candidates.insertNew message.seq message }

/-- `GetNextData` with what `OrderMessage` does with its result. -/
def next : Option Executor :=
  match e.candidates with
  | ⟨[], _⟩ => none
  | ⟨(seq, message) :: rest, sorted⟩ =>
      if seq = e.nextExecuteSeq then
        some { e with
          candidates := ⟨rest, sorted.of_cons⟩
          nextExecuteSeq := e.nextExecuteSeq + 1
          executeQueue := e.executeQueue ++ [message] }
      else none

def getMaxPendingExecutedSeq : ℕ := e.nextExecuteSeq - 1

end Executor

inductive ViewChangeStatus where
  | none
  | readyViewChange
  | readyNewView
  | viewChangeFail
  deriving DecidableEq

/-- The state of one replica. `proposed` are the hashes of `DuplicateManager`. The history
`handed` is what the collectors gave to the executor, with the view of that moment. -/
structure Replica where
  view : ℕ := 1
  primary : Int := 1
  nextSeq : ℕ := 1
  pool : ℕ → Collector := fun i => { seq := i }
  proposed : List Bytes := []
  executor : Executor := {}
  highestPreparedSeq : ℕ := 0
  ckpt : CheckPointManager := {}
  viewChangeStatus : ViewChangeStatus := .none
  viewChangeCounter : ℕ := 1
  viewchangeRequest : ℕ → SortedMap Int ViewChangeMessage := fun _ => ∅
  newViewIsSent : Bool := false
  handed : List (ℕ × Request) := []

def Replica.isValidMsg (r : Replica) (request : Request) : Bool :=
  request.type = .response ∨
    request.currentView = r.view ∧ r.executor.getMaxPendingExecutedSeq ≤ request.seq

inductive CollectorResultCode where
  | invalid
  | ok
  | stateChanged
  deriving DecidableEq

def CollectorResultCode.toInt : CollectorResultCode → Int
  | .invalid => -2
  | .ok => 0
  | .stateChanged => 1

def CollectorResultCode.reply (code : CollectorResultCode) : Int :=
  if code = .invalid then -2 else 0

/-- The conversion of a `uint64` to `int64`. -/
def toInt64 (n : ℕ) : Int := if n % 2 ^ 64 < 2 ^ 63 then n % 2 ^ 64 else n % 2 ^ 64 - 2 ^ 64

/-- The first power of two above the size. -/
def getCapacity (size : ℕ) : ℕ := if size = 0 then 1 else 2 ^ (Nat.log2 size + 1)

namespace Deployment
variable (D : Deployment) (id : Int) (r : Replica) (info : RequestInfo)

def capacity : ℕ := getCapacity (D.maxProcessTxn * 2)

def mask : ℕ := 2 * D.capacity - 1

def index (seq : ℕ) : ℕ := seq &&& D.mask

/-- `GetCollector`. -/
def collector (seq : ℕ) : Collector := r.pool (D.index seq)

/-- `LockFreeCollectorPool::Update`. -/
def update (pool : ℕ → Collector) (seq : ℕ) : ℕ → Collector :=
  if (pool (D.index seq)).seq ≠ seq then pool
  else Function.update pool (D.index seq ^^^ D.capacity) { seq := seq + D.capacity }

def message (request : Request) : RequestInfo :=
  ⟨request, D.crypto.signMessage id (D.codec.request request)⟩

def addConsensusMsg : Replica × CollectorResultCode :=
  if r.isValidMsg info.request then
    let seq := info.request.seq
    let (c, result) := (D.collector r seq).addRequest D.quorum D.enableViewchange info
    let r := { r with
      pool := Function.update r.pool (D.index seq) c
      executor := result.handed.elim r.executor r.executor.commit
      handed := r.handed ++ (result.handed.map (fun q => (r.view, q))).toList }
    if result.ret ≠ 1 ∧ result.ret ≠ 0 then (r, .invalid)
    else if result.changed then (r, .stateChanged)
    else (r, .ok)
  else (r, .invalid)

/-- `AssignNextSeq`: the executed number is cut to 32 bits before the difference is taken. -/
def assignNextSeq : Option (ℕ × Replica) :=
  let maxExecutedSeq := r.executor.getMaxPendingExecutedSeq % 2 ^ 32
  if D.maxProcessTxn < (r.nextSeq + 2 ^ 64 - maxExecutedSeq) % 2 ^ 64 then none
  else some (r.nextSeq, { r with nextSeq := (r.nextSeq + 1) % 2 ^ 64 })

/-- `VerifyMessage` of the data of a request. -/
def verifyData (request : Request) : Bool :=
  D.crypto.verifyMessage request.data (request.dataSignature.getD {})

/-- `ProcessNewRequest`. No request counts as executed, because nothing calls
`AddExecuted`. A replica that is not the primary passes the request on. -/
def processNewRequest : Replica × Int × List RequestInfo :=
  if info.signature.signature.isEmpty then (r, -2, [])
  else if id ≠ r.primary then (r, -3, [D.message id info.request])
  else if D.verifyData info.request = false then (r, -2, [])
  else if D.preVerify info.request = false then (r, -2, [])
  else if info.request.hash ∈ r.proposed then (r, -2, [])
  else
    match D.assignNextSeq { r with proposed := info.request.hash :: r.proposed } with
    | none => (r, -2, [])
    | some (seq, r) =>
        (r, 0, [D.message id { info.request with
          type := .prePrepare, currentView := r.view, seq := seq, senderId := id }])

/-- What a replica other than the sender checks of a proposal. -/
def checkProposal : Bool :=
  D.preVerify info.request ∧ D.verifyData info.request ∧ info.request.hash ∉ r.proposed

def prepareRequest (request : Request) : Request :=
  { newRequest .prepare request id with data := [] }

/-- A proposal replayed from the log moves the next number on. -/
def noteRecovered : Replica :=
  if toInt64 r.nextSeq ≤ toInt64 info.request.seq then
    { r with nextSeq := (info.request.seq + 1) % 2 ^ 64 }
  else r

def noteProposed : Replica :=
  if info.request.senderId ≠ id then { r with proposed := info.request.hash :: r.proposed }
  else r

def processProposeMsg : Replica × Int × List RequestInfo :=
  if info.signature.signature.isEmpty then (r, -2, [])
  else if info.request.isRecovery then
    let (r, code) := D.addConsensusMsg (noteRecovered r info) info
    (r, code.toInt, [])
  else if info.request.senderId ≠ r.primary then (r, -2, [])
  else if info.request.senderId ≠ id ∧ D.checkProposal r info = false then (r, -2, [])
  else
    let (r, code) := D.addConsensusMsg (noteProposed id r info) info
    if code = .stateChanged then
      (r, code.reply, [D.message id (prepareRequest id info.request)])
    else (r, code.reply, [])

/-- The COMMIT for a PREPARE. Its cleared data signature stays present. -/
def commitRequest (request : Request) : Request :=
  { newRequest .commit request id with
    dataSignature := some (if D.needQc then D.crypto.signMessage id request.hash else {}) }

def processPrepareMsg : Replica × Int × List RequestInfo :=
  if info.signature.signature.isEmpty then (r, -2, [])
  else
    let (r, code) := D.addConsensusMsg r info
    if info.request.isRecovery then (r, code.toInt, [])
    else if code = .stateChanged then
      ({ r with highestPreparedSeq := max r.highestPreparedSeq info.request.seq }, code.reply,
        [D.message id (D.commitRequest id info.request)])
    else (r, code.reply, [])

def processCommitMsg : Replica × Int × List RequestInfo :=
  if info.signature.signature.isEmpty then (r, -2, [])
  else
    let (r, code) := D.addConsensusMsg r info
    if info.request.isRecovery then (r, code.toInt, [])
    else (r, code.reply, [])

/-- `InternalConsensusCommit` for the messages of normal operation. -/
def internalConsensusCommit : Replica × Int × List RequestInfo :=
  match info.request.type with
  | .newTxns => D.processNewRequest id r info
  | .prePrepare => D.processProposeMsg id r info
  | .prepare => D.processPrepareMsg id r info
  | .commit => D.processCommitMsg r info
  | _ => (r, 0, [])

def executeNext : Option Replica :=
  r.executor.next.map (fun e =>
    { r with executor := e, pool := D.update r.pool (e.nextExecuteSeq - 1) })

end Deployment

/-- Nothing changes that a collector or the executor holds, and no view changes. -/
structure Replica.Same (r r' : Replica) : Prop where
  view : r'.view = r.view
  pool : r'.pool = r.pool
  highestPreparedSeq : r'.highestPreparedSeq = r.highestPreparedSeq
  ckpt : r'.ckpt = r.ckpt
  viewchangeRequest : r'.viewchangeRequest = r.viewchangeRequest
  newViewIsSent : r'.newViewIsSent = r.newViewIsSent
  handed : r'.handed = r.handed

theorem Replica.Same.refl (r : Replica) : r.Same r := ⟨rfl, rfl, rfl, rfl, rfl, rfl, rfl⟩

namespace Deployment
variable {D : Deployment} {id : Int} {r : Replica} {info : RequestInfo}

structure Collected (D : Deployment) (r : Replica) (info : RequestInfo)
    (result : Collector × AddResult) (r' : Replica) : Prop where
  added : Collector.Added D.quorum D.enableViewchange (D.collector r info.request.seq) info result
  signed : info.signature.signature.isEmpty = false
  current : info.request.type ≠ .response → info.request.currentView = r.view
  view : r'.view = r.view
  pool : r'.pool = Function.update r.pool (D.index info.request.seq) result.1
  highestPreparedSeq : r.highestPreparedSeq ≤ r'.highestPreparedSeq
  ckpt : r'.ckpt = r.ckpt
  viewchangeRequest : r'.viewchangeRequest = r.viewchangeRequest
  newViewIsSent : r'.newViewIsSent = r.newViewIsSent
  handed : r'.handed = r.handed ++ (result.2.handed.map (fun q => (r.view, q))).toList

/-- Everything the handling of a message can do. A COMMIT is sent only for a PREPARE that
changes the status. -/
inductive Handled (D : Deployment) (id : Int) (r : Replica) (info : RequestInfo) :
    Replica → List RequestInfo → Prop where
  | idle {r' : Replica} {sent : List RequestInfo} (same : r.Same r')
      (others : ∀ m ∈ sent, m.request.type ≠ .commit) : Handled D id r info r' sent
  | collected {r' : Replica} {sent : List RequestInfo} {result : Collector × AddResult}
      (reached : Collected D r info result r')
      (others : ∀ m ∈ sent, m.request.type ≠ .commit) : Handled D id r info r' sent
  | committing {r' : Replica} {result : Collector × AddResult}
      (reached : Collected D r info result r') (prepare : info.request.type = .prepare)
      (changed : result.2.changed = true) (raised : info.request.seq ≤ r'.highestPreparedSeq) :
      Handled D id r info r' [D.message id (D.commitRequest id info.request)]

theorem nothing (m : RequestInfo) (member : m ∈ ([] : List RequestInfo)) :
    m.request.type ≠ .commit :=
  absurd member List.not_mem_nil

theorem Collected.of_same {r' r'' : Replica} {result : Collector × AddResult}
    (same : r.Same r') (reached : Collected D r' info result r'') :
    Collected D r info result r'' where
  added := by
    have added := reached.added
    rwa [collector, same.pool] at added
  signed := reached.signed
  current := same.view ▸ reached.current
  view := same.view ▸ reached.view
  pool := same.pool ▸ reached.pool
  highestPreparedSeq := same.highestPreparedSeq ▸ reached.highestPreparedSeq
  ckpt := same.ckpt ▸ reached.ckpt
  viewchangeRequest := same.viewchangeRequest ▸ reached.viewchangeRequest
  newViewIsSent := same.newViewIsSent ▸ reached.newViewIsSent
  handed := same.view ▸ same.handed ▸ reached.handed

theorem isValidMsg_current {request : Request} (valid : r.isValidMsg request = true)
    (other : request.type ≠ .response) : request.currentView = r.view := by
  have either := of_decide_eq_true valid
  exact (either.resolve_left other).1

theorem addConsensusMsg_cases (signed : info.signature.signature.isEmpty = false)
    (resting : (D.collector r info.request.seq).status ≠ .readyExecute) :
    D.addConsensusMsg r info = (r, .invalid) ∨
      ∃ result, Collected D r info result (D.addConsensusMsg r info).1 ∧
        ((D.addConsensusMsg r info).2 = .stateChanged → result.2.changed = true) := by
  unfold addConsensusMsg
  split_ifs with valid
  · right
    refine ⟨(D.collector r info.request.seq).addRequest D.quorum D.enableViewchange info, ?_⟩
    have added : Collector.Added D.quorum D.enableViewchange _ info _ :=
      Collector.addRequest_added resting
    have same : ∀ executor, Collected D r info _ { r with
        pool := Function.update r.pool (D.index info.request.seq) _
        executor := executor
        handed := r.handed ++ _ } := fun _ =>
      ⟨added, signed, isValidMsg_current valid, rfl, rfl, le_rfl, rfl, rfl, rfl, rfl⟩
    dsimp only
    split_ifs with failed changed
    · exact ⟨same _, nofun⟩
    · exact ⟨same _, fun _ => changed⟩
    · exact ⟨same _, nofun⟩
  · exact .inl rfl

theorem noteRecovered_same (r : Replica) (info : RequestInfo) :
    r.Same (noteRecovered r info) := by
  unfold noteRecovered
  split_ifs
  · exact ⟨rfl, rfl, rfl, rfl, rfl, rfl, rfl⟩
  · exact .refl r

theorem noteProposed_same (id : Int) (r : Replica) (info : RequestInfo) :
    r.Same (noteProposed id r info) := by
  unfold noteProposed
  split_ifs
  · exact ⟨rfl, rfl, rfl, rfl, rfl, rfl, rfl⟩
  · exact .refl r

section Handlers
variable (resting : (D.collector r info.request.seq).status ≠ .readyExecute)
include resting

theorem handled_of_added (signed : ¬ info.signature.signature.isEmpty = true) {r₀ : Replica}
    (same : r.Same r₀) {sent : List RequestInfo}
    (others : ∀ m ∈ sent, m.request.type ≠ .commit) :
    Handled D id r info (D.addConsensusMsg r₀ info).1 sent := by
  have waiting : (D.collector r₀ info.request.seq).status ≠ .readyExecute := by
    rwa [collector, same.pool]
  rcases addConsensusMsg_cases (Bool.eq_false_iff.mpr signed) waiting with
    invalid | ⟨result, reached, -⟩
  · rw [invalid]
    exact .idle same others
  · exact .collected (reached.of_same same) others

theorem processProposeMsg_handled :
    Handled D id r info (D.processProposeMsg id r info).1 (D.processProposeMsg id r info).2.2 := by
  unfold processProposeMsg
  dsimp only
  split_ifs with signed recovered stranger refused changed
  · exact .idle (.refl r) nothing
  · exact handled_of_added resting signed (noteRecovered_same r info) nothing
  · exact .idle (.refl r) nothing
  · exact .idle (.refl r) nothing
  · refine handled_of_added resting signed (noteProposed_same id r info) (fun m member => ?_)
    rw [List.mem_singleton.mp member]
    exact RequestType.noConfusion
  · exact handled_of_added resting signed (noteProposed_same id r info) nothing

theorem processPrepareMsg_handled (prepare : info.request.type = .prepare) :
    Handled D id r info (D.processPrepareMsg id r info).1 (D.processPrepareMsg id r info).2.2 := by
  unfold processPrepareMsg
  dsimp only
  split_ifs with signed recovered changed
  · exact .idle (.refl r) nothing
  · exact handled_of_added resting signed (.refl r) nothing
  · rcases addConsensusMsg_cases (Bool.eq_false_iff.mpr signed) resting with
      invalid | ⟨result, reached, moved⟩
    · rw [invalid] at changed
      cases changed
    · refine .committing { reached with highestPreparedSeq := ?_ } prepare (moved changed) ?_
      · exact reached.highestPreparedSeq.trans (le_max_left _ _)
      · exact le_max_right _ _
  · exact handled_of_added resting signed (.refl r) nothing

theorem processCommitMsg_handled :
    Handled D id r info (D.processCommitMsg r info).1 (D.processCommitMsg r info).2.2 := by
  unfold processCommitMsg
  dsimp only
  split_ifs with signed
  · exact .idle (.refl r) nothing
  · exact handled_of_added resting signed (.refl r) nothing
  · exact handled_of_added resting signed (.refl r) nothing

end Handlers

theorem processNewRequest_handled (new : info.request.type = .newTxns) :
    Handled D id r info (D.processNewRequest id r info).1 (D.processNewRequest id r info).2.2 := by
  unfold processNewRequest
  split_ifs
  · exact .idle (.refl r) nothing
  · refine .idle (.refl r) (fun m member => ?_)
    rw [List.mem_singleton.mp member, message, new]
    exact RequestType.noConfusion
  · exact .idle (.refl r) nothing
  · exact .idle (.refl r) nothing
  · exact .idle (.refl r) nothing
  · split
    · exact .idle (.refl r) nothing
    · rename_i seq r' assigned
      simp only [assignNextSeq] at assigned
      split_ifs at assigned
      cases assigned
      refine .idle ⟨rfl, rfl, rfl, rfl, rfl, rfl, rfl⟩ (fun m member => ?_)
      rw [List.mem_singleton.mp member]
      exact RequestType.noConfusion

theorem internalConsensusCommit_handled
    (resting : (D.collector r info.request.seq).status ≠ .readyExecute) :
    Handled D id r info (D.internalConsensusCommit id r info).1
      (D.internalConsensusCommit id r info).2.2 := by
  unfold internalConsensusCommit
  split
  · rename_i type
    exact processNewRequest_handled type
  · exact processProposeMsg_handled resting
  · rename_i type
    exact processPrepareMsg_handled resting type
  · exact processCommitMsg_handled resting
  · exact .idle (.refl r) nothing

end Deployment
end ResDB.Pbft
