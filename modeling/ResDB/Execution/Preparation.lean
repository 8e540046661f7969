import Mathlib.Tactic
import ResDB.Common.Crypto
import ResDB.Library.Run

/-! `TransactionExecutor` with requests that are prepared before they are committed. `Prepare` has a
thread parse a request ahead of time; when the request comes to be executed, the executing thread
takes what was parsed, or parses the request itself if it is there first. The two meet in the flags
and the promise of the request's uid. Each action is one critical section of the source, or what a
thread does between two of them. -/
namespace ResDB.Execution

/-- The fields of a `Request` that the executor reads. -/
structure ExecRequest where
  uid : ℕ
  seq : ℕ := 0
  data : Bytes := []
  hash : Bytes := []
  proxyId : Int := 0
  committedCerts : Option (List SignatureInfo) := none
  deriving DecidableEq

/-- A `BatchUserRequest`: the fields that the executor sets, and the rest as it was parsed. -/
structure Batch (U : Type) where
  users : U
  seq : ℕ
  hash : Bytes
  proxyId : Int
  committedCerts : Option (List SignatureInfo)
  deriving DecidableEq

/-- `ParseFromString` with the fields that are then set, in `PrepareMessage` as in `Execute`. -/
def batchOf {U : Type} (parse : Bytes → Batch U) (r : ExecRequest) : Batch U :=
  { parse r.data with
    seq := r.seq
    hash := r.hash
    proxyId := r.proxyId
    committedCerts := r.committedCerts.or (parse r.data).committedCerts }

/-- What `Execute` makes of a batch that was parsed before. -/
def Batch.reuse {U : Type} (b : Batch U) (r : ExecRequest) : Batch U :=
  { b with seq := r.seq, proxyId := r.proxyId }

inductive PrepareType where
  | startPrepare
  | startExecute
  | endPrepare
  deriving DecidableEq

/-- The bits of an entry of `flag_`. -/
structure Flags where
  startPrepare : Bool := false
  startExecute : Bool := false
  endPrepare : Bool := false

def Flags.set (flags : Flags) : PrepareType → Flags
  | .startPrepare => { flags with startPrepare := true }
  | .startExecute => { flags with startExecute := true }
  | .endPrepare => { flags with endPrepare := true }

def Flags.refuses (flags : Flags) : PrepareType → Bool
  | .startPrepare => flags.startExecute
  | .startExecute => flags.endPrepare
  | .endPrepare => false

/-- A `std::promise`: whether its value is set and whether its future was taken. -/
structure Promise where
  value : Bool := false
  future : Bool := false

/-- What `pre_`, `flag_`, `data_` and `req_` have for a uid. -/
structure Entries (U : Type) where
  promise : Option Promise := none
  flags : Option Flags := none
  data : Bool := false
  req : Option (Batch U) := none

/-- `SetFlag`: the entries after it, and its result. -/
def Entries.setFlag {U : Type} (e : Entries U) (f : PrepareType) : Entries U × Bool :=
  match e.flags with
  | none => ({ e with flags := some (({} : Flags).set f) }, true)
  | some flags =>
      if flags.refuses f then (e, false) else ({ e with flags := some (flags.set f) }, true)

/-- Where `PrepareMessage` is. -/
inductive Preparer where
  | idle
  | popped (r : ExecRequest)
  | flagged (r : ExecRequest)
  | holding (r : ExecRequest)
  | stored (r : ExecRequest)
  | valued (r : ExecRequest)

/-- Where `ExecuteMessage` is: on the way to its own parse, or to the batch of the preparation. -/
inductive Executing where
  | idle
  | popped (r : ExecRequest)
  | plain (r : ExecRequest)
  | waiting (r : ExecRequest)
  | future (r : ExecRequest)
  | ready (r : ExecRequest)
  | found (r : ExecRequest)
  | cleared (r : ExecRequest)
  | done (r : ExecRequest)

/-- Where `GCProcess` is. -/
inductive Collecting where
  | idle
  | popped (uid : ℕ)
  | emptied (uid : ℕ)

/-- `entering` are the requests for which `AddFuture` is through and the push to the queue is not.
The histories are the requests given to `Prepare`, those given for execution, and those that were
executed, each with the batch that it was executed with. `broken` is set where an assertion fails,
an exception is thrown or memory is read that is not there. -/
structure Preparation (U : Type) where
  entries : ℕ → Entries U := fun _ => {}
  entering : List ExecRequest := []
  prepareQueue : List ExecRequest := []
  executeQueue : List ExecRequest := []
  gcQueue : List ℕ := []
  preparer : Preparer := .idle
  executing : Executing := .idle
  collecting : Collecting := .idle
  prepared : List ExecRequest := []
  committed : List ExecRequest := []
  executed : List (ExecRequest × Batch U) := []
  broken : Bool := false

inductive PrepareAction where
  | prepare (r : ExecRequest)
  | enqueue (place : ℕ)
  | commit (r : ExecRequest)
  | prepareMessage
  | executeMessage
  | gcProcess

namespace Preparation
variable {U : Type} (parse : Bytes → Batch U) (s : Preparation U)

def fail : Preparation U := { s with broken := true }

def put (uid : ℕ) (e : Entries U) : Preparation U :=
  { s with entries := Function.update s.entries uid e }

/-- `Prepare` up to the end of `AddFuture`. -/
def addFuture (r : ExecRequest) : Preparation U :=
  let e := s.entries r.uid
  match e.promise with
  | none => { s.put r.uid { e with promise := some {}, flags := some {} } with
      entering := s.entering ++ [r]
      prepared := s.prepared ++ [r] }
  | some _ => { s with prepared := s.prepared ++ [r] }

/-- The push at the end of `Prepare`, of any of the calls that are at it. -/
def enqueue (place : ℕ) : Option (Preparation U) :=
  s.entering[place]?.map (fun r => { s with
    entering := s.entering.eraseIdx place
    prepareQueue := s.prepareQueue ++ [r] })

/-- `execute_queue_.Push`. -/
def commit (r : ExecRequest) : Preparation U :=
  { s with executeQueue := s.executeQueue ++ [r], committed := s.committed ++ [r] }

/-- The next step of `PrepareMessage`, `none` where its queue is empty. -/
def prepareMessage : Option (Preparation U) :=
  match s.preparer with
  | .idle =>
      match s.prepareQueue with
      | [] => none
      | r :: rest => some { s with prepareQueue := rest, preparer := .popped r }
  | .popped r =>
      let set := (s.entries r.uid).setFlag .startPrepare
      some { s.put r.uid set.1 with preparer := if set.2 then .flagged r else .idle }
  | .flagged r =>
      match (s.entries r.uid).promise with
      | none => some s.fail
      | some _ => some { s with preparer := .holding r }
  | .holding r =>
      let e := s.entries r.uid
      some { s.put r.uid { e with data := true, req := some (batchOf parse r) } with
        preparer := .stored r }
  | .stored r =>
      let e := s.entries r.uid
      match e.promise with
      | some ⟨false, future⟩ => some { s.put r.uid { e with promise := some ⟨true, future⟩ } with
          preparer := .valued r }
      | some ⟨true, _⟩ | none => some s.fail
  | .valued r =>
      some { s.put r.uid ((s.entries r.uid).setFlag .endPrepare).1 with preparer := .idle }

/-- The next step of `ExecuteMessage`, `none` where its queue is empty or the future has no value
yet. -/
def executeMessage : Option (Preparation U) :=
  match s.executing with
  | .idle =>
      match s.executeQueue with
      | [] => none
      | r :: rest => some { s with executeQueue := rest, executing := .popped r }
  | .popped r =>
      if r.uid = 0 then some { s with executing := .plain r }
      else
        let set := (s.entries r.uid).setFlag .startExecute
        some { s.put r.uid set.1 with executing := if set.2 then .plain r else .waiting r }
  | .plain r => some { s with
      executed := s.executed ++ [(r, batchOf parse r)]
      executing := .idle }
  | .waiting r =>
      let e := s.entries r.uid
      match e.promise with
      | some ⟨value, false⟩ => some { s.put r.uid { e with promise := some ⟨value, true⟩ } with
          executing := .future r }
      | some ⟨_, true⟩ | none => some s.fail
  | .future r =>
      match (s.entries r.uid).promise with
      | some ⟨true, _⟩ => some { s with executing := .ready r }
      | some ⟨false, _⟩ => none
      | none => some s.fail
  | .ready r =>
      match (s.entries r.uid).req with
      | none => some s.fail
      | some _ => some { s with executing := .found r }
  | .found r =>
      let e := s.entries r.uid
      match e.promise, e.flags with
      | none, _ => some { s with executing := .cleared r }
      | some _, none => some s.fail
      | some _, some _ => some { s.put r.uid { e with promise := none, flags := none } with
          executing := .cleared r }
  | .cleared r =>
      let e := s.entries r.uid
      match e.req with
      | none => some s.fail
      | some b => some { s.put r.uid { e with req := some (b.reuse r) } with
          executed := s.executed ++ [(r, b.reuse r)]
          executing := .done r }
  | .done r => some { s with gcQueue := s.gcQueue ++ [r.uid], executing := .idle }

/-- The next step of `GCProcess`, `none` where its queue is empty. -/
def gcProcess : Option (Preparation U) :=
  match s.collecting with
  | .idle =>
      match s.gcQueue with
      | [] => none
      | uid :: rest => some { s with gcQueue := rest, collecting := .popped uid }
  | .popped uid =>
      match (s.entries uid).data with
      | false => some s.fail
      | true => some { s with collecting := .emptied uid }
  | .emptied uid =>
      let e := s.entries uid
      match e.data, e.req with
      | true, some _ => some { s.put uid { e with data := false, req := none } with
          collecting := .idle }
      | _, _ => some s.fail

def step (s : Preparation U) : PrepareAction → Option (Preparation U)
  | .prepare r => some (s.addFuture r)
  | .enqueue place => s.enqueue place
  | .commit r => some (s.commit r)
  | .prepareMessage => s.prepareMessage parse
  | .executeMessage => s.executeMessage parse
  | .gcProcess => s.gcProcess

end Preparation
end ResDB.Execution
