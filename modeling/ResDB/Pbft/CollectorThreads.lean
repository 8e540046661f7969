import ResDB.Library.Threads
import ResDB.Pbft.VotedExecution

/-! A collector under concurrent calls. `AddRequest` takes its mutex for the counts only; the
status, the two flags and the place of the main request are atomics that any thread may read
and write in between. Here each operation on the mutex or on an atomic is a step of its own,
and what a thread does up to its next one is part of it. -/
namespace ResDB.Pbft
open Collector (sent)

/-- The members of a collector as its threads see them. `mainRequest` is the pointer of
`atomic_mian_request_` and `flag` its state: 0 free, 1 claimed, 2 set. `stores` counts the
objects it has pointed to, and `moved` says that the request of the present one has been moved
out. `mutex` is the thread that holds the lock, `executed` what the executor was given. -/
structure Shared extends Collector where
  flag : ℕ := 0
  stores : ℕ := 0
  moved : Bool := false
  mutex : Option ℕ := none
  executed : List Request := []

/-- `AtomicUniquePtr::Reference`. -/
def Shared.reference (s : Shared) : Option RequestInfo := if s.flag ≤ 1 then none else s.mainRequest

/-- Where a call is, by the operation that comes next. `clearFlag` to `publish` are `Clear`
and `Set`, which a main request and the change to `READY_COMMIT` have in common, and
`loadCallback` and `casCallback` are the callback. A null pointer that is followed crashes. -/
inductive Pc where
  | loadCommitted
  | loadExecuted
  | loadForce
  | clearFlag
  | clearPtr
  | claim (info : RequestInfo)
  | storePtr (info : RequestInfo)
  | publish
  | reference
  | writeView
  | loadStatus
  | lockPrepare
  | loadPrepared
  | lockCert
  | pushCert
  | unlockCert
  | lockVote
  | count
  | loadCallback (receivedCount : ℕ)
  | casCallback
  | loadReady
  | setPrepared
  | loadMain
  | compareMain
  | clearOthers
  | keepProofs
  | unlock
  | loadExecute
  | casExecuted
  | takeMain
  | markCommitted (main : Option RequestInfo) (stores : ℕ)
  | hand (main : RequestInfo) (stores : ℕ)
  | returned (ret : Int)
  | crashed
  deriving DecidableEq

structure Call where
  info : RequestInfo
  pc : Pc := .loadCommitted
  force : Bool := false
  changed : Bool := false
  deriving DecidableEq

/-- The change of the status that the callback of a type makes. -/
def due : RequestType → Option (Status × Status)
  | .prePrepare => some (.none, .readyPrepare)
  | .prepare => some (.readyPrepare, .readyCommit)
  | .commit => some (.readyCommit, .readyExecute)
  | _ => none

/-- The statuses in the order in which they follow each other. -/
def statusSteps : List (Status × Status) :=
  [(.none, .readyPrepare), (.readyPrepare, .readyCommit), (.readyCommit, .readyExecute),
    (.readyExecute, .executed)]

theorem due_mem {type : RequestType} {change : Status × Status} (known : due type = some change) :
    change ∈ statusSteps := by
  cases type with
  | prePrepare | prepare | commit =>
      cases known
      decide
  | _ => cases known

theorem due_ne_executed {type : RequestType} {change : Status × Status}
    (known : due type = some change) : change.1 ≠ .executed := by
  cases type with
  | prePrepare | prepare | commit =>
      cases known
      decide
  | _ => cases known

namespace Call
variable (quorum : ℕ) (enableViewchange : Bool) (call : Call)

def type : RequestType := call.info.request.type

def goto (pc : Pc) : Call := { call with pc }

/-- The PREPAREs of view-change mode take a path of their own. -/
def keepsProof : Bool := enableViewchange ∧ call.type = .prepare

def carriesCert : Bool :=
  call.type = .commit ∧ (call.info.request.dataSignature.any (fun sign => 0 < sign.nodeId))

/-- The callback is done: a main request returns, a kept PREPARE looks whether it was the
last, another vote leaves the mutex. -/
def afterCallback : Pc :=
  if call.type = .prePrepare then .returned 0
  else if call.keepsProof enableViewchange then .loadReady
  else .unlock

def branch : Pc :=
  if call.type = .prePrepare then .loadForce
  else if call.keepsProof enableViewchange then .loadStatus
  else if call.carriesCert then .lockCert
  else .lockVote

end Call

namespace Shared
variable (quorum : ℕ) (enableViewchange : Bool) (t : ℕ) (s : Shared) (call : Call)

/-- `lock_guard`: the thread waits while another one holds the mutex. -/
def lock (pc : Pc) : Option (Shared × Call) :=
  if s.mutex = none then some ({ s with mutex := some t }, call.goto pc) else none

/-- The counts under the mutex. A PREPARE of view-change mode is also kept. -/
def countVote : Shared :=
  { s with toCollector :=
      if call.keepsProof enableViewchange then
        Collector.addSender { s.toCollector with
          preparedProof := s.preparedProof ++ [call.info] } call.info
      else s.toCollector.addSender call.info }

/-- Where the search for a request with the prepared hash leads, after `Clear`. -/
def searchOthers : Pc :=
  match s.otherMainRequest.find? (fun other => other.request.hash = call.info.request.hash) with
  | some other => .claim other
  | none => .clearOthers

def step : Option (Shared × Call) :=
  match call.pc with
  | .loadCommitted =>
      some (s, call.goto (if s.isCommitted then .returned (-2) else .loadExecuted))
  | .loadExecuted =>
      some (s, call.goto (if s.status = .executed then .returned (-2)
        else if s.seq ≠ call.info.request.seq then .returned (-2)
        else call.branch enableViewchange))
  | .loadForce =>
      if s.force call.info then some (s, { call with pc := .clearFlag, force := true })
      else some (s, call.goto (.claim call.info))
  | .clearFlag => some ({ s with flag := 0 }, call.goto .clearPtr)
  | .clearPtr =>
      some ({ s with mainRequest := none },
        call.goto (if call.type = .prePrepare then .claim call.info else s.searchOthers call))
  | .claim info =>
      if s.flag = 0 then some ({ s with flag := 1 }, call.goto (.storePtr info))
      else if call.type = .prePrepare then
        some ({ s with otherMainRequest := s.otherMainRequest ++ [info] },
          call.goto (.returned (-2)))
      else some (s, call.goto .clearOthers)
  | .storePtr info =>
      some ({ s with mainRequest := some info, stores := s.stores + 1, moved := false },
        call.goto .publish)
  | .publish =>
      some ({ s with flag := 2 },
        call.goto (if call.type = .prePrepare then .reference else .clearOthers))
  | .reference =>
      some (s, call.goto (match s.reference with
        | none => .crashed
        | some _ => if s.moved then .returned (-2) else .writeView))
  | .writeView =>
      some ({ s with view := call.info.request.currentView }, call.goto (.loadCallback 1))
  | .loadStatus =>
      some (s, call.goto (if s.status.rank ≤ Status.readyPrepare.rank then .lockPrepare
        else .returned 0))
  | .lockPrepare => s.lock t call .loadPrepared
  | .loadPrepared => some (s, call.goto (if s.isPrepared then .unlock else .count))
  | .lockCert => s.lock t call .pushCert
  | .pushCert =>
      some ({ s with commitCerts := s.commitCerts ++ call.info.request.dataSignature.toList },
        call.goto .unlockCert)
  | .unlockCert => some ({ s with mutex := none }, call.goto .lockVote)
  | .lockVote => s.lock t call .count
  | .count =>
      some (s.countVote enableViewchange call,
        call.goto (.loadCallback ((s.countVote enableViewchange call).received call.info)))
  | .loadCallback receivedCount =>
      if (due call.type).any (fun change => s.status = change.1) ∧
          (call.type = .prePrepare ∨ quorum ≤ receivedCount) then
        some (s, call.goto .casCallback)
      else some (s, { call with
        pc := call.afterCallback enableViewchange, changed := call.force })
  | .casCallback =>
      match due call.type with
      | none => none
      | some (old, new) =>
          if s.status = old then
            some ({ s with status := new }, { call with
              pc := call.afterCallback enableViewchange, changed := true })
          else some (s, { call with
            pc := call.afterCallback enableViewchange, changed := false })
  | .loadReady =>
      some (s, call.goto (if s.status = .readyCommit then .setPrepared else .unlock))
  | .setPrepared => some ({ s with isPrepared := true }, call.goto .loadMain)
  | .loadMain =>
      some (s, call.goto (if s.reference = none then .keepProofs else .compareMain))
  | .compareMain =>
      some (s, call.goto (match s.reference with
        | none => .crashed
        | some main =>
            if s.moved then .crashed
            else if main.request.hash ≠ call.info.request.hash then .clearFlag
            else .keepProofs))
  | .clearOthers => some ({ s with otherMainRequest := [] }, call.goto .keepProofs)
  | .keepProofs =>
      some ({ s with preparedProof := s.preparedProof.filter (fun proof =>
        proof.request.hash = call.info.request.hash) }, call.goto .unlock)
  | .unlock =>
      some ({ s with mutex := none },
        call.goto (if call.keepsProof enableViewchange then .returned 0 else .loadExecute))
  | .loadExecute =>
      some (s, call.goto (if s.status = .readyExecute then .casExecuted else .returned 0))
  | .casExecuted =>
      if s.status = .readyExecute then some ({ s with status := .executed }, call.goto .takeMain)
      else some (s, call.goto (.returned 1))
  | .takeMain =>
      some (s, call.goto (match s.reference with
        | none => .returned 1
        | some main => .markCommitted (if s.moved then none else some main) s.stores))
  | .markCommitted main stores =>
      some ({ s with isCommitted := true },
        call.goto (match main with | none => .returned 1 | some main => .hand main stores))
  | .hand main stores =>
      some ({ s with
          moved := s.moved || s.stores = stores
          executed := s.executed ++ [{ main.request with
            committedCerts := main.request.committedCerts ++ s.commitCerts }] },
        call.goto (.returned 1))
  | .returned _ | .crashed => none

end Shared

def collectorProgram (quorum : ℕ) (enableViewchange : Bool) :
    Threads.Program Shared Call RequestInfo where
  enter info := { info }
  through call := match call.pc with | .returned _ => true | _ => false
  step := Shared.step quorum enableViewchange

namespace Pc

def executing : Pc → Bool
  | .takeMain | .markCommitted _ _ | .hand _ _ => true
  | _ => false

def main : Pc → Bool
  | .reference | .writeView => true
  | _ => false

def voting : Pc → Bool
  | .loadStatus | .lockPrepare | .loadPrepared | .lockCert | .pushCert | .unlockCert | .lockVote
  | .count => true
  | _ => false

/-- On the way through the callback. A main request has been seen in its place by then. -/
def seen : Pc → Bool
  | .writeView | .loadCallback _ | .casCallback => true
  | _ => false

theorem only_voting {pc : Pc} (here : pc.voting = true) :
    pc.executing = false ∧ pc.main = false ∧ pc.seen = false := by
  cases pc with
  | loadStatus | lockPrepare | loadPrepared | lockCert | pushCert | unlockCert | lockVote
  | count => exact ⟨rfl, rfl, rfl⟩
  | _ => cases here

def plain (pc : Pc) : Bool := !pc.executing && !pc.main && !pc.voting && !pc.seen

end Pc

namespace Shared
variable {quorum : ℕ} {enableViewchange : Bool} {t : ℕ} {s : Shared} {call : Call}

/-- What a step can do to the status, the votes and the executions. A quiet one only moves on,
and says how it comes to the points that matter. -/
inductive Effect (quorum : ℕ) (enableViewchange : Bool) (s : Shared) (call : Call) :
    Shared × Call → Prop where
  | quiet {s' : Shared} {call' : Call} (info : call'.info = call.info) (seq : s'.seq = s.seq)
      (status : s'.status = s.status) (senders : s'.senders = s.senders)
      (executed : s'.executed = s.executed)
      (executing : call'.pc.executing = true → call.pc.executing = true)
      (main : call'.pc.main = true → call.type = .prePrepare ∨ call.pc.main = true)
      (voting : call'.pc.voting = true → call.pc.voting = true ∨
        call.type ≠ .prePrepare ∧ s.seq = call.info.request.seq)
      (counted : ∀ count, call'.pc = .loadCallback count → call.pc.main = true)
      (full : call'.pc = .casCallback → ∃ count, call.pc = .loadCallback count ∧
        (call.type = .prePrepare ∨ quorum ≤ count))
      (seen : call'.pc.seen = true → call.pc.seen = true ∨ s'.reference ≠ none) :
      Effect quorum enableViewchange s call (s', call')
  | counts (here : call.pc = .count) :
      Effect quorum enableViewchange s call (s.countVote enableViewchange call,
        call.goto (.loadCallback ((s.countVote enableViewchange call).received call.info)))
  | moves {old new : Status} (here : call.pc = .casCallback)
      (change : due call.type = some (old, new)) (status : s.status = old) :
      Effect quorum enableViewchange s call ({ s with status := new },
        { call with pc := call.afterCallback enableViewchange, changed := true })
  | wins (here : call.pc = .casExecuted) (status : s.status = .readyExecute) :
      Effect quorum enableViewchange s call ({ s with status := .executed }, call.goto .takeMain)
  | hands {main : RequestInfo} {stores : ℕ} {moved : Bool} (here : call.pc = .hand main stores)
      (request : Request) :
      Effect quorum enableViewchange s call
        ({ s with moved := moved, executed := s.executed ++ [request] }, call.goto (.returned 1))

theorem Effect.plain {s' : Shared} {call' : Call} (info : call'.info = call.info)
    (seq : s'.seq = s.seq) (status : s'.status = s.status) (senders : s'.senders = s.senders)
    (executed : s'.executed = s.executed) (plain : call'.pc.plain = true) :
    Effect quorum enableViewchange s call (s', call') := by
  simp only [Pc.plain, Bool.and_eq_true, Bool.not_eq_true'] at plain
  obtain ⟨⟨⟨executing, main⟩, voting⟩, seen⟩ := plain
  refine .quiet info seq status senders executed ?_ ?_ ?_ ?_ ?_ ?_
  · intro here
    cases executing.symm.trans here
  · intro here
    cases main.symm.trans here
  · intro here
    cases voting.symm.trans here
  · intro count here
    rw [here] at seen
    cases seen
  · intro here
    rw [here] at seen
    cases seen
  · intro here
    cases seen.symm.trans here

theorem Effect.voting {s' : Shared} {call' : Call} (info : call'.info = call.info)
    (seq : s'.seq = s.seq) (status : s'.status = s.status) (senders : s'.senders = s.senders)
    (executed : s'.executed = s.executed) (there : call'.pc.voting = true)
    (before : call.pc.voting = true ∨ call.type ≠ .prePrepare ∧ s.seq = call.info.request.seq) :
    Effect quorum enableViewchange s call (s', call') := by
  obtain ⟨executing, main, seen⟩ := Pc.only_voting there
  refine .quiet info seq status senders executed ?_ ?_ (fun _ => before) ?_ ?_ ?_
  · intro here
    cases executing.symm.trans here
  · intro here
    cases main.symm.trans here
  · intro count here
    rw [here] at seen
    cases seen
  · intro here
    rw [here] at seen
    cases seen
  · intro here
    cases seen.symm.trans here

theorem lock_effect {pc : Pc} {result : Shared × Call} (here : call.pc.voting = true)
    (there : pc.voting = true) (taken : s.lock t call pc = some result) :
    Effect quorum enableViewchange s call result := by
  unfold lock at taken
  split_ifs at taken
  cases taken
  exact .voting rfl rfl rfl rfl rfl there (.inl here)

theorem afterCallback_plain (enableViewchange : Bool) (call : Call) :
    (call.afterCallback enableViewchange).plain = true := by
  unfold Call.afterCallback
  split_ifs <;> rfl

theorem branch_effect (own : s.seq = call.info.request.seq) :
    Effect quorum enableViewchange s call (s, call.goto (call.branch enableViewchange)) := by
  unfold Call.branch
  split_ifs with pre
  · exact .plain rfl rfl rfl rfl rfl rfl
  · exact .voting rfl rfl rfl rfl rfl rfl (.inr ⟨pre, own⟩)
  · exact .voting rfl rfl rfl rfl rfl rfl (.inr ⟨pre, own⟩)
  · exact .voting rfl rfl rfl rfl rfl rfl (.inr ⟨pre, own⟩)

theorem step_effect {result : Shared × Call}
    (stepped : s.step quorum enableViewchange t call = some result) :
    Effect quorum enableViewchange s call result := by
  cases here : call.pc with
  | clearFlag | storePtr info | setPrepared | clearOthers | keepProofs =>
      simp only [step, here] at stepped
      cases stepped
      exact .plain rfl rfl rfl rfl rfl rfl
  | loadCommitted | loadReady | loadMain | unlock | loadExecute =>
      simp only [step, here] at stepped
      cases stepped
      refine .plain rfl rfl rfl rfl rfl ?_
      simp only [Call.goto]
      split_ifs <;> rfl
  | loadForce | claim info =>
      simp only [step, here] at stepped
      split_ifs at stepped
      all_goals
        cases stepped
        exact .plain rfl rfl rfl rfl rfl rfl
  | loadExecuted =>
      simp only [step, here] at stepped
      cases stepped
      split_ifs with done other
      · exact .plain rfl rfl rfl rfl rfl rfl
      · exact .plain rfl rfl rfl rfl rfl rfl
      · exact branch_effect (not_not.mp other)
  | clearPtr =>
      simp only [step, here] at stepped
      cases stepped
      refine .plain rfl rfl rfl rfl rfl ?_
      simp only [Call.goto, searchOthers]
      split_ifs
      · rfl
      · split <;> rfl
  | publish =>
      simp only [step, here] at stepped
      cases stepped
      split_ifs with pre
      · exact .quiet rfl rfl rfl rfl rfl nofun (fun _ => .inl pre) nofun nofun nofun nofun
      · exact .plain rfl rfl rfl rfl rfl rfl
  | reference =>
      simp only [step, here] at stepped
      cases stepped
      cases found : s.reference with
      | none => exact .plain rfl rfl rfl rfl rfl rfl
      | some main =>
          dsimp only
          split_ifs
          · exact .plain rfl rfl rfl rfl rfl rfl
          · exact .quiet rfl rfl rfl rfl rfl nofun (fun _ => .inr (by rw [here]; rfl)) nofun nofun
              nofun (fun _ => .inr (by rw [found]; exact Option.some_ne_none _))
  | writeView =>
      simp only [step, here] at stepped
      cases stepped
      exact .quiet rfl rfl rfl rfl rfl nofun nofun nofun (fun _ _ => by rw [here]; rfl) nofun
        (fun _ => .inl (by rw [here]; rfl))
  | loadStatus =>
      simp only [step, here] at stepped
      cases stepped
      split_ifs
      · exact .voting rfl rfl rfl rfl rfl rfl (.inl (by rw [here]; rfl))
      · exact .plain rfl rfl rfl rfl rfl rfl
  | loadPrepared =>
      simp only [step, here] at stepped
      cases stepped
      split_ifs
      · exact .plain rfl rfl rfl rfl rfl rfl
      · exact .voting rfl rfl rfl rfl rfl rfl (.inl (by rw [here]; rfl))
  | lockPrepare | lockCert | lockVote =>
      simp only [step, here] at stepped
      exact lock_effect (by rw [here]; rfl) rfl stepped
  | pushCert | unlockCert =>
      simp only [step, here] at stepped
      cases stepped
      exact .voting rfl rfl rfl rfl rfl rfl (.inl (by rw [here]; rfl))
  | count =>
      simp only [step, here] at stepped
      cases stepped
      exact .counts here
  | loadCallback receivedCount =>
      simp only [step, here] at stepped
      split_ifs at stepped with ready
      · cases stepped
        exact .quiet rfl rfl rfl rfl rfl nofun nofun nofun nofun
          (fun _ => ⟨receivedCount, here, ready.2⟩) (fun _ => .inl (by rw [here]; rfl))
      · cases stepped
        exact .plain rfl rfl rfl rfl rfl (afterCallback_plain enableViewchange call)
  | casCallback =>
      simp only [step, here] at stepped
      split at stepped
      · cases stepped
      · rename_i old new change
        split_ifs at stepped with same
        · cases stepped
          exact .moves here change same
        · cases stepped
          exact .plain rfl rfl rfl rfl rfl (afterCallback_plain enableViewchange call)
  | compareMain =>
      simp only [step, here] at stepped
      cases stepped
      refine .plain rfl rfl rfl rfl rfl ?_
      simp only [Call.goto]
      split
      · rfl
      · split_ifs <;> rfl
  | casExecuted =>
      simp only [step, here] at stepped
      split_ifs at stepped with ready
      · cases stepped
        exact .wins here ready
      · cases stepped
        exact .plain rfl rfl rfl rfl rfl rfl
  | takeMain =>
      simp only [step, here] at stepped
      cases stepped
      split
      · exact .plain rfl rfl rfl rfl rfl rfl
      · exact .quiet rfl rfl rfl rfl rfl (fun _ => by rw [here]; rfl) nofun nofun nofun nofun nofun
  | markCommitted main stores =>
      simp only [step, here] at stepped
      cases stepped
      split
      · exact .plain rfl rfl rfl rfl rfl rfl
      · exact .quiet rfl rfl rfl rfl rfl (fun _ => by rw [here]; rfl) nofun nofun nofun nofun nofun
  | hand main stores =>
      simp only [step, here] at stepped
      cases stepped
      exact .hands here _
  | returned ret | crashed =>
      simp only [step, here] at stepped
      cases stepped

/-! ### What holds whatever the interleaving -/

structure Good (quorum seq : ℕ) (made : List RequestInfo) (s : Shared) : Prop where
  seq_eq : s.seq = seq
  senders : ∀ type hash, s.senders type hash ⊆ sent seq type hash made
  prepared : Status.readyCommit.rank ≤ s.status.rank →
    ∃ hash, quorum ≤ (sent seq .prepare hash made).card
  committed : Status.readyExecute.rank ≤ s.status.rank →
    ∃ hash, quorum ≤ (sent seq .commit hash made).card
  once : s.executed.length ≤ 1
  done : s.executed ≠ [] → s.status = .executed

/-- What a call relies on. Only the last clause is about the shared state, and it names the
one call that can change what it says. -/
structure Holds (quorum seq : ℕ) (made : List RequestInfo) (s : Shared) (call : Call) : Prop where
  known : call.info ∈ made
  main : call.pc.main = true → call.type = .prePrepare
  voting : call.pc.voting = true → call.type ≠ .prePrepare ∧ call.info.request.seq = seq
  counted : ∀ count, call.pc = .loadCallback count → call.type ≠ .prePrepare →
    count ≤ (sent seq call.type call.info.request.hash made).card
  full : call.pc = .casCallback → call.type ≠ .prePrepare →
    quorum ≤ (sent seq call.type call.info.request.hash made).card
  executing : call.pc.executing = true → s.status = .executed ∧ s.executed = []

def Apart (call other : Call) : Prop := ¬ (call.pc.executing = true ∧ other.pc.executing = true)

variable {seq : ℕ} {made : List RequestInfo} {result : Shared × Call}

theorem mem_sent {info : RequestInfo} (known : info ∈ made) (own : info.request.seq = seq) :
    info.request.senderId ∈ sent seq info.request.type info.request.hash made :=
  Backing.mem_backers.mpr ⟨info, known, decide_eq_true ⟨own, rfl, rfl⟩, rfl⟩

theorem Good.enter (good : Good quorum seq made s) (info : RequestInfo) :
    Good quorum seq (made ++ [info]) s := by
  have more : ∀ {type hash}, quorum ≤ (sent seq type hash made).card →
      quorum ≤ (sent seq type hash (made ++ [info])).card :=
    fun enough => enough.trans (Finset.card_le_card (Collector.sent_subset _ _ _ _ info))
  refine ⟨good.seq_eq, ?_, ?_, ?_, good.once, good.done⟩
  · intro type hash
    exact (good.senders type hash).trans (Collector.sent_subset seq type hash made info)
  · intro reached
    obtain ⟨hash, enough⟩ := good.prepared reached
    exact ⟨hash, more enough⟩
  · intro reached
    obtain ⟨hash, enough⟩ := good.committed reached
    exact ⟨hash, more enough⟩

theorem Holds.enter (holds : Holds quorum seq made s call) (info : RequestInfo) :
    Holds quorum seq (made ++ [info]) s call := by
  have more := Finset.card_le_card
    (Collector.sent_subset seq call.type call.info.request.hash made info)
  refine ⟨List.mem_append_left _ holds.known, holds.main, holds.voting, ?_, ?_, holds.executing⟩
  · intro count here vote
    exact (holds.counted count here vote).trans more
  · intro here vote
    exact (holds.full here vote).trans more

theorem holds_plain (known : call.info ∈ made) (plain : call.pc.plain = true) :
    Holds quorum seq made s call := by
  simp only [Pc.plain, Bool.and_eq_true, Bool.not_eq_true'] at plain
  obtain ⟨⟨⟨executing, main⟩, voting⟩, seen⟩ := plain
  refine ⟨known, ?_, ?_, ?_, ?_, ?_⟩
  · intro here
    cases main.symm.trans here
  · intro here
    cases voting.symm.trans here
  · intro count here
    rw [here] at seen
    cases seen
  · intro here
    rw [here] at seen
    cases seen
  · intro here
    cases executing.symm.trans here

theorem countVote_senders (enableViewchange : Bool) (s : Shared) (call : Call) :
    (s.countVote enableViewchange call).seq = s.seq ∧
      (s.countVote enableViewchange call).status = s.status ∧
      (s.countVote enableViewchange call).senders = (s.addSender call.info).senders ∧
      (s.countVote enableViewchange call).executed = s.executed := by
  unfold countVote
  split_ifs <;> exact ⟨rfl, rfl, rfl, rfl⟩

theorem Good.moves {old new : Status} (good : Good quorum seq made s)
    (holds : Holds quorum seq made s call) (here : call.pc = .casCallback)
    (change : due call.type = some (old, new)) (status : s.status = old) :
    Good quorum seq made { s with status := new } := by
  have votes := holds.full here
  have idle : old ≠ .executed → s.executed ≠ [] → new = .executed := by
    intro waiting given
    exact absurd (status.symm.trans (good.done given)) waiting
  cases sort : call.type with
  | prePrepare =>
      rw [sort] at change
      cases change
      exact ⟨good.seq_eq, good.senders, nofun, nofun, good.once, idle nofun⟩
  | prepare =>
      rw [sort] at change votes
      cases change
      exact ⟨good.seq_eq, good.senders, fun _ => ⟨_, votes nofun⟩, nofun, good.once, idle nofun⟩
  | commit =>
      rw [sort] at change votes
      cases change
      have before := good.prepared (by rw [status])
      exact ⟨good.seq_eq, good.senders, fun _ => before, fun _ => ⟨_, votes nofun⟩, good.once,
        idle nofun⟩
  | _ =>
      rw [sort] at change
      cases change

theorem Good.step (good : Good quorum seq made s) (holds : Holds quorum seq made s call)
    (effect : Effect quorum enableViewchange s call result) : Good quorum seq made result.1 := by
  cases effect with
  | quiet info same status senders executed _ _ _ _ _ _ =>
      refine ⟨same.trans good.seq_eq, ?_, ?_, ?_, ?_, ?_⟩
      · rw [senders]
        exact good.senders
      · rw [status]
        exact good.prepared
      · rw [status]
        exact good.committed
      · rw [executed]
        exact good.once
      · rw [executed, status]
        exact good.done
  | counts here =>
      obtain ⟨same, status, senders, executed⟩ := countVote_senders enableViewchange s call
      obtain ⟨-, own⟩ := holds.voting (by rw [here]; rfl)
      refine ⟨same.trans good.seq_eq, ?_, ?_, ?_, ?_, ?_⟩
      · intro type hash i member
        rw [senders, Collector.mem_addSender] at member
        rcases member with old | ⟨rfl, rfl, rfl, -⟩
        · exact good.senders type hash old
        · exact mem_sent holds.known own
      · rw [status]
        exact good.prepared
      · rw [status]
        exact good.committed
      · rw [executed]
        exact good.once
      · rw [executed, status]
        exact good.done
  | moves here change status => exact good.moves holds here change status
  | wins here ready =>
      refine ⟨good.seq_eq, good.senders, fun _ => good.prepared ?_, fun _ => good.committed ?_,
        good.once, fun _ => rfl⟩
      · rw [ready]
        decide
      · rw [ready]
  | hands here request =>
      obtain ⟨status, nothing⟩ := holds.executing (by rw [here]; rfl)
      refine ⟨good.seq_eq, good.senders, good.prepared, good.committed, ?_, fun _ => status⟩
      dsimp only
      rw [nothing]
      exact le_rfl

theorem Holds.step (holds : Holds quorum seq made s call) (good : Good quorum seq made s)
    (effect : Effect quorum enableViewchange s call result) :
    Holds quorum seq made result.1 result.2 := by
  cases effect with
  | quiet info same status senders executed executing main voting counted full _ =>
      have type : ∀ {call' : Call}, call'.info = call.info → call'.type = call.type :=
        fun same => congrArg (fun info => info.request.type) same
      refine ⟨info ▸ holds.known, ?_, ?_, ?_, ?_, ?_⟩
      · intro there
        rw [type info]
        exact (main there).elim id holds.main
      · intro there
        rw [type info, info]
        exact (voting there).elim holds.voting
          (fun vote => ⟨vote.1, vote.2.symm.trans good.seq_eq⟩)
      · intro count there vote
        rw [type info] at vote
        exact absurd (holds.main (counted count there)) vote
      · intro there vote
        rw [type info] at vote
        rw [type info, info]
        obtain ⟨count, here, pre | enough⟩ := full there
        · exact absurd pre vote
        · exact enough.trans (holds.counted count here vote)
      · intro there
        rw [status, executed]
        exact holds.executing (executing there)
  | counts here =>
      obtain ⟨same, status, senders, executed⟩ := countVote_senders enableViewchange s call
      have counted := (good.step holds (.counts here :
        Effect quorum enableViewchange s call _)).senders call.type call.info.request.hash
      refine ⟨holds.known, nofun, nofun, ?_, nofun, nofun⟩
      intro count there _
      cases there
      exact Finset.card_le_card counted
  | moves here change status =>
      exact holds_plain holds.known (afterCallback_plain enableViewchange call)
  | wins here ready =>
      refine ⟨holds.known, nofun, nofun, nofun, nofun, fun _ => ⟨rfl, ?_⟩⟩
      by_contra given
      cases ready.symm.trans (good.done given)
  | hands here request => exact holds_plain holds.known rfl

theorem Holds.free {other : Call} (others : Holds quorum seq made s other)
    (apart : Apart call other)
    (effect : Effect quorum enableViewchange s call result) :
    Holds quorum seq made result.1 other ∧ Apart result.2 other := by
  have kept : ∀ {s' : Shared}, (other.pc.executing = true → s'.status = s.status ∧
      s'.executed = s.executed) → Holds quorum seq made s' other := by
    intro s' same
    refine ⟨others.known, others.main, others.voting, others.counted, others.full, ?_⟩
    intro there
    obtain ⟨status, executed⟩ := same there
    rw [status, executed]
    exact others.executing there
  cases effect with
  | quiet info same status senders executed executing _ _ _ _ _ =>
      exact ⟨kept (fun _ => ⟨status, executed⟩), fun both => apart ⟨executing both.1, both.2⟩⟩
  | counts here =>
      obtain ⟨same, status, senders, executed⟩ := countVote_senders enableViewchange s call
      exact ⟨kept (fun _ => ⟨status, executed⟩), fun both => nomatch both.1⟩
  | moves here change status =>
      have outside : ¬ other.pc.executing = true := by
        intro there
        have done := status.symm.trans (others.executing there).1
        exact due_ne_executed change done
      exact ⟨kept (fun there => absurd there outside), fun both => outside both.2⟩
  | wins here ready =>
      have outside : ¬ other.pc.executing = true := by
        intro there
        cases ready.symm.trans (others.executing there).1
      exact ⟨kept (fun there => absurd there outside), fun both => outside both.2⟩
  | hands here request =>
      have inside : call.pc.executing = true := by rw [here]; rfl
      exact ⟨kept (fun there => absurd ⟨inside, there⟩ apart), fun both => nomatch both.1⟩

theorem good_initial (quorum seq : ℕ) : Good quorum seq [] { seq } :=
  ⟨rfl, fun _ _ => Finset.empty_subset _, nofun, nofun, Nat.zero_le _, nofun⟩

end Shared

def collectorOutline (quorum : ℕ) (enableViewchange : Bool) (seq : ℕ) :
    (collectorProgram quorum enableViewchange).Outline { seq } where
  Good := Shared.Good quorum seq
  Holds := Shared.Holds quorum seq
  Apart := Shared.Apart
  good_initial := Shared.good_initial quorum seq
  good_enter info good := good.enter info
  holds_enter info _ :=
    Shared.holds_plain (List.mem_append_right _ (List.mem_singleton_self info)) rfl
  holds_made info holds := holds.enter info
  apart_enter _ _ both := nomatch both.1
  apart_symm apart both := apart ⟨both.2, both.1⟩
  good_step good holds stepped :=
    ⟨good.step holds (Shared.step_effect stepped), holds.step good (Shared.step_effect stepped)⟩
  free _ _ others apart stepped := others.free apart (Shared.step_effect stepped)

section Runs
open Threads.Program (enter_cases step_cases at_update)
variable {quorum : ℕ} {enableViewchange : Bool} {seq : ℕ}
  {s s' : Threads.State Shared Call RequestInfo} {action : Threads.Action RequestInfo}

theorem Shared.Effect.status_step {s : Shared} {call : Call} {result : Shared × Call}
    (effect : Effect quorum enableViewchange s call result) :
    result.1.status = s.status ∨ (s.status, result.1.status) ∈ statusSteps := by
  cases effect with
  | quiet _ _ status _ _ _ _ _ _ _ _ => exact .inl status
  | counts _ => exact .inl (countVote_senders enableViewchange s call).2.1
  | moves _ change status =>
      rw [status]
      exact .inr (due_mem change)
  | wins _ ready =>
      have last : (Status.readyExecute, Status.executed) ∈ statusSteps := by decide
      rw [ready]
      exact .inr last
  | hands _ _ => exact .inl rfl

theorem next_status (taken : (collectorProgram quorum enableViewchange).next s action = some s') :
    s'.shared.status = s.shared.status ∨ (s.shared.status, s'.shared.status) ∈ statusSteps := by
  cases action with
  | enter t info =>
      rw [(enter_cases taken).1]
      exact .inl rfl
  | step t =>
      obtain ⟨-, call, call', -, stepped, -⟩ := step_cases taken
      exact (Shared.step_effect stepped).status_step

/-- A main request has been seen in its place, as far as the status and the calls on their
way show. -/
def ShowsMain (s : Threads.State Shared Call RequestInfo) : Prop :=
  s.shared.status ≠ .none ∨
    ∃ t call, s.locals t = some call ∧ call.type = .prePrepare ∧ call.pc.seen = true

theorem Shared.Effect.shows_main {made : List RequestInfo} {s : Shared} {call : Call}
    {result : Shared × Call} (effect : Effect quorum enableViewchange s call result)
    (holds : Holds quorum seq made s call)
    (shows : result.1.status ≠ .none ∨
      result.2.type = .prePrepare ∧ result.2.pc.seen = true) :
    (s.status ≠ .none ∨ call.type = .prePrepare ∧ call.pc.seen = true) ∨
      result.1.reference ≠ none := by
  cases effect with
  | quiet info _ status _ _ _ _ _ _ _ seen =>
      rcases shows with started | ⟨pre, there⟩
      · rw [status] at started
        exact .inl (.inl started)
      · rw [Call.type, info] at pre
        exact (seen there).imp_left (fun before => .inr ⟨pre, before⟩)
  | counts here =>
      obtain ⟨-, status, -, -⟩ := countVote_senders enableViewchange s call
      rcases shows with started | ⟨pre, -⟩
      · rw [status] at started
        exact .inl (.inl started)
      · exact absurd pre (holds.voting (by rw [here]; rfl)).1
  | moves here change status =>
      refine .inl ?_
      cases sort : call.type with
      | prePrepare => exact .inr ⟨rfl, by rw [here]; rfl⟩
      | prepare | commit =>
          rw [sort] at change
          cases change
          exact .inl (by rw [status]; decide)
      | _ =>
          rw [sort] at change
          cases change
  | wins _ ready => exact .inl (.inl (by rw [ready]; decide))
  | hands _ _ =>
      rcases shows with started | ⟨-, there⟩
      · exact .inl (.inl started)
      · cases there

theorem next_shows_main (valid : (collectorOutline quorum enableViewchange seq).Valid s)
    (taken : (collectorProgram quorum enableViewchange).next s action = some s')
    (shows : ShowsMain s') : ShowsMain s ∨ s'.shared.reference ≠ none := by
  cases action with
  | enter t info =>
      obtain ⟨shared, -, locals⟩ := enter_cases taken
      rw [ShowsMain, shared, locals] at shows
      rcases shows with started | ⟨u, call, found, pre, seen⟩
      · exact .inl (.inl started)
      · rcases at_update found with ⟨-, rfl⟩ | ⟨-, there⟩
        · cases seen
        · exact .inl (.inr ⟨u, call, there, pre, seen⟩)
  | step t =>
      obtain ⟨-, call, call', found, stepped, locals⟩ := step_cases taken
      have effect := Shared.step_effect stepped
      have own := effect.shows_main (valid.holds t call found)
      rw [ShowsMain, locals] at shows
      have here : (s.shared.status ≠ .none ∨ call.type = .prePrepare ∧ call.pc.seen = true) ∨
          s'.shared.reference ≠ none → ShowsMain s ∨ s'.shared.reference ≠ none :=
        Or.imp_left (Or.imp_right (fun both => ⟨t, call, found, both⟩))
      rcases shows with started | ⟨u, other, there, pre, seen⟩
      · exact here (own (.inl started))
      · rcases at_update there with ⟨-, rfl⟩ | ⟨-, before⟩
        · exact here (own (.inr ⟨pre, seen⟩))
        · exact .inl (.inr ⟨u, other, before, pre, seen⟩)

end Runs

/-- Whatever the interleaving: the status takes one step after the other; it leaves `None`
only after a main request was set, comes to `READY_COMMIT` only with a quorum of PREPAREs for
one hash and to `READY_EXECUTE` only with a quorum of COMMITs for one; and the executor is
given at most one request. -/
theorem status_machine (n : ℕ) (enableViewchange : Bool) (seq : ℕ)
    (actions : List (Threads.Action RequestInfo)) (s : Threads.State Shared Call RequestInfo)
    (ran : Run.exec (collectorProgram (Config.minDataReceiveNum n) enableViewchange).next
      { shared := { seq } } actions = some s) :
    (∀ action s',
      (collectorProgram (Config.minDataReceiveNum n) enableViewchange).next s action = some s' →
        s'.shared.status = s.shared.status ∨
          (s.shared.status, s'.shared.status) ∈ statusSteps) ∧
    (s.shared.status ≠ .none →
      Run.Once (collectorProgram (Config.minDataReceiveNum n) enableViewchange).next
        (fun s => s.shared.reference ≠ none) { shared := { seq } } actions) ∧
    (Status.readyCommit.rank ≤ s.shared.status.rank →
      ∃ hash, Config.minDataReceiveNum n ≤ (sent seq .prepare hash s.made).card) ∧
    (Status.readyExecute.rank ≤ s.shared.status.rank →
      ∃ hash, Config.minDataReceiveNum n ≤ (sent seq .commit hash s.made).card) ∧
    s.shared.executed.length ≤ 1 := by
  have good := ((collectorOutline (Config.minDataReceiveNum n) enableViewchange seq).valid_run
    ran).good
  refine ⟨fun _ _ taken => next_status taken, ?_, good.prepared, good.committed, good.once⟩
  intro started
  have caused := Run.once_of_effect
    (fun _ _ _ valid taken => Threads.Program.Outline.Valid.next valid taken)
    (fun _ _ _ valid taken shows => next_shows_main valid taken shows)
    (collectorOutline (Config.minDataReceiveNum n) enableViewchange seq).valid_initial ran
    (.inl started)
  refine caused.resolve_left ?_
  rintro (already | ⟨t, call, found, -⟩)
  · exact already rfl
  · cases found

/-- The proposal, three PREPAREs and four COMMITs of four replicas, all at once. The last two
COMMITs find the status `READY_EXECUTE`, and the fourth is the first to change it. -/
def sampleRace : List (Threads.Action RequestInfo) :=
  let prepares := [1, 2, 3].map (fun i : ℕ => .enter i (Collector.sampleMessage .prepare [5] i))
  let commits := [1, 2, 3, 4].map (fun i : ℕ =>
    .enter (3 + i) (Collector.sampleMessage .commit [5] i))
  let turns := List.replicate 10 0 ++
    [1, 2, 3, 1, 2, 3] ++ List.replicate 5 1 ++ List.replicate 5 2 ++ List.replicate 6 3 ++
    [4, 5, 6, 7, 4, 5, 6, 7] ++ [4, 5, 6, 7].flatMap (List.replicate 5) ++ [6, 7, 6, 7, 7, 7]
  .enter 0 (Collector.sampleMessage .prePrepare [5] 1) :: prepares ++ commits ++ turns.map .step

/-- The race ends in one execution. -/
theorem sampleRace_once : ∃ s,
    Run.exec (collectorProgram (Config.minDataReceiveNum 4) false).next { shared := { seq := 1 } }
      sampleRace = some s ∧ s.shared.status = .executed ∧ s.shared.executed.length ≤ 1 := by
  have runs : (Run.exec (collectorProgram (Config.minDataReceiveNum 4) false).next
      { shared := { seq := 1 } } sampleRace).map (fun s => s.shared.status) = some .executed := by
    decide +kernel
  obtain ⟨s, ran, status⟩ := Option.map_eq_some_iff.mp runs
  exact ⟨s, ran, status, (status_machine 4 false 1 sampleRace s ran).2.2.2.2⟩

end ResDB.Pbft
