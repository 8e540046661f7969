import Mathlib.Data.List.Count
import Mathlib.Tactic
import ResDB.Library.Run
import ResDB.Pbft.Request

/-! The way of a request into a PBFT replica: `ConsensusManagerPBFT::ConsensusCommit` on any number
of threads. During a view change the messages of the ordering protocol are put aside, and the first
call after it goes through them. A request that comes to a replica which is not the primary is
forwarded, kept as a complaint, and taken up again when the replica becomes the primary. No request
is lost on this way, and none is taken up twice. -/
namespace ResDB.Pbft

/-- What a call goes on with when `InternalConsensusCommit` is through: the loop over the requests
put aside with its own request still to come, the end, or the loop over the complaints. -/
inductive Return where
  | drain (own : RequestInfo)
  | leave
  | take
  deriving DecidableEq

/-- Where a call of `ConsensusCommit` is. `hash` is of the request that was forwarded. -/
inductive IntakeCall where
  | arrived (own : RequestInfo)
  | draining (own : RequestInfo)
  | handling (m : RequestInfo) (back : Return)
  | forwarded (hash : Bytes) (back : Return)
  | carrying (m : RequestInfo) (hash : Bytes) (back : Return)
  | arming (hash : Bytes) (back : Return)
  | taking
  deriving DecidableEq

/-- What `InternalConsensusCommit` made of a request: −3 of `ProcessNewRequest`, −4 of
`ProcessNewView`, or anything else. -/
inductive Handled where
  | settled
  | forwarded
  | becamePrimary
  deriving DecidableEq

/-- `request_pending_`, the `request_complained_` of the commitment and the one of the manager. The
histories are the requests received, those that a handler is through with, those put aside and
those of them taken up again, those forwarded to the primary, and the hashes that
`AddComplaintTimer` was called with. `broken` is set where the front of an empty queue is taken. -/
structure Intake where
  pending : List RequestInfo := []
  forwards : List RequestInfo := []
  complained : List RequestInfo := []
  calls : List IntakeCall := []
  received : List RequestInfo := []
  settled : List RequestInfo := []
  aside : List RequestInfo := []
  resumed : List RequestInfo := []
  sent : List RequestInfo := []
  timers : List Bytes := []
  broken : Bool := false

inductive IntakeAction where
  | receive (m : RequestInfo)
  | proceed (place : ℕ) (inViewChange : Bool) (handled : Handled)

def RequestType.deferred : RequestType → Bool
  | .newTxns | .prePrepare | .prepare | .commit => true
  | .none | .response | .checkpoint | .viewChange | .newView | .other _ => false

def Handled.fits (type : RequestType) : Handled → Bool
  | .settled => true
  | .forwarded => type = .newTxns
  | .becamePrimary => type = .newView

def Return.next : Return → List IntakeCall
  | .drain own => [.draining own]
  | .leave => []
  | .take => [.taking]

namespace Intake
variable (enableViewchange : Bool) (s : Intake)

/-- A handler returns. Only the request that a call came with makes it look for −4. -/
def handle (m : RequestInfo) (back : Return) : Handled → Intake × List IntakeCall
  | .settled => ({ s with settled := s.settled ++ [m] }, back.next)
  | .forwarded => ({ s with forwards := s.forwards ++ [m], sent := s.sent ++ [m] },
      [.forwarded m.request.hash back])
  | .becamePrimary => ({ s with settled := s.settled ++ [m] },
      if enableViewchange && back = .leave then [.taking] else back.next)

/-- The next step of a call, and the call after it. `none` where the outcome is none of the
handler's. -/
def proceed (inViewChange : Bool) (handled : Handled) :
    IntakeCall → Option (Intake × List IntakeCall)
  | .arrived own =>
      some (if enableViewchange then
        if inViewChange then
          if own.request.type.deferred then
            ({ s with pending := s.pending ++ [own], aside := s.aside ++ [own] }, [])
          else (s, [.handling own .leave])
        else (s, [.draining own])
      else (s, [.handling own .leave]))
  | .draining own =>
      some (match s.pending with
        | [] => (s, [.handling own .leave])
        | m :: rest => ({ s with pending := rest, resumed := s.resumed ++ [m] },
            [.handling m (.drain own)]))
  | .handling m back =>
      if handled.fits m.request.type then some (s.handle enableViewchange m back handled) else none
  | .forwarded hash back =>
      some (match s.forwards with
        | [] => ({ s with broken := true }, [])
        | m :: rest => ({ s with forwards := rest }, [.carrying m hash back]))
  | .carrying m hash back =>
      some ({ s with complained := s.complained ++ [m] }, [.arming hash back])
  | .arming hash back => some ({ s with timers := s.timers ++ [hash] }, back.next)
  | .taking =>
      some (match s.complained with
        | [] => (s, [])
        | m :: rest => ({ s with complained := rest }, [.handling m .take]))

def step (s : Intake) : IntakeAction → Option Intake
  | .receive m => some { s with calls := s.calls ++ [.arrived m], received := s.received ++ [m] }
  | .proceed place inViewChange handled =>
      s.calls[place]?.bind (fun call =>
        (s.proceed enableViewchange inViewChange handled call).map (fun (t, next) =>
          { t with calls := s.calls.eraseIdx place ++ next }))

end Intake

def Return.carries : Return → List RequestInfo
  | .drain own => [own]
  | .leave | .take => []

def IntakeCall.carries : IntakeCall → List RequestInfo
  | .arrived own | .draining own => [own]
  | .handling m back | .carrying m _ back => m :: back.carries
  | .forwarded _ back | .arming _ back => back.carries
  | .taking => []

def IntakeCall.owes : IntakeCall → List Bytes
  | .forwarded hash _ | .carrying _ hash _ | .arming hash _ => [hash]
  | .arrived _ | .draining _ | .handling _ _ | .taking => []

/-- A call that is to take a request from the queue of the commitment. -/
def IntakeCall.awaits : IntakeCall → ℕ
  | .forwarded _ _ => 1
  | .arrived _ | .draining _ | .handling _ _ | .carrying _ _ _ | .arming _ _ | .taking => 0

theorem Return.carries_next (back : Return) :
    back.next.flatMap (fun c => c.carries) = back.carries := by
  cases back <;> rfl

theorem Return.owes_next (back : Return) : back.next.flatMap (fun c => c.owes) = [] := by
  cases back <;> rfl

theorem Return.awaits_next (back : Return) : (back.next.map (fun c => c.awaits)).sum = 0 := by
  cases back <;> rfl

namespace Intake
variable {enableViewchange : Bool} {s s' : Intake}

def inHands (s : Intake) : List RequestInfo := s.calls.flatMap (fun c => c.carries)

def owed (s : Intake) : List Bytes := s.calls.flatMap (fun c => c.owes)

structure Conserved (s : Intake) : Prop where
  sound : s.broken = false
  requests : ∀ m, s.received.count m = s.settled.count m + s.pending.count m +
    s.forwards.count m + s.complained.count m + s.inHands.count m
  timed : ∀ hash, (s.sent.map (fun m => m.request.hash)).count hash =
    s.timers.count hash + s.owed.count hash
  matched : s.forwards.length = (s.calls.map (fun c => c.awaits)).sum
  queued : s.aside = s.resumed ++ s.pending

/-- What a step moves, against what the call had and what it has after it. -/
structure Moves (s t : Intake) (call : IntakeCall) (next : List IntakeCall) : Prop where
  received : t.received = s.received
  sound : t.broken = s.broken
  requests : ∀ m, t.settled.count m + t.pending.count m + t.forwards.count m +
      t.complained.count m + (next.flatMap (fun c => c.carries)).count m =
    s.settled.count m + s.pending.count m + s.forwards.count m + s.complained.count m +
      call.carries.count m
  timed : ∀ hash, (t.sent.map (fun m => m.request.hash)).count hash + s.timers.count hash +
      call.owes.count hash =
    (s.sent.map (fun m => m.request.hash)).count hash + t.timers.count hash +
      (next.flatMap (fun c => c.owes)).count hash
  matched : t.forwards.length + call.awaits =
    s.forwards.length + (next.map (fun c => c.awaits)).sum
  queued : s.aside = s.resumed ++ s.pending → t.aside = t.resumed ++ t.pending

theorem moves_settled (s : Intake) (m : RequestInfo) (back : Return) (next : List IntakeCall)
    (carries : next.flatMap (fun c => c.carries) = back.carries)
    (owes : next.flatMap (fun c => c.owes) = [])
    (awaits : (next.map (fun c => c.awaits)).sum = 0) :
    Moves s { s with settled := s.settled ++ [m] } (.handling m back) next := by
  refine ⟨rfl, rfl, fun q => ?_, fun hash => by rw [owes]; rfl, by rw [awaits]; rfl, id⟩
  rw [carries]
  simp only [IntakeCall.carries, List.count_append, List.count_cons, List.count_nil]
  omega

theorem moves_handle (enableViewchange : Bool) (s : Intake) (m : RequestInfo) (back : Return)
    (handled : Handled) :
    Moves s (s.handle enableViewchange m back handled).1 (.handling m back)
      (s.handle enableViewchange m back handled).2 := by
  cases handled with
  | settled =>
      exact moves_settled s m back back.next back.carries_next back.owes_next back.awaits_next
  | becamePrimary =>
      rw [handle]
      dsimp only
      split
      · next first =>
          rw [Bool.and_eq_true] at first
          rw [of_decide_eq_true first.2]
          exact moves_settled s m .leave [.taking] rfl rfl rfl
      · exact moves_settled s m back back.next back.carries_next back.owes_next back.awaits_next
  | forwarded =>
      refine ⟨rfl, rfl, fun q => ?_, fun hash => ?_, by simp [handle, IntakeCall.awaits], id⟩
      · simp [handle, IntakeCall.carries, List.count_cons]
        omega
      · simp [handle, IntakeCall.owes]
        omega

theorem moves_proceed {inViewChange : Bool} {handled : Handled} {call : IntakeCall} {t : Intake}
    {next : List IntakeCall}
    (taken : s.proceed enableViewchange inViewChange handled call = some (t, next))
    (available : call.awaits ≤ s.forwards.length) : Moves s t call next := by
  cases call with
  | arrived own =>
      rw [Intake.proceed] at taken
      have taken := Option.some.inj taken
      repeat' split at taken
      all_goals
        cases taken
        refine ⟨rfl, rfl, fun q => ?_, fun hash => rfl, rfl, fun queued => by simp [queued]⟩
        simp [IntakeCall.carries, Return.carries]
      all_goals try omega
  | draining own | taking =>
      rw [Intake.proceed] at taken
      have taken := Option.some.inj taken
      split at taken
      · cases taken
        exact ⟨rfl, rfl, fun q => rfl, fun hash => rfl, rfl, id⟩
      · next m rest queue =>
          cases taken
          refine ⟨rfl, rfl, fun q => ?_, fun hash => rfl, rfl, fun queued => by simp_all⟩
          simp [IntakeCall.carries, Return.carries, queue, List.count_cons]
          omega
  | handling m back =>
      rw [Intake.proceed] at taken
      split at taken
      · have moves := moves_handle enableViewchange s m back handled
        rw [Option.some.inj taken] at moves
        exact moves
      · cases taken
  | forwarded hash back =>
      rw [Intake.proceed] at taken
      have taken := Option.some.inj taken
      split at taken
      · next empty =>
          rw [empty] at available
          exact absurd available (Nat.not_succ_le_zero 0)
      · next m rest queue =>
          cases taken
          refine ⟨rfl, rfl, fun q => ?_, fun h => by simp [IntakeCall.owes],
            by simp [IntakeCall.awaits, queue], id⟩
          simp [IntakeCall.carries, queue, List.count_cons]
          omega
  | carrying m hash back =>
      cases taken
      refine ⟨rfl, rfl, fun q => ?_, fun h => by simp [IntakeCall.owes],
        by simp [IntakeCall.awaits], id⟩
      simp [IntakeCall.carries, List.count_cons]
      omega
  | arming hash back =>
      cases taken
      refine ⟨rfl, rfl, fun q => by rw [back.carries_next]; rfl, fun h => ?_,
        by rw [back.awaits_next]; rfl, id⟩
      rw [back.owes_next]
      simp [IntakeCall.owes]
      omega

theorem conserved_initial : Conserved {} :=
  ⟨rfl, fun _ => rfl, fun _ => rfl, rfl, rfl⟩

theorem Conserved.step (conserved : Conserved s) {a : IntakeAction}
    (taken : s.step enableViewchange a = some s') : Conserved s' := by
  cases a with
  | receive m =>
      cases taken
      refine ⟨conserved.sound, fun q => ?_, fun hash => ?_, ?_, conserved.queued⟩
      · have before := conserved.requests q
        simp only [inHands, List.flatMap_append, List.flatMap_cons, List.flatMap_nil,
          List.append_nil, IntakeCall.carries, List.count_append] at before ⊢
        omega
      · have before := conserved.timed hash
        simp only [owed, List.flatMap_append, List.flatMap_cons, List.flatMap_nil,
          List.append_nil, IntakeCall.owes] at before ⊢
        exact before
      · rw [List.map_append, List.sum_append]
        exact conserved.matched
  | proceed place inViewChange handled =>
      obtain ⟨call, found, taken⟩ := Option.bind_eq_some_iff.mp taken
      obtain ⟨⟨t, next⟩, made, rfl⟩ := Option.map_eq_some_iff.mp taken
      obtain ⟨inside, rfl⟩ := List.getElem?_eq_some_iff.mp found
      have perm := (List.getElem_cons_eraseIdx_perm inside).symm
      have awaiting := (perm.map (fun c => c.awaits)).sum_eq
      rw [List.map_cons, List.sum_cons, ← conserved.matched] at awaiting
      have moves := moves_proceed made (awaiting ▸ Nat.le_add_right _ _)
      refine ⟨moves.sound.trans conserved.sound, fun q => ?_, fun hash => ?_, ?_,
        moves.queued conserved.queued⟩
      · have before := conserved.requests q
        have carried := (List.Perm.flatMap_right (fun c => IntakeCall.carries c) perm).count_eq q
        have moved := moves.requests q
        rw [inHands] at before ⊢
        dsimp only
        rw [moves.received, List.flatMap_append, List.count_append]
        rw [List.flatMap_cons, List.count_append] at carried
        omega
      · have before := conserved.timed hash
        have owing := (List.Perm.flatMap_right (fun c => IntakeCall.owes c) perm).count_eq hash
        have moved := moves.timed hash
        rw [owed] at before ⊢
        dsimp only
        rw [List.flatMap_append, List.count_append]
        rw [List.flatMap_cons, List.count_append] at owing
        omega
      · have moved := moves.matched
        rw [List.map_append, List.sum_append]
        dsimp only
        omega

theorem conserved_of_run {actions : List IntakeAction}
    (ran : Run.exec (Intake.step enableViewchange) {} actions = some s) : Conserved s :=
  Run.exec_invariant_always (fun _ _ _ conserved taken => conserved.step taken) conserved_initial
    ran

/-- Whatever the threads and the handlers do and whenever the view changes: no thread takes from
an empty queue; every request received is at exactly one place, settled, put aside, in the hands of
a call or kept as a complaint; for every request forwarded a timer was asked for, or a call is
about to; and the requests put aside are taken up again in the order in which they came. -/
theorem no_request_lost {actions : List IntakeAction}
    (ran : Run.exec (Intake.step enableViewchange) {} actions = some s) :
    s.broken = false ∧
    s.received.Perm (s.settled ++ s.pending ++ s.forwards ++ s.complained ++ s.inHands) ∧
    (s.sent.map (fun m => m.request.hash)).Perm (s.timers ++ s.owed) ∧
    s.aside = s.resumed ++ s.pending := by
  have conserved := conserved_of_run ran
  refine ⟨conserved.sound, List.perm_iff_count.mpr (fun m => ?_),
    List.perm_iff_count.mpr (fun hash => ?_), conserved.queued⟩
  · rw [List.count_append, List.count_append, List.count_append, List.count_append]
    exact conserved.requests m
  · rw [List.count_append]
    exact conserved.timed hash

def sampleRequest (type : RequestType) (hash : Bytes) : RequestInfo :=
  ⟨{ type := type, hash := hash }, {}⟩

/-- A request is forwarded. Two more come during a view change, and are handled when the new view
is there, before the message of the new view, which makes the replica the primary; the complaint is
then taken up. -/
def sampleActions : List IntakeAction := List.flatten [
  [.receive (sampleRequest .newTxns [1]), .proceed 0 false .settled, .proceed 0 false .settled,
    .proceed 0 false .forwarded, .proceed 0 false .settled, .proceed 0 false .settled,
    .proceed 0 false .settled, .receive (sampleRequest .newTxns [2]), .proceed 0 true .settled,
    .receive (sampleRequest .prepare [3]), .proceed 0 true .settled,
    .receive (sampleRequest .newView [4])],
  List.replicate 6 (.proceed 0 false .settled),
  [.proceed 0 false .becamePrimary, .proceed 0 false .settled, .proceed 0 false .settled]]

theorem no_request_lost_sample : ∃ s,
    Run.exec (Intake.step true) {} sampleActions = some s ∧
    s.settled.map (fun m => m.request.hash) = [[2], [3], [4], [1]] ∧
    s.resumed.map (fun m => m.request.hash) = [[2], [3]] ∧ s.aside = s.resumed ++ s.pending ∧
    s.received.Perm (s.settled ++ s.pending ++ s.forwards ++ s.complained ++ s.inHands) := by
  have outcome : (Run.exec (Intake.step true) {} sampleActions).any
      (fun s => s.settled.map (fun m => m.request.hash) = [[2], [3], [4], [1]] ∧
        s.resumed.map (fun m => m.request.hash) = [[2], [3]]) = true := by
    decide +kernel
  obtain ⟨s, ran, facts⟩ := (Option.any_eq_true _ _).mp outcome
  obtain ⟨settled, resumed⟩ := of_decide_eq_true facts
  have kept := no_request_lost ran
  exact ⟨s, ran, settled, resumed, kept.2.2.2, kept.2.1⟩

end Intake
end ResDB.Pbft
