import Mathlib.Tactic
import ResDB.Library.Run
import ResDB.SlotHs1.Protocol
import ResDB.TdHotstuff.Protocol

/-! `AsyncSend` of the slotted protocols as the thread it is: between two of its actions the
other threads may queue transactions, change the view or stop the replica. `TdHotstuff` waits
until it leads and then takes a transaction, `SlotHotStuff1` takes one and then waits. -/
namespace ResDB.HotStuff

/-- Where the thread is. `leading` is a point of TD-HotStuff only, `holding` and `refreshing`
are points of slotted HotStuff-1. -/
inductive SendPoint where
  | top
  | leading
  | holding
  | chosen
  | refreshing
  | proposing
  | done
  deriving DecidableEq

/-- `hand` is the variable `txn`. What was taken from `txns_` and what was proposed is kept as
history. -/
structure Sender (P : SlotProtocol) where
  replica : Replica P
  point : SendPoint := .top
  hand : Option Transaction := none
  stop : Bool := false
  taken : List Transaction := []
  made : List Proposal := []

/-- What the other threads do, and one action of `AsyncSend` with the outcome of its timer
test. A handler may leave any state of the manager behind. -/
inductive SendEvent where
  | receiveTransaction (now : ℕ) (txn : Transaction)
  | handler (manager : ProposalManager) (ready : Bool)
  | stop
  | proceed (isFinal : Bool) (now : ℕ)

namespace Sender
variable {P : SlotProtocol}

def start (P : SlotProtocol) (id : Int) : Sender P := { replica := P.start id }

/-- The thread returns, and with it goes the transaction in hand. -/
def finish (s : Sender P) : Sender P := { s with point := .done, hand := none }

/-- `txn = txns_.Pop()`. On an empty queue it returns `nullptr` after a timeout. -/
def pop (s : Sender P) (found missing : SendPoint) : Sender P :=
  match s.replica.txns with
  | [] => { s with hand := none, point := missing }
  | txn :: rest =>
      { s with replica := { s.replica with txns := rest }, hand := some txn, point := found
               taken := s.taken ++ [txn] }

def late (s : Sender P) : Bool := s.replica.slot = 0 ∧ (P.totalNum : Int) < s.replica.manager.round

/-- The rollback attack makes a second proposal of the same transaction. -/
def forks (id : Int) (s : Sender P) : Bool :=
  id < 3 * P.rollbackNum ∧ id.tmod 3 = 1 ∧ s.replica.slot = 0

/-- The end of an iteration: the proposal, the next slot, and back to the top. -/
def propose (id : Int) (s : Sender P) (isFinal : Bool) (now : ℕ) : Sender P :=
  match s.hand with
  | none => s
  | some txn =>
      let r := s.replica
      let p := P.generateProposal id r.manager [txn] r.slot isFinal now
      let fake := P.generateFakeProposal id r.manager [txn] r.slot isFinal now
      { s with
        replica := { r with ready := false, slot := if isFinal then 0 else r.slot + 1 }
        made := s.made ++ (if s.forks id then [p, fake] else [p])
        hand := none
        point := .top }

def observe (id : Int) (s : Sender P) : SendEvent → Sender P
  | .receiveTransaction now txn => { s with replica := P.receiveTransaction id now s.replica txn }
  | .handler manager ready =>
      { s with replica := { s.replica with manager := manager, ready := ready } }
  | .stop => { s with stop := true }
  | .proceed _ _ => s

variable {id : Int}

theorem propose_asyncSend {r r' : Replica P} {isFinal : Bool} {now : ℕ} {made : List Proposal}
    {sent : List Envelope} (iteration : P.asyncSend id r isFinal now = some (r', made, sent)) :
    P.Ready id r = true ∧ ∃ txn rest,
      P.takeTransaction (r.slot = 0 ∧ (P.totalNum : Int) < r.manager.round) r.txns =
        some (txn, rest) ∧
      ∀ taken, propose id { replica := { r with txns := rest }, point := .proposing
                            hand := some txn, taken := taken } isFinal now =
        { replica := r', taken := taken, made := made } := by
  unfold SlotProtocol.asyncSend at iteration
  cases ready : P.Ready id r with
  | false => simp [ready] at iteration
  | true =>
      simp only [ready, Bool.not_true, Bool.false_eq_true, if_false] at iteration
      split at iteration
      · cases iteration
      · rename_i txn rest chosen
        refine ⟨rfl, txn, rest, chosen, ?_⟩
        intro taken
        by_cases fork : id < 3 * P.rollbackNum ∧ id.tmod 3 = 1 ∧ r.slot = 0
        · rw [if_pos fork] at iteration
          cases iteration
          simp only [propose, forks, fork]
          rfl
        · rw [if_neg fork] at iteration
          cases iteration
          simp only [propose, forks, fork, decide_false, Bool.false_eq_true, if_false]
          rfl

end Sender
end ResDB.HotStuff

namespace ResDB.TdHotstuff
open HotStuff

/-- `TdHotstuff::AsyncSend`. Past the warm-up a second transaction replaces the one in hand if
there is one. -/
def proceed {P : SlotProtocol} (id : Int) (s : Sender P) (isFinal : Bool) (now : ℕ) : Sender P :=
  match s.point with
  | .top =>
      if s.stop then s.finish
      else if P.Ready id s.replica then { s with point := .leading } else s
  | .leading => if s.stop then s.finish else s.pop .chosen .top
  | .chosen =>
      if s.late ∧ s.replica.txns ≠ [] then s.pop .proposing .proposing
      else { s with point := .proposing }
  | .proposing => s.propose id isFinal now
  | .holding | .refreshing | .done => s

def sendStep {P : SlotProtocol} (id : Int) (s : Sender P) : SendEvent → Sender P
  | .proceed isFinal now => proceed id s isFinal now
  | event => s.observe id event

section Iteration
variable {P : SlotProtocol} {id : Int} {r : Replica P} {isFinal : Bool} {now : ℕ}
  {txn : Transaction} {rest : List Transaction}

theorem proceed_to_proposing (ready : P.Ready id r = true)
    (chosen : takeTransaction (r.slot = 0 ∧ (P.totalNum : Int) < r.manager.round) r.txns =
      some (txn, rest)) :
    ∃ taken, (List.replicate 3 (.proceed isFinal now)).foldl (sendStep id) { replica := r } =
      ({ replica := { r with txns := rest }, point := .proposing, hand := some txn
         taken := taken } : Sender P) := by
  have leads : sendStep id ({ replica := r } : Sender P) (.proceed isFinal now) =
      { replica := r, point := .leading } := by
    simp [sendStep, proceed, ready]
  obtain ⟨first, others, queue⟩ : ∃ first others, r.txns = first :: others := by
    cases queue : r.txns with
    | nil => simp [queue, takeTransaction] at chosen
    | cons first others => exact ⟨first, others, rfl⟩
  have takes : sendStep id ({ replica := r, point := .leading } : Sender P)
      (.proceed isFinal now) = { replica := { r with txns := others }, point := .chosen
                                 hand := some first, taken := [first] } := by
    simp [sendStep, proceed, Sender.pop, queue]
  rw [List.replicate_succ, List.foldl_cons, leads, List.replicate_succ, List.foldl_cons, takes]
  by_cases late : r.slot = 0 ∧ (P.totalNum : Int) < r.manager.round
  · rw [decide_eq_true late, queue] at chosen
    cases others with
    | nil =>
        cases chosen
        exact ⟨[txn], by simp [sendStep, proceed]⟩
    | cons fresh others =>
        cases chosen
        exact ⟨[first, txn], by simp [sendStep, proceed, Sender.pop, Sender.late, late]⟩
  · have first : takeTransaction false (first :: others) = some (first, others) := by
      cases others <;> rfl
    rw [decide_eq_false late, queue, first] at chosen
    cases chosen
    exact ⟨[txn], by simp [sendStep, proceed, Sender.late, late]⟩

end Iteration

theorem proceed_asyncSend (cfg : Config) (id : Int) {r r' : Replica (protocol cfg)}
    {isFinal : Bool} {now : ℕ} {made : List Proposal} {sent : List Envelope}
    (iteration : (protocol cfg).asyncSend id r isFinal now = some (r', made, sent)) :
    ∃ taken, (List.replicate 4 (.proceed isFinal now)).foldl (sendStep id) { replica := r } =
      { replica := r', taken := taken, made := made } := by
  obtain ⟨ready, txn, rest, chosen, propose⟩ := Sender.propose_asyncSend iteration
  obtain ⟨taken, ahead⟩ := proceed_to_proposing ready chosen
  refine ⟨taken, ?_⟩
  rw [List.replicate_succ', List.foldl_concat, ahead]
  exact propose taken

end ResDB.TdHotstuff

namespace ResDB.SlotHs1
open HotStuff

/-- `SlotHotStuff1::AsyncSend`. Past the warm-up the variable `txn` is overwritten until `Pop`
returns something, so the transaction in hand is gone with the first call. -/
def proceed {P : SlotProtocol} (id : Int) (s : Sender P) (isFinal : Bool) (now : ℕ) : Sender P :=
  match s.point with
  | .top => if s.stop then s.finish else s.pop .holding .top
  | .holding =>
      if s.stop then s.finish
      else if P.Ready id s.replica then { s with point := .chosen } else s
  | .chosen =>
      if s.stop then s.finish
      else if s.late then s.pop .proposing .refreshing
      else { s with point := .proposing }
  | .refreshing => s.pop .proposing .refreshing
  | .proposing => s.propose id isFinal now
  | .leading | .done => s

def sendStep {P : SlotProtocol} (id : Int) (s : Sender P) : SendEvent → Sender P
  | .proceed isFinal now => proceed id s isFinal now
  | event => s.observe id event

section Iteration
variable {P : SlotProtocol} {id : Int} {r : Replica P} {isFinal : Bool} {now : ℕ}
  {txn : Transaction} {rest : List Transaction}

theorem proceed_to_proposing (ready : P.Ready id r = true)
    (chosen : takeTransaction (r.slot = 0 ∧ (P.totalNum : Int) < r.manager.round) r.txns =
      some (txn, rest)) :
    ∃ taken, (List.replicate 3 (.proceed isFinal now)).foldl (sendStep id) { replica := r } =
      ({ replica := { r with txns := rest }, point := .proposing, hand := some txn
         taken := taken } : Sender P) := by
  obtain ⟨first, others, queue⟩ : ∃ first others, r.txns = first :: others := by
    cases queue : r.txns with
    | nil => simp [queue, takeTransaction] at chosen
    | cons first others => exact ⟨first, others, rfl⟩
  have takes : sendStep id ({ replica := r } : Sender P) (.proceed isFinal now) =
      { replica := { r with txns := others }, point := .holding
        hand := some first, taken := [first] } := by
    simp [sendStep, proceed, Sender.pop, queue]
  have still : P.Ready id { r with txns := others } = true := ready
  have leads : sendStep id ({ replica := { r with txns := others }, point := .holding
                              hand := some first, taken := [first] } : Sender P)
      (.proceed isFinal now) = { replica := { r with txns := others }, point := .chosen
                                 hand := some first, taken := [first] } := by
    simp [sendStep, proceed, still]
  rw [List.replicate_succ, List.foldl_cons, takes, List.replicate_succ, List.foldl_cons, leads]
  by_cases late : r.slot = 0 ∧ (P.totalNum : Int) < r.manager.round
  · rw [decide_eq_true late, queue] at chosen
    cases others with
    | nil => cases chosen
    | cons fresh others =>
        cases chosen
        exact ⟨[first, txn], by simp [sendStep, proceed, Sender.pop, Sender.late, late]⟩
  · have first : takeTransaction false (first :: others) = some (first, others) := by
      cases others <;> rfl
    rw [decide_eq_false late, queue, first] at chosen
    cases chosen
    exact ⟨[txn], by simp [sendStep, proceed, Sender.late, late]⟩

end Iteration

theorem proceed_asyncSend (cfg : Config) (id : Int) {r r' : Replica (protocol cfg)}
    {isFinal : Bool} {now : ℕ} {made : List Proposal} {sent : List Envelope}
    (iteration : (protocol cfg).asyncSend id r isFinal now = some (r', made, sent)) :
    ∃ taken, (List.replicate 4 (.proceed isFinal now)).foldl (sendStep id) { replica := r } =
      { replica := r', taken := taken, made := made } := by
  obtain ⟨ready, txn, rest, chosen, propose⟩ := Sender.propose_asyncSend iteration
  obtain ⟨taken, ahead⟩ := proceed_to_proposing ready chosen
  refine ⟨taken, ?_⟩
  rw [List.replicate_succ', List.foldl_concat, ahead]
  exact propose taken

end ResDB.SlotHs1
