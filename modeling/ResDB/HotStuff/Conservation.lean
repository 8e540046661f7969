import Mathlib.Tactic
import ResDB.HotStuff.SendLoop

/-! Which transactions the send loops lose. What was taken from the queue is what the
proposals contain, up to the transaction in hand, until a step overwrites or abandons the one
in hand or proposes it twice. -/
namespace ResDB.HotStuff

def SendPoint.inHand : SendPoint → Bool
  | .holding | .chosen | .proposing => true
  | .top | .leading | .refreshing | .done => false

namespace Sender
variable {P : SlotProtocol} {s : Sender P} {id : Int}

/-- Every transaction taken is in exactly one proposal, or is the one in hand. -/
def Conserved (s : Sender P) : Prop :=
  s.taken.Perm (s.made.flatMap Proposal.transactions ++ s.hand.toList)

/-- The thread has a transaction exactly where its code says so. -/
def Placed (s : Sender P) : Prop := s.hand.isSome = s.point.inHand

theorem placed_start (P : SlotProtocol) (id : Int) : (start P id).Placed := rfl

theorem Conserved.length (conserved : s.Conserved) :
    s.taken.length = (s.made.flatMap Proposal.transactions).length + s.hand.toList.length := by
  rw [List.Perm.length_eq conserved, List.length_append]

theorem Placed.none (placed : s.Placed) (out : s.point.inHand = false) : s.hand = none := by
  rw [Placed, out] at placed
  exact Option.isSome_eq_false_iff.mp placed |> Option.isNone_iff_eq_none.mp

theorem Placed.some (placed : s.Placed) (inside : s.point.inHand = true) :
    ∃ txn, s.hand = some txn := by
  rw [Placed, inside] at placed
  exact Option.isSome_iff_exists.mp placed

theorem conserved_pop_iff (conserved : s.Conserved) (found missing : SendPoint) :
    (s.pop found missing).Conserved ↔ s.hand = none := by
  have before := conserved.length
  cases held : s.hand with
  | none =>
      simp only [Conserved, held, Option.toList_none, List.append_nil] at conserved
      unfold pop
      cases s.replica.txns with
      | nil => simpa [Conserved] using conserved
      | cons txn rest => simpa [Conserved] using conserved.append_right [txn]
  | some txn =>
      simp only [held, Option.toList_some, List.length_singleton] at before
      simp only [reduceCtorEq, iff_false]
      intro after
      have size := after.length
      unfold pop at size
      cases queue : s.replica.txns with
      | nil =>
          simp only [queue, Option.toList_none, List.length_nil] at size
          omega
      | cons fresh rest =>
          simp only [queue, Option.toList_some, List.length_append, List.length_singleton] at size
          omega

theorem conserved_finish_iff (conserved : s.Conserved) : s.finish.Conserved ↔ s.hand = none := by
  have before := conserved.length
  cases held : s.hand with
  | none =>
      simp only [Conserved, held] at conserved
      simpa [Conserved, finish] using conserved
  | some txn =>
      simp only [held, Option.toList_some, List.length_singleton] at before
      simp only [reduceCtorEq, iff_false]
      intro after
      have size := after.length
      simp only [finish, Option.toList_none, List.length_nil] at size
      omega

theorem conserved_propose_iff (conserved : s.Conserved) {txn : Transaction}
    (held : s.hand = some txn) (isFinal : Bool) (now : ℕ) :
    (s.propose id isFinal now).Conserved ↔ s.forks id = false := by
  have before := conserved.length
  simp only [held, Option.toList_some, List.length_singleton] at before
  cases fork : s.forks id with
  | false =>
      simp only [Conserved, held, Option.toList_some] at conserved
      simpa [Conserved, propose, held, fork, SlotProtocol.generateProposal, generateWith]
        using conserved
  | true =>
      simp only [Bool.true_eq_false, iff_false]
      intro after
      have size := after.length
      simp [propose, held, fork, SlotProtocol.generateProposal, SlotProtocol.generateFakeProposal,
        generateWith] at size
      simp only [List.length_flatMap] at before
      omega

theorem conserved_observe (conserved : s.Conserved) (event : SendEvent) :
    (s.observe id event).Conserved := by
  cases event <;> exact conserved

theorem placed_pop {found missing : SendPoint} (inside : found.inHand = true)
    (out : missing.inHand = false) : (s.pop found missing).Placed := by
  unfold pop
  cases s.replica.txns with
  | nil => simpa [Placed] using out
  | cons txn rest => simpa [Placed] using inside

theorem placed_move (placed : s.Placed) {point : SendPoint}
    (same : s.point.inHand = point.inHand) : Placed { s with point := point } :=
  placed.trans same

theorem placed_propose (placed : s.Placed) (isFinal : Bool) (now : ℕ) :
    (s.propose id isFinal now).Placed := by
  unfold propose
  cases held : s.hand with
  | none => exact placed
  | some txn => rfl

theorem placed_observe (placed : s.Placed) (event : SendEvent) :
    (s.observe id event).Placed := by
  cases event <;> exact placed

end Sender
end ResDB.HotStuff

namespace ResDB.TdHotstuff
open HotStuff
variable {P : SlotProtocol} {s : Sender P} {id : Int}

/-- The step neither replaces the transaction in hand by a later one nor proposes it twice. -/
def Spares (id : Int) (s : Sender P) : SendEvent → Prop
  | .proceed _ _ =>
      (s.point = .chosen → ¬(s.late = true ∧ s.replica.txns ≠ [])) ∧
        (s.point = .proposing → s.forks id = false)
  | _ => True

theorem placed_sendStep (placed : s.Placed) (event : SendEvent) : (sendStep id s event).Placed := by
  cases event with
  | receiveTransaction now txn => exact Sender.placed_observe placed _
  | handler manager ready => exact Sender.placed_observe placed _
  | stop => exact Sender.placed_observe placed _
  | proceed isFinal now =>
      simp only [sendStep, proceed]
      cases point : s.point with
      | top =>
          simp only
          split_ifs
          · rfl
          · exact Sender.placed_move placed (by rw [point]; rfl)
          · exact placed
      | leading =>
          simp only
          split_ifs
          · rfl
          · exact Sender.placed_pop rfl rfl
      | chosen =>
          simp only
          split_ifs with replaced
          · unfold Sender.pop
            cases queue : s.replica.txns with
            | nil => exact absurd queue replaced.2
            | cons fresh rest => rfl
          · exact Sender.placed_move placed (by rw [point]; rfl)
      | proposing => exact Sender.placed_propose placed isFinal now
      | holding => exact placed
      | refreshing => exact placed
      | done => exact placed

theorem conserved_sendStep_iff (placed : s.Placed) (conserved : s.Conserved) (event : SendEvent) :
    (sendStep id s event).Conserved ↔ Spares id s event := by
  cases event with
  | receiveTransaction now txn =>
      exact iff_of_true (Sender.conserved_observe conserved _) trivial
  | handler manager ready => exact iff_of_true (Sender.conserved_observe conserved _) trivial
  | stop => exact iff_of_true (Sender.conserved_observe conserved _) trivial
  | proceed isFinal now =>
      simp only [sendStep, proceed, Spares]
      cases point : s.point with
      | top =>
          have empty := placed.none (by rw [point]; rfl)
          simp only [reduceCtorEq, false_implies, and_self, iff_true]
          split_ifs
          · exact (Sender.conserved_finish_iff conserved).mpr empty
          · exact conserved
          · exact conserved
      | leading =>
          have empty := placed.none (by rw [point]; rfl)
          simp only [reduceCtorEq, false_implies, and_self, iff_true]
          split_ifs
          · exact (Sender.conserved_finish_iff conserved).mpr empty
          · exact (Sender.conserved_pop_iff conserved _ _).mpr empty
      | chosen =>
          obtain ⟨txn, held⟩ := placed.some (by rw [point]; rfl)
          simp only [reduceCtorEq, false_implies, and_true, true_implies]
          split_ifs with replaced
          · simp [Sender.conserved_pop_iff conserved, held, replaced]
          · exact iff_of_true conserved replaced
      | proposing =>
          obtain ⟨txn, held⟩ := placed.some (by rw [point]; rfl)
          simp only [reduceCtorEq, false_implies, true_and, true_implies]
          exact Sender.conserved_propose_iff conserved held isFinal now
      | holding => simpa using conserved
      | refreshing => simpa using conserved
      | done => simpa using conserved

end ResDB.TdHotstuff

namespace ResDB.SlotHs1
open HotStuff
variable {P : SlotProtocol} {s : Sender P} {id : Int}

/-- The step neither takes another transaction while one is in hand, nor stops with it, nor
proposes it twice. -/
def Spares (id : Int) (s : Sender P) : SendEvent → Prop
  | .proceed _ _ =>
      (s.point = .holding → s.stop = false) ∧
        (s.point = .chosen → s.stop = false ∧ s.late = false) ∧
        (s.point = .proposing → s.forks id = false)
  | _ => True

theorem placed_sendStep (placed : s.Placed) (event : SendEvent) : (sendStep id s event).Placed := by
  cases event with
  | receiveTransaction now txn => exact Sender.placed_observe placed _
  | handler manager ready => exact Sender.placed_observe placed _
  | stop => exact Sender.placed_observe placed _
  | proceed isFinal now =>
      simp only [sendStep, proceed]
      cases point : s.point with
      | top =>
          simp only
          split_ifs
          · rfl
          · exact Sender.placed_pop rfl rfl
      | holding =>
          simp only
          split_ifs
          · rfl
          · exact Sender.placed_move placed (by rw [point]; rfl)
          · exact placed
      | chosen =>
          simp only
          split_ifs
          · rfl
          · exact Sender.placed_pop rfl rfl
          · exact Sender.placed_move placed (by rw [point]; rfl)
      | refreshing => exact Sender.placed_pop rfl rfl
      | proposing => exact Sender.placed_propose placed isFinal now
      | leading => exact placed
      | done => exact placed

theorem conserved_sendStep_iff (placed : s.Placed) (conserved : s.Conserved) (event : SendEvent) :
    (sendStep id s event).Conserved ↔ Spares id s event := by
  cases event with
  | receiveTransaction now txn =>
      exact iff_of_true (Sender.conserved_observe conserved _) trivial
  | handler manager ready => exact iff_of_true (Sender.conserved_observe conserved _) trivial
  | stop => exact iff_of_true (Sender.conserved_observe conserved _) trivial
  | proceed isFinal now =>
      simp only [sendStep, proceed, Spares]
      cases point : s.point with
      | top =>
          have empty := placed.none (by rw [point]; rfl)
          simp only [reduceCtorEq, false_implies, and_self, iff_true]
          split_ifs
          · exact (Sender.conserved_finish_iff conserved).mpr empty
          · exact (Sender.conserved_pop_iff conserved _ _).mpr empty
      | holding =>
          obtain ⟨txn, held⟩ := placed.some (by rw [point]; rfl)
          simp only [reduceCtorEq, false_implies, and_true, true_implies]
          split_ifs with stopped leads
          · simp [Sender.conserved_finish_iff conserved, held, stopped]
          · exact iff_of_true conserved (by simpa using stopped)
          · exact iff_of_true conserved (by simpa using stopped)
      | chosen =>
          obtain ⟨txn, held⟩ := placed.some (by rw [point]; rfl)
          simp only [reduceCtorEq, false_implies, and_true, true_and, true_implies]
          split_ifs with stopped late
          · simp [Sender.conserved_finish_iff conserved, held, stopped]
          · simp [Sender.conserved_pop_iff conserved, held, late]
          · exact iff_of_true conserved ⟨by simpa using stopped, by simpa using late⟩
      | refreshing =>
          have empty := placed.none (by rw [point]; rfl)
          simp only [reduceCtorEq, false_implies, and_self, iff_true]
          exact (Sender.conserved_pop_iff conserved _ _).mpr empty
      | proposing =>
          obtain ⟨txn, held⟩ := placed.some (by rw [point]; rfl)
          simp only [reduceCtorEq, false_implies, true_and, true_implies]
          exact Sender.conserved_propose_iff conserved held isFinal now
      | leading => simpa using conserved
      | done => simpa using conserved

end ResDB.SlotHs1

namespace ResDB.HotStuff

/-- In both protocols the transactions taken are those of the proposals, each once, at every
moment of a run exactly when every step meets its condition: for TD-HotStuff, that no later
transaction is popped in slot 0 past the warm-up; for slotted HotStuff-1, that slot 0 past the
warm-up is never reached with a transaction in hand and the replica does not stop with one; and
for both, that the rollback attack makes no second proposal. -/
theorem taken_proposed_once_iff (td : TdHotstuff.Config) (slotted : SlotHs1.Config) (id : Int)
    (events : List SendEvent) :
    ((∀ made, made <+: events →
        (made.foldl (TdHotstuff.sendStep id) (.start (TdHotstuff.protocol td) id)).Conserved) ↔
      ∀ made event, made ++ [event] <+: events → TdHotstuff.Spares id
        (made.foldl (TdHotstuff.sendStep id) (.start (TdHotstuff.protocol td) id)) event) ∧
    ((∀ made, made <+: events →
        (made.foldl (SlotHs1.sendStep id) (.start (SlotHs1.protocol slotted) id)).Conserved) ↔
      ∀ made event, made ++ [event] <+: events → SlotHs1.Spares id
        (made.foldl (SlotHs1.sendStep id) (.start (SlotHs1.protocol slotted) id)) event) := by
  constructor
  · exact Run.holds_iff_steps (Sender.placed_start _ id)
      (fun s event placed => TdHotstuff.placed_sendStep placed event) (List.Perm.refl _)
      (fun s event placed conserved => TdHotstuff.conserved_sendStep_iff placed conserved event)
  · exact Run.holds_iff_steps (Sender.placed_start _ id)
      (fun s event placed => SlotHs1.placed_sendStep placed event) (List.Perm.refl _)
      (fun s event placed conserved => SlotHs1.conserved_sendStep_iff placed conserved event)

/-- Two transactions are queued when the replica leads a view past the warm-up. -/
def lateViewEvents (round : Int) : List SendEvent :=
  [.receiveTransaction 0 { data := [1] }, .receiveTransaction 0 { data := [2] },
    .handler { round := round, genericQC := { view := round - 1, hash := [7], isFinal := true } }
      true] ++ List.replicate 4 (.proceed false 0)

def lateTdSender : Sender (TdHotstuff.protocol ⟨.sample, .sample, [3, 1], by decide, 0, 0, 0⟩) :=
  (lateViewEvents 3).foldl (TdHotstuff.sendStep 1) (.start _ 1)

/-- Replica 2 of four in view 5 of slotted HotStuff-1. -/
def lateSlotSender : Sender (SlotHs1.protocol ⟨.sample, .sample, 4, 1, 0, 0⟩) :=
  (lateViewEvents 5).foldl (SlotHs1.sendStep 2) (.start _ 2)

/-- Both have taken two transactions and proposed the second one only. -/
theorem first_transaction_dropped :
    (lateTdSender.point = .top ∧ lateTdSender.taken.map Transaction.data = [[1], [2]] ∧
      lateTdSender.made.map (fun p => p.transactions.map Transaction.data) = [[[2]]] ∧
      ¬lateTdSender.Conserved) ∧
    (lateSlotSender.point = .top ∧ lateSlotSender.taken.map Transaction.data = [[1], [2]] ∧
      lateSlotSender.made.map (fun p => p.transactions.map Transaction.data) = [[[2]]] ∧
      ¬lateSlotSender.Conserved) := by
  refine ⟨⟨by decide, by decide, by decide, ?_⟩, ⟨by decide, by decide, by decide, ?_⟩⟩
  · intro conserved
    exact absurd conserved.length (by decide)
  · intro conserved
    exact absurd conserved.length (by decide)

end ResDB.HotStuff
