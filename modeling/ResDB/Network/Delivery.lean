import Mathlib.Tactic
import ResDB.Network.Channel

/-! What arrives over the channel. At any time the messages called back are the first of those
handed to `SendMessage`, byte for byte. The rest follows unless a wake-up is lost: a call that
pushes its message after the sender found the queue empty and reads `in_process_` before the
sender has given it up leaves the message to nobody. -/
namespace ResDB.Network
open Framing (frame frames)

namespace Channel
variable {s s' : Channel}

/-- The messages that are handed over are called back, in the stream or in the queue, in this
order. -/
structure Carries (s : Channel) : Prop where
  process : s.client.inProcess = s.client.control.isSome
  fits : ∀ m ∈ s.handed, m ≠ [] ∧ m.length < 2 ^ 64
  reading : s.session.Reading
  sending : s.client.control = some .onSend → s.client.Sending
  stream : ∃ more, s.handed = s.session.delivered ++ more ++ s.client.queue ∧
    s.session.received ++ s.wire ++ s.client.unsent = frames more

section Steps

theorem Carries.queued_filled (carries : Carries s) {data : Bytes} {rest : List Bytes}
    (queued : s.client.queue = data :: rest) : data ≠ [] := by
  obtain ⟨more, order, -⟩ := carries.stream
  exact (carries.fits data (by simp [order, queued])).1

theorem Carries.still_sending (carries : Carries s) {c : AsyncReplicaClient}
    (status : c.status = s.client.status) (size : c.dataSize = s.client.dataSize)
    (pending : c.pendingData = s.client.pendingData)
    (buffer : c.sendingData = s.client.sendingData)
    (index : c.sendingDataIdx = s.client.sendingDataIdx)
    (sends : s.client.control = some .onSend) : c.Sending := by
  obtain ⟨phase, length, inside⟩ := carries.sending sends
  exact ⟨status ▸ phase, by rw [status, size, pending]; exact length,
    by rw [buffer, index]; exact inside⟩

theorem Carries.callers (carries : Carries s) {c : AsyncReplicaClient}
    (queue : c.queue = s.client.queue) (unsent : c.unsent = s.client.unsent)
    (process : c.inProcess = c.control.isSome)
    (sending : c.control = some .onSend → c.Sending) : Carries { s with client := c } := by
  obtain ⟨more, order, bytes⟩ := carries.stream
  refine ⟨process, carries.fits, carries.reading, sending, more, ?_, ?_⟩
  · rw [queue]
    exact order
  · rw [unsent]
    exact bytes

theorem Carries.push (carries : Carries s) {message : Bytes}
    (taken : s.step (.push message) = some s') : Carries s' := by
  obtain ⟨allowed, done⟩ := Option.ite_none_right_eq_some.mp taken
  cases done
  obtain ⟨more, order, bytes⟩ := carries.stream
  refine ⟨carries.process, ?_, carries.reading, carries.still_sending rfl rfl rfl rfl rfl, more,
    ?_, bytes⟩
  · intro m inside
    rcases List.mem_append.mp inside with before | new
    · exact carries.fits m before
    · rw [List.mem_singleton.mp new]
      exact allowed
  · simp [order, AsyncReplicaClient.push]

theorem Carries.load (carries : Carries s) (taken : s.step .load = some s') : Carries s' := by
  obtain ⟨-, done⟩ := Option.ite_none_right_eq_some.mp taken
  cases done
  exact carries.callers rfl rfl carries.process (carries.still_sending rfl rfl rfl rfl rfl)

theorem Carries.unsent_of_idle (carries : Carries s) (idle : s.client.inProcess = false) :
    s.client.control = none ∧ s.client.unsent = [] := by
  have none' : s.client.control = none := by
    rw [carries.process] at idle
    exact Option.isSome_eq_false_iff.mp idle |> Option.isNone_iff_eq_none.mp
  exact ⟨none', by simp [AsyncReplicaClient.unsent, none']⟩

theorem Carries.swap (carries : Carries s) (taken : s.step .swap = some s') : Carries s' := by
  obtain ⟨-, done⟩ := Option.ite_none_right_eq_some.mp taken
  cases done
  cases busy : s.client.inProcess with
  | true =>
      have same : s.client.swap = { s.client with swapping := s.client.swapping - 1 } := if_pos busy
      rw [same]
      exact carries.callers rfl rfl carries.process (carries.still_sending rfl rfl rfl rfl rfl)
  | false =>
      have same : s.client.swap =
          { s.client with
            swapping := s.client.swapping - 1
            inProcess := true
            control := some .onSendNewMessage } := by
        simp [AsyncReplicaClient.swap, busy]
      rw [same]
      refine carries.callers rfl ?_ rfl (fun sends => absurd sends (by simp))
      rw [(carries.unsent_of_idle busy).2]
      rfl

theorem Carries.pop (carries : Carries s) (taken : s.step .pop = some s') : Carries s' := by
  obtain ⟨popping, done⟩ := Option.ite_none_right_eq_some.mp taken
  cases done
  have nothing : s.client.unsent = [] := by simp [AsyncReplicaClient.unsent, popping]
  have busy : s.client.inProcess = true := by rw [carries.process, popping]; rfl
  obtain ⟨more, order, bytes⟩ := carries.stream
  cases queued : s.client.queue with
  | nil =>
      rw [AsyncReplicaClient.onSendNewMessage_nil queued]
      refine carries.callers rfl ?_ busy (fun sends => absurd sends (by simp))
      rw [nothing]
      rfl
  | cons data rest =>
      obtain ⟨control, unsent, sending, seen⟩ :=
        AsyncReplicaClient.onSendNewMessage_cons queued (carries.queued_filled queued)
      simp only [AsyncReplicaClient.callers, Prod.mk.injEq] at seen
      refine ⟨?_, carries.fits, carries.reading, fun _ => sending, more ++ [data], ?_, ?_⟩
      · rw [control, seen.2.1, busy]
        rfl
      · rw [seen.1, order, queued]
        simp
      · rw [unsent, Framing.frames_append, Framing.frames_singleton, ← bytes, nothing,
          List.append_nil]

theorem Carries.clear (carries : Carries s) (taken : s.step .clear = some s') : Carries s' := by
  obtain ⟨clearing, done⟩ := Option.ite_none_right_eq_some.mp taken
  cases done
  refine carries.callers rfl ?_ rfl (fun sends => absurd sends (by simp [AsyncReplicaClient.clear]))
  simp [AsyncReplicaClient.unsent, AsyncReplicaClient.clear, clearing]

theorem Carries.write (carries : Carries s) {n : ℕ} (taken : s.step (.write n) = some s') :
    Carries s' := by
  obtain ⟨⟨writing, -, -⟩, done⟩ := Option.ite_none_right_eq_some.mp taken
  cases done
  obtain ⟨more, order, bytes⟩ := carries.stream
  obtain ⟨split, next⟩ :=
    AsyncReplicaClient.onSend_unsent (n := n) writing (carries.sending writing)
  have busy : s.client.inProcess = true := by rw [carries.process, writing]; rfl
  have seen := AsyncReplicaClient.callers_onSend s.client n
  simp only [AsyncReplicaClient.callers, Prod.mk.injEq] at seen
  refine ⟨?_, carries.fits, carries.reading, ?_, more, ?_, ?_⟩
  · rw [seen.2.1, busy]
    rcases next with ⟨control, -⟩ | control
    · rw [control]; rfl
    · rw [control]; rfl
  · intro sends
    rcases next with ⟨-, sending⟩ | control
    · exact sending
    · exact absurd (control.symm.trans sends) (by simp)
  · rw [seen.1]
    exact order
  · rw [← bytes, split]
    simp

theorem Carries.read (carries : Carries s) {n : ℕ} (taken : s.step (.read n) = some s') :
    Carries s' := by
  obtain ⟨⟨-, there, few⟩, done⟩ := Option.ite_none_right_eq_some.mp taken
  cases done
  obtain ⟨more, order, bytes⟩ := carries.stream
  have fits : ∀ m ∈ more, m ≠ [] ∧ m.length < 2 ^ 64 := by
    intro m inside
    exact carries.fits m (by simp [order, inside])
  have size : (s.wire.take n).length ≤ s.session.needSize - s.session.recvBuffer.length :=
    (List.length_take_le n _).trans few
  have split : s.session.received ++ s.wire.take n ++ (s.wire.drop n ++ s.client.unsent) =
      frames more := by
    rw [← bytes, List.append_assoc, ← List.append_assoc (s.wire.take n), List.take_append_drop,
      List.append_assoc]
  obtain ⟨more', kept, rest, reading⟩ :=
    Session.onRead_stream carries.reading fits size split
  refine ⟨carries.process, carries.fits, reading, carries.sending, more', ?_, ?_⟩
  · rw [kept]
    exact order
  · rw [← rest, List.append_assoc]

theorem Carries.step (carries : Carries s) {a : Action} (taken : s.step a = some s') :
    Carries s' := by
  cases a with
  | push message => exact carries.push taken
  | load => exact carries.load taken
  | swap => exact carries.swap taken
  | pop => exact carries.pop taken
  | clear => exact carries.clear taken
  | write n => exact carries.write taken
  | read n => exact carries.read taken

theorem carries_initial : Carries {} := by
  refine ⟨rfl, fun m inside => absurd inside List.not_mem_nil, ⟨.inl ⟨rfl, rfl⟩, Nat.succ_pos 7⟩,
    fun sends => absurd sends (by simp), [], rfl, rfl⟩

end Steps

/-! ### Wake-ups -/

/-- Somebody is going to take the messages that wait in the queue. -/
def Attended (s : Channel) : Prop :=
  s.client.queue = [] ∨ 0 < s.client.loading + s.client.swapping ∨
    s.client.control = some .onSendNewMessage ∨ s.client.control = some .onSend

/-- The last call that could take the messages does not look at `in_process_` between the `Pop`
that found nothing and the reset. -/
def Noticed (s : Channel) : Action → Prop
  | .load | .swap => ¬ (s.client.control = some .clearing ∧ s.client.queue ≠ [] ∧
      s.client.loading + s.client.swapping = 1)
  | _ => True

instance decidableNoticed (s : Channel) : (a : Action) → Decidable (Noticed s a)
  | .push _ => .isTrue trivial
  | .load => inferInstanceAs (Decidable (¬ (_ ∧ _ ∧ _)))
  | .swap => inferInstanceAs (Decidable (¬ (_ ∧ _ ∧ _)))
  | .pop => .isTrue trivial
  | .clear => .isTrue trivial
  | .write _ => .isTrue trivial
  | .read _ => .isTrue trivial

section Attention

theorem Carries.idle_iff (carries : Carries s) :
    s.client.inProcess = false ↔ s.client.control = none := by
  rw [carries.process]
  cases s.client.control with
  | none => exact ⟨fun _ => rfl, fun _ => rfl⟩
  | some control => simp

theorem attended_leave_iff {c : AsyncReplicaClient} (wire : Bytes) (session : Session)
    (handed : List Bytes) (queue : c.queue = s.client.queue)
    (control : c.control = s.client.control) (busy : s.client.control ≠ none)
    (fewer : c.loading + c.swapping + 1 = s.client.loading + s.client.swapping) :
    Attended ⟨c, wire, session, handed⟩ ↔ ¬ (s.client.control = some .clearing ∧
      s.client.queue ≠ [] ∧ s.client.loading + s.client.swapping = 1) := by
  unfold Attended
  rw [queue, control, ← fewer]
  cases at' : s.client.control with
  | none => exact absurd at' busy
  | some control =>
      cases control with
      | onSendNewMessage => simp
      | onSend => simp
      | clearing =>
          simp only [reduceCtorEq, Option.some.injEq, or_false, true_and, not_and, ne_eq]
          constructor
          · rintro (empty | waits) filled
            · exact absurd empty filled
            · omega
          · intro left
            by_cases empty : s.client.queue = []
            · exact .inl empty
            · have more := left empty
              exact .inr (by omega)

theorem Carries.attended_load_iff (carries : Carries s) (taken : s.step .load = some s') :
    Attended s' ↔ Noticed s .load := by
  obtain ⟨positive, done⟩ := Option.ite_none_right_eq_some.mp taken
  cases done
  cases busy : s.client.inProcess with
  | false =>
      have idle := carries.idle_iff.mp busy
      simp [Attended, Noticed, AsyncReplicaClient.load, busy, idle]
  | true =>
      refine attended_leave_iff _ _ _ rfl rfl (fun idle => ?_) ?_
      · rw [carries.idle_iff.mpr idle] at busy
        exact Bool.false_ne_true busy
      · simp only [AsyncReplicaClient.load, busy, if_true]
        omega

theorem Carries.attended_swap_iff (carries : Carries s) (taken : s.step .swap = some s') :
    Attended s' ↔ Noticed s .swap := by
  obtain ⟨positive, done⟩ := Option.ite_none_right_eq_some.mp taken
  cases done
  cases busy : s.client.inProcess with
  | false =>
      have idle := carries.idle_iff.mp busy
      simp [Attended, Noticed, AsyncReplicaClient.swap, busy, idle]
  | true =>
      have same : s.client.swap = { s.client with swapping := s.client.swapping - 1 } := if_pos busy
      rw [same]
      refine attended_leave_iff _ _ _ rfl rfl (fun idle => ?_) ?_
      · rw [carries.idle_iff.mpr idle] at busy
        exact Bool.false_ne_true busy
      · dsimp only
        omega

theorem Carries.attended_step_iff (carries : Carries s) (attended : Attended s) {a : Action}
    (taken : s.step a = some s') : Attended s' ↔ Noticed s a := by
  cases a with
  | load => exact carries.attended_load_iff taken
  | swap => exact carries.attended_swap_iff taken
  | push message =>
      obtain ⟨-, done⟩ := Option.ite_none_right_eq_some.mp taken
      cases done
      refine ⟨fun _ => trivial, fun _ => .inr (.inl ?_)⟩
      simp [AsyncReplicaClient.push]
  | pop =>
      obtain ⟨-, done⟩ := Option.ite_none_right_eq_some.mp taken
      cases done
      refine ⟨fun _ => trivial, fun _ => ?_⟩
      cases queued : s.client.queue with
      | nil =>
          rw [AsyncReplicaClient.onSendNewMessage_nil queued]
          exact .inl queued
      | cons data rest =>
          have taken :=
            AsyncReplicaClient.onSendNewMessage_cons queued (carries.queued_filled queued)
          exact .inr (.inr (.inr taken.1))
  | clear =>
      obtain ⟨clearing, done⟩ := Option.ite_none_right_eq_some.mp taken
      cases done
      refine ⟨fun _ => trivial, fun _ => ?_⟩
      unfold Attended at attended
      rw [clearing] at attended
      simpa [Attended, AsyncReplicaClient.clear] using attended
  | write n =>
      obtain ⟨⟨writing, -, -⟩, done⟩ := Option.ite_none_right_eq_some.mp taken
      cases done
      refine ⟨fun _ => trivial, fun _ => .inr (.inr ?_)⟩
      rcases (AsyncReplicaClient.onSend_unsent (n := n) writing (carries.sending writing)).2 with
        ⟨control, -⟩ | control
      · exact .inr control
      · exact .inl control
  | read n =>
      obtain ⟨-, done⟩ := Option.ite_none_right_eq_some.mp taken
      cases done
      exact ⟨fun _ => trivial, fun _ => attended⟩

theorem unattended_step {a : Action} (left : ¬ Attended s) (internal : ∀ message, a ≠ .push message)
    (taken : s.step a = some s') : ¬ Attended s' := by
  unfold Attended at left
  push Not at left
  obtain ⟨queued, nobody, notPopping, notSending⟩ := left
  cases a with
  | push message => exact absurd rfl (internal message)
  | load =>
      obtain ⟨positive, -⟩ := Option.ite_none_right_eq_some.mp taken
      omega
  | swap =>
      obtain ⟨positive, -⟩ := Option.ite_none_right_eq_some.mp taken
      omega
  | pop =>
      obtain ⟨popping, -⟩ := Option.ite_none_right_eq_some.mp taken
      exact absurd popping notPopping
  | clear =>
      obtain ⟨-, done⟩ := Option.ite_none_right_eq_some.mp taken
      cases done
      rintro (empty | waits | popping | sending)
      · exact queued empty
      · exact absurd waits (Nat.not_lt.mpr nobody)
      · exact absurd popping (by simp [AsyncReplicaClient.clear])
      · exact absurd sending (by simp [AsyncReplicaClient.clear])
  | write n =>
      obtain ⟨⟨writing, -⟩, -⟩ := Option.ite_none_right_eq_some.mp taken
      exact absurd writing notSending
  | read n =>
      obtain ⟨-, done⟩ := Option.ite_none_right_eq_some.mp taken
      cases done
      rintro (empty | waits | popping | sending)
      · exact queued empty
      · exact absurd waits (Nat.not_lt.mpr nobody)
      · exact notPopping popping
      · exact notSending sending

end Attention

/-! ### Coming to rest -/

/-- The steps that the holder of `in_process_` takes to get rid of it. -/
def controlWork : Option Control → ℕ
  | none => 0
  | some .clearing => 1
  | some .onSendNewMessage => 2
  | some .onSend => 2

/-- The steps that are left without a further call, at most: a byte is written and read. -/
def work (s : Channel) : ℕ :=
  4 * s.client.loading + 3 * s.client.swapping + controlWork s.client.control +
    2 * s.client.unsent.length +
    (s.client.queue.map (fun data => 2 * (frame data).length + 1)).sum + s.wire.length

theorem work_load_lt (taken : s.step .load = some s') : s'.work < s.work := by
  obtain ⟨positive, done⟩ := Option.ite_none_right_eq_some.mp taken
  cases done
  have unsent : s.client.load.unsent = s.client.unsent := rfl
  simp only [work, unsent]
  simp only [AsyncReplicaClient.load]
  split_ifs <;> omega

theorem Carries.work_swap_lt (carries : Carries s) (taken : s.step .swap = some s') :
    s'.work < s.work := by
  obtain ⟨positive, done⟩ := Option.ite_none_right_eq_some.mp taken
  cases done
  cases busy : s.client.inProcess with
  | true =>
      have same : s.client.swap = { s.client with swapping := s.client.swapping - 1 } := if_pos busy
      have unsent : s.client.swap.unsent = s.client.unsent := by rw [same]; rfl
      simp only [work, unsent]
      simp only [same]
      omega
  | false =>
      obtain ⟨idle, nothing⟩ := carries.unsent_of_idle busy
      have same : s.client.swap =
          { s.client with
            swapping := s.client.swapping - 1
            inProcess := true
            control := some .onSendNewMessage } := by
        simp [AsyncReplicaClient.swap, busy]
      have unsent : s.client.swap.unsent = [] := by rw [same]; rfl
      simp only [work, unsent, nothing, idle]
      simp only [same, controlWork]
      omega

theorem Carries.work_pop_lt (carries : Carries s) (taken : s.step .pop = some s') :
    s'.work < s.work := by
  obtain ⟨popping, done⟩ := Option.ite_none_right_eq_some.mp taken
  cases done
  have nothing : s.client.unsent = [] := by simp [AsyncReplicaClient.unsent, popping]
  cases queued : s.client.queue with
  | nil =>
      have same := AsyncReplicaClient.onSendNewMessage_nil queued
      have unsent : s.client.onSendNewMessage.unsent = [] := by rw [same]; rfl
      simp only [work, unsent, nothing, popping]
      simp only [same, controlWork]
      omega
  | cons data rest =>
      obtain ⟨control, unsent, -, seen⟩ :=
        AsyncReplicaClient.onSendNewMessage_cons queued (carries.queued_filled queued)
      simp only [AsyncReplicaClient.callers, Prod.mk.injEq] at seen
      simp only [work, control, unsent, seen, nothing, popping, queued, controlWork, List.map_cons,
        List.sum_cons, List.length_nil]
      omega

theorem work_clear_lt (taken : s.step .clear = some s') : s'.work < s.work := by
  obtain ⟨clearing, done⟩ := Option.ite_none_right_eq_some.mp taken
  cases done
  have nothing : s.client.unsent = [] := by simp [AsyncReplicaClient.unsent, clearing]
  have unsent : s.client.clear.unsent = [] := rfl
  simp only [work, unsent, nothing, clearing]
  simp only [AsyncReplicaClient.clear, controlWork]
  omega

theorem Carries.work_write_lt (carries : Carries s) {n : ℕ}
    (taken : s.step (.write n) = some s') : s'.work < s.work := by
  obtain ⟨⟨writing, positive, few⟩, done⟩ := Option.ite_none_right_eq_some.mp taken
  cases done
  obtain ⟨split, next⟩ :=
    AsyncReplicaClient.onSend_unsent (n := n) writing (carries.sending writing)
  have seen := AsyncReplicaClient.callers_onSend s.client n
  simp only [AsyncReplicaClient.callers, Prod.mk.injEq] at seen
  have same : controlWork (s.client.onSend n).control = 2 := by
    rcases next with ⟨control, -⟩ | control <;> rw [control] <;> rfl
  have before : controlWork s.client.control = 2 := by rw [writing]; rfl
  have bytes := congrArg List.length split
  rw [List.length_append, List.length_take, Nat.min_eq_left few] at bytes
  simp only [work, seen, same, before, List.length_append, List.length_take, Nat.min_eq_left few]
  omega

theorem work_read_lt {n : ℕ} (taken : s.step (.read n) = some s') : s'.work < s.work := by
  obtain ⟨⟨positive, there, -⟩, done⟩ := Option.ite_none_right_eq_some.mp taken
  cases done
  simp only [work, List.length_drop]
  omega

theorem Carries.work_lt (carries : Carries s) {a : Action}
    (internal : ∀ message, a ≠ .push message) (taken : s.step a = some s') :
    s'.work < s.work := by
  cases a with
  | push message => exact absurd rfl (internal message)
  | load => exact work_load_lt taken
  | swap => exact carries.work_swap_lt taken
  | pop => exact carries.work_pop_lt taken
  | clear => exact work_clear_lt taken
  | write n => exact carries.work_write_lt taken
  | read n => exact work_read_lt taken

def Rest (s : Channel) : Prop := ∀ a, (∀ message, a ≠ .push message) → s.step a = none

/-- The pending calls and the transfer can be finished so that every message is called back. -/
def CanDeliver (s : Channel) : Prop :=
  ∃ actions, (∀ a ∈ actions, ∀ message, a ≠ .push message) ∧
    ∃ s', Run.exec step s actions = some s' ∧ s'.session.delivered = s'.handed

theorem Carries.progress (carries : Carries s) (attended : Attended s) :
    s.session.delivered = s.handed ∨ ∃ a, (∀ message, a ≠ .push message) ∧ Noticed s a ∧
      ∃ s', s.step a = some s' := by
  cases control : s.client.control with
  | some at' =>
      right
      cases at' with
      | onSendNewMessage =>
          exact ⟨.pop, by simp, trivial, _, if_pos control⟩
      | clearing => exact ⟨.clear, by simp, trivial, _, if_pos control⟩
      | onSend =>
          have some' : 1 ≤ s.client.toSend.length := by
            have inside := (carries.sending control).pending
            rw [AsyncReplicaClient.toSend, List.length_drop]
            omega
          exact ⟨.write 1, by simp, trivial, _, if_pos ⟨control, Nat.one_pos, some'⟩⟩
  | none =>
      have notClearing : s.client.control ≠ some .clearing := by simp [control]
      by_cases loading : 0 < s.client.loading
      · exact .inr ⟨.load, by simp, fun lost => notClearing lost.1, _, if_pos loading⟩
      by_cases swapping : 0 < s.client.swapping
      · exact .inr ⟨.swap, by simp, fun lost => notClearing lost.1, _, if_pos swapping⟩
      by_cases bytes : 1 ≤ s.wire.length
      · have short := carries.reading.short
        exact .inr ⟨.read 1, by simp, trivial, _, if_pos ⟨Nat.one_pos, bytes, by omega⟩⟩
      -- nothing is left to do: the stream and the queue are empty
      left
      obtain ⟨more, order, stream⟩ := carries.stream
      have empty : s.client.queue = [] := by
        rcases attended with empty | calls | popping | sending
        · exact empty
        · omega
        · simp [control] at popping
        · simp [control] at sending
      have dry : s.wire = [] := List.length_eq_zero_iff.mp (by omega)
      have nothing : s.client.unsent = [] := by simp [AsyncReplicaClient.unsent, control]
      rw [dry, nothing, List.append_nil, List.append_nil] at stream
      have done := Session.nothing_left carries.reading
        (fun m inside => carries.fits m (by simp [order, inside])) stream
      rw [order, done, empty, List.append_nil, List.append_nil]

theorem Carries.can_deliver (carries : Carries s) (attended : Attended s) : CanDeliver s := by
  -- along steps that lose nothing the work decreases until every message is called back
  induction size : s.work using Nat.strong_induction_on generalizing s with
  | h n ih =>
      rcases carries.progress attended with done | ⟨a, internal, noticed, mid, taken⟩
      · exact ⟨[], fun a inside => absurd inside List.not_mem_nil, s, rfl, done⟩
      · have less := carries.work_lt internal taken
        obtain ⟨actions, later, s', ran, done⟩ := ih mid.work (size ▸ less) (carries.step taken)
          ((carries.attended_step_iff attended taken).mpr noticed) rfl
        refine ⟨a :: actions, List.forall_mem_cons.mpr ⟨internal, later⟩, s', ?_, done⟩
        rw [Run.exec_cons_of_step actions taken, ran]

theorem Carries.not_can_deliver (carries : Carries s) (left : ¬ Attended s) : ¬ CanDeliver s := by
  rintro ⟨actions, internal, s', ran, done⟩
  have kept : Carries s' ∧ ¬ Attended s' := by
    induction actions generalizing s with
    | nil =>
        cases ran
        exact ⟨carries, left⟩
    | cons a rest ih =>
        obtain ⟨mid, first, later⟩ := Run.exec_cons_some ran
        obtain ⟨notPush, others⟩ := List.forall_mem_cons.mp internal
        exact ih (carries.step first) (unattended_step left notPush first) others later
  obtain ⟨more, order, -⟩ := kept.1.stream
  rw [done] at order
  have lengths := congrArg List.length order
  simp only [List.length_append] at lengths
  exact kept.2 (.inl (List.length_eq_zero_iff.mp (by omega)))

theorem Carries.attended_iff (carries : Carries s) :
    CanDeliver s ∧ (Rest s → s.session.delivered = s.handed) ↔ Attended s := by
  constructor
  · intro both
    by_contra left
    exact carries.not_can_deliver left both.1
  · intro attended
    refine ⟨carries.can_deliver attended, fun rest => ?_⟩
    rcases carries.progress attended with done | ⟨a, internal, -, s', taken⟩
    · exact done
    · rw [rest a internal] at taken
      exact absurd taken.symm (Option.some_ne_none s')

/-- The messages called back are always the first of those handed over. In all states of a run
the others can still follow, and have followed when the channel is at rest, exactly if no
wake-up is lost in it. -/
theorem channel_delivers_iff_noticed (actions : List Action) (s : Channel)
    (ran : Run.exec step {} actions = some s) :
    s.session.delivered <+: s.handed ∧
      ((∀ made, made <+: actions → ∀ mid, Run.exec step {} made = some mid →
          CanDeliver mid ∧ (Rest mid → mid.session.delivered = mid.handed)) ↔
        Run.Along step Noticed {} actions) := by
  have keep : ∀ s a s', Carries s → step s a = some s' → Carries s' :=
    fun _ _ _ carries taken => carries.step taken
  refine ⟨?_, ?_⟩
  · obtain ⟨more, order, -⟩ := (Run.exec_invariant_always keep carries_initial ran).stream
    rw [order, List.append_assoc]
    exact List.prefix_append _ _
  · have attended : (∀ made, made <+: actions → ∀ mid, Run.exec step {} made = some mid →
        Attended mid) ↔ Run.Along step Noticed {} actions :=
      Run.holds_iff_along (fun s a s' (carries : Carries s) _ _ taken => carries.step taken)
        (fun s a s' (carries : Carries s) attended taken =>
          carries.attended_step_iff attended taken)
        carries_initial (.inl rfl) ran
    rw [← attended]
    refine forall₄_congr (fun made inside mid reached => ?_)
    exact (Run.exec_invariant_always keep carries_initial reached).attended_iff

/-- Two messages. The second is handed over while the first is written, which is done in three
parts and read in four. -/
def sampleTransfer : List Action :=
  [.push [1, 2], .load, .swap, .pop, .write 3, .push [3], .load, .read 3, .write 5, .read 5,
    .write 2, .read 1, .read 1, .pop, .write 8, .read 8, .write 1, .read 1, .pop, .clear]

theorem sample_transfer_delivers :
    ∃ s, Run.exec step {} sampleTransfer = some s ∧ s.session.delivered = [[1, 2], [3]] ∧
      s.session.delivered <+: s.handed ∧
      ((∀ made, made <+: sampleTransfer → ∀ mid, Run.exec step {} made = some mid →
          CanDeliver mid ∧ (Rest mid → mid.session.delivered = mid.handed)) ↔
        Run.Along step Noticed {} sampleTransfer) ∧
      Run.Along step Noticed {} sampleTransfer := by
  have ran : (Run.exec step {} sampleTransfer).any (fun s =>
      decide (s.session.delivered = [[1, 2], [3]])) = true := by decide +kernel
  obtain ⟨s, done, called⟩ := (Option.any_eq_true _ _).mp ran
  obtain ⟨first, exactly⟩ := channel_delivers_iff_noticed sampleTransfer s done
  exact ⟨s, done, of_decide_eq_true called, first, exactly, by decide +kernel⟩

theorem rest_of_idle (control : s.client.control = none) (loading : s.client.loading = 0)
    (swapping : s.client.swapping = 0) (dry : s.wire = []) : Rest s := by
  intro a internal
  cases a with
  | push message => exact absurd rfl (internal message)
  | load => simp [step, loading]
  | swap => simp [step, swapping]
  | pop => simp [step, control]
  | clear => simp [step, control]
  | write n => simp [step, control]
  | read n =>
      refine if_neg ?_
      rw [dry]
      rintro ⟨positive, there, -⟩
      exact absurd there (Nat.not_le_of_lt positive)

/-- A message that is handed over after the sender found the queue empty, by a call that reads
`in_process_` before it is given up, stays in the queue. -/
theorem wake_up_lost :
    ∃ s, Run.exec step {}
        [.push [1], .load, .swap, .pop, .write 8, .write 1, .read 8, .read 1, .pop, .push [2],
          .load, .clear] = some s ∧
      Rest s ∧ s.handed = [[1], [2]] ∧ s.session.delivered = [[1]] ∧ s.client.queue = [[2]] := by
  have ran : (Run.exec step {}
      [.push [1], .load, .swap, .pop, .write 8, .write 1, .read 8, .read 1, .pop, .push [2],
        .load, .clear]).any (fun s =>
      decide (s.client.control = none ∧ s.client.loading = 0 ∧ s.client.swapping = 0 ∧
        s.wire = [] ∧ s.handed = [[1], [2]] ∧ s.session.delivered = [[1]] ∧
        s.client.queue = [[2]])) = true := by decide +kernel
  obtain ⟨s, done, facts⟩ := (Option.any_eq_true _ _).mp ran
  obtain ⟨control, loading, swapping, dry, handed, called, queued⟩ := of_decide_eq_true facts
  exact ⟨s, done, rest_of_idle control loading swapping dry, handed, called, queued⟩

end Channel
end ResDB.Network
