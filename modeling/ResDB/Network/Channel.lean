import ResDB.Common.Crypto
import ResDB.Library.Framing
import ResDB.Library.Run

/-! The channel between two replicas: `AsyncReplicaClient` writes the length of a message in
eight bytes and then its bytes, and `AsyncAcceptor::Session` reads them back. Both go on where
the socket left them, whatever number of bytes it took or gave. The connection has no errors.
Calls of `SendMessage` are cut into their accesses to the queue and to `in_process_`. -/
namespace ResDB.Network
open Framing (encodeLE decodeLE frame frames)

/-- Where the thread that holds `in_process_` is: before the `Pop` of `OnSendNewMessage`, after
a `Pop` that found nothing and before it gives up `in_process_`, or with bytes at the socket. -/
inductive Control where
  | onSendNewMessage
  | clearing
  | onSend
  deriving DecidableEq

/-- The fields of the client. `loading` and `swapping` count the calls of `SendMessage` that have
pushed their message and have still to read `in_process_`, or have read it and still to swap it. -/
structure AsyncReplicaClient where
  queue : List Bytes := []
  inProcess : Bool := false
  pendingData : Bytes := []
  dataSize : ℕ := 0
  sendingData : Bytes := []
  sendingDataIdx : ℕ := 0
  status : ℕ := 0
  control : Option Control := none
  loading : ℕ := 0
  swapping : ℕ := 0

namespace AsyncReplicaClient
variable (c : AsyncReplicaClient)

/-- `SendMessage` puts its message into the queue, -/
def push (data : Bytes) : AsyncReplicaClient :=
  { c with queue := c.queue ++ [data], loading := c.loading + 1 }

/-- is through if it reads that somebody is sending, -/
def load : AsyncReplicaClient :=
  { c with
    loading := c.loading - 1
    swapping := if c.inProcess then c.swapping else c.swapping + 1 }

/-- and starts to send if it is the one that sets `in_process_`. -/
def swap : AsyncReplicaClient :=
  if c.inProcess then { c with swapping := c.swapping - 1 }
  else
    { c with
      swapping := c.swapping - 1
      inProcess := true
      control := some .onSendNewMessage }

/-- `OnSendNewMessage` found no message. -/
def clear : AsyncReplicaClient := { c with inProcess := false, control := none }

/-- The length is sent, then the bytes, then the next message is taken. -/
def onSendMessage : AsyncReplicaClient :=
  if c.status = 0 then
    { c with
      dataSize := c.pendingData.length
      sendingData := encodeLE 8 c.pendingData.length
      sendingDataIdx := 0
      status := 1
      control := some .onSend }
  else if c.status = 1 then
    { c with
      sendingData := c.pendingData.take c.dataSize
      sendingDataIdx := 0
      status := 2
      control := some .onSend }
  else { c with status := 0, control := some .onSendNewMessage }

def onSendNewMessage : AsyncReplicaClient :=
  match c.queue with
  | [] => { c with control := some .clearing }
  | data :: rest =>
      if data = [] then { c with queue := rest, control := some .clearing }
      else onSendMessage { c with queue := rest, pendingData := data, status := 0 }

def callers : List Bytes × Bool × ℕ × ℕ := (c.queue, c.inProcess, c.loading, c.swapping)

@[simp] theorem callers_onSendMessage : c.onSendMessage.callers = c.callers := by
  unfold onSendMessage
  split_ifs <;> rfl

def toSend : Bytes := c.sendingData.drop c.sendingDataIdx

/-- The handler of `OnSend`, with the number of bytes that the socket took. -/
def onSend (sendSize : ℕ) : AsyncReplicaClient :=
  let c' := { c with sendingDataIdx := c.sendingDataIdx + sendSize }
  if c.sendingData.length ≤ c.sendingDataIdx + sendSize then onSendMessage c' else c'

@[simp] theorem callers_onSend (n : ℕ) : (c.onSend n).callers = c.callers := by
  unfold onSend
  dsimp only
  split_ifs
  · rw [callers_onSendMessage]
    rfl
  · rfl

end AsyncReplicaClient

/-- The fields of the session; `recvBuffer` has the bytes read so far, and `current_idx_` is
their number. `delivered` is what its callback was called with. -/
structure Session where
  status : ℕ := 0
  dataSize : ℕ := 0
  needSize : ℕ := 8
  recvBuffer : Bytes := []
  delivered : List Bytes := []

namespace Session
variable (r : Session)

def startRead : Session :=
  if r.status = 0 then { r with dataSize := 0, needSize := 8, recvBuffer := [] }
  else { r with needSize := r.dataSize, recvBuffer := [] }

def readDone : Session :=
  if r.status = 1 then
    startRead { r with delivered := r.delivered ++ [r.recvBuffer], status := 0 }
  else startRead { r with dataSize := decodeLE r.recvBuffer, status := 1 }

/-- The handler of `OnRead`, with the bytes that the socket gave. -/
def onRead (bytes : Bytes) : Session :=
  let r' := { r with recvBuffer := r.recvBuffer ++ bytes }
  if r.needSize ≤ (r.recvBuffer ++ bytes).length then readDone r' else r'

end Session

/-- The two ends, the bytes on the way, and the messages handed to `SendMessage`. -/
structure Channel where
  client : AsyncReplicaClient := {}
  wire : Bytes := []
  session : Session := {}
  handed : List Bytes := []

inductive Action where
  | push (message : Bytes)
  | load
  | swap
  | pop
  | clear
  | write (n : ℕ)
  | read (n : ℕ)
  deriving DecidableEq

namespace Channel
variable (s : Channel)

/-- The messages are not empty, and their length is a `size_t`. The socket takes and gives at
least one byte and not more than there are. -/
def step : Action → Option Channel
  | .push message =>
      if message ≠ [] ∧ message.length < 2 ^ 64 then
        some { s with client := s.client.push message, handed := s.handed ++ [message] }
      else none
  | .load => if 0 < s.client.loading then some { s with client := s.client.load } else none
  | .swap => if 0 < s.client.swapping then some { s with client := s.client.swap } else none
  | .pop =>
      if s.client.control = some .onSendNewMessage then
        some { s with client := s.client.onSendNewMessage }
      else none
  | .clear =>
      if s.client.control = some .clearing then some { s with client := s.client.clear } else none
  | .write n =>
      if s.client.control = some .onSend ∧ 0 < n ∧ n ≤ s.client.toSend.length then
        some { s with client := s.client.onSend n, wire := s.wire ++ s.client.toSend.take n }
      else none
  | .read n =>
      if 0 < n ∧ n ≤ s.wire.length ∧ n ≤ s.session.needSize - s.session.recvBuffer.length then
        some { s with session := s.session.onRead (s.wire.take n), wire := s.wire.drop n }
      else none

end Channel

/-! ### The bytes between the two ends -/

namespace AsyncReplicaClient
variable {c : AsyncReplicaClient}

/-- What is still to be written of the message that was taken from the queue. -/
def unsent (c : AsyncReplicaClient) : Bytes :=
  if c.control = some .onSend then c.toSend ++ (if c.status = 1 then c.pendingData else []) else []

/-- The buffer at the socket is the length or the bytes of the pending message. -/
structure Sending (c : AsyncReplicaClient) : Prop where
  status : c.status = 1 ∨ c.status = 2
  length : c.status = 1 → c.dataSize = c.pendingData.length ∧ 0 < c.pendingData.length
  pending : c.sendingDataIdx < c.sendingData.length

theorem onSendNewMessage_nil (empty : c.queue = []) :
    c.onSendNewMessage = { c with control := some .clearing } := by
  simp [onSendNewMessage, empty]

theorem onSendNewMessage_cons {data : Bytes} {rest : List Bytes} (queued : c.queue = data :: rest)
    (filled : data ≠ []) :
    c.onSendNewMessage.control = some .onSend ∧ c.onSendNewMessage.unsent = frame data ∧
      Sending c.onSendNewMessage ∧
      c.onSendNewMessage.callers = (rest, c.inProcess, c.loading, c.swapping) := by
  have positive : 0 < data.length := List.length_pos_iff.mpr filled
  have taken : c.onSendNewMessage =
      { c with
        queue := rest
        pendingData := data
        dataSize := data.length
        sendingData := encodeLE 8 data.length
        sendingDataIdx := 0
        status := 1
        control := some .onSend } := by
    simp [onSendNewMessage, onSendMessage, queued, filled]
  rw [taken]
  refine ⟨rfl, by simp [unsent, toSend, frame], ⟨.inl rfl, fun _ => ⟨rfl, positive⟩, ?_⟩, rfl⟩
  simp

theorem onSend_of_some_left {n : ℕ} (left : n < c.toSend.length) :
    c.onSend n = { c with sendingDataIdx := c.sendingDataIdx + n } := by
  rw [toSend, List.length_drop] at left
  unfold onSend
  exact if_neg (by omega)

theorem onSend_of_none_left {n : ℕ} (all : c.toSend.length ≤ n) :
    c.onSend n = onSendMessage { c with sendingDataIdx := c.sendingDataIdx + n } := by
  rw [toSend, List.length_drop] at all
  unfold onSend
  exact if_pos (by omega)

theorem onSend_unsent {n : ℕ} (writing : c.control = some .onSend) (sending : Sending c) :
    c.unsent = c.toSend.take n ++ (c.onSend n).unsent ∧
      ((c.onSend n).control = some .onSend ∧ Sending (c.onSend n) ∨
        (c.onSend n).control = some .onSendNewMessage) := by
  rcases lt_or_ge n c.toSend.length with left | all
  · rw [onSend_of_some_left left]
    have next : ({ c with sendingDataIdx := c.sendingDataIdx + n }).toSend = c.toSend.drop n := by
      rw [toSend, toSend, List.drop_drop]
    refine ⟨?_, .inl ⟨writing, sending.status, sending.length, ?_⟩⟩
    · rw [unsent, unsent, if_pos writing, if_pos writing, next, ← List.append_assoc,
        List.take_append_drop]
    · rw [toSend, List.length_drop] at left
      show c.sendingDataIdx + n < c.sendingData.length
      omega
  · rw [onSend_of_none_left all, List.take_of_length_le all, unsent, if_pos writing]
    rcases sending.status with length | body
    · -- the length has been written: the bytes of the message are next
      obtain ⟨size, positive⟩ := sending.length length
      have whole : c.pendingData.take c.dataSize = c.pendingData := by
        rw [size, List.take_length]
      have next : onSendMessage { c with sendingDataIdx := c.sendingDataIdx + n } =
          { c with
            sendingData := c.pendingData
            sendingDataIdx := 0
            status := 2
            control := some .onSend } := by
        simp [onSendMessage, length, whole]
      rw [next]
      refine ⟨by simp [unsent, toSend, length], .inl ⟨rfl, .inr rfl, ?_, positive⟩⟩
      exact fun wrong => absurd wrong (Nat.succ_ne_self 1)
    · have next : onSendMessage { c with sendingDataIdx := c.sendingDataIdx + n } =
          { c with
            sendingDataIdx := c.sendingDataIdx + n
            status := 0
            control := some .onSendNewMessage } := by
        simp [onSendMessage, body]
      rw [next]
      exact ⟨by simp [unsent, body], .inr rfl⟩

end AsyncReplicaClient

namespace Session
variable {r : Session}

def received (r : Session) : Bytes :=
  if r.status = 0 then r.recvBuffer else encodeLE 8 r.dataSize ++ r.recvBuffer

/-- The session waits for the rest of a length or of the bytes of a message. -/
structure Reading (r : Session) : Prop where
  status : r.status = 0 ∧ r.needSize = 8 ∨
    r.status = 1 ∧ r.needSize = r.dataSize ∧ r.dataSize < 2 ^ 64
  short : r.recvBuffer.length < r.needSize

variable {bytes rest : Bytes} {more : List Bytes}

theorem onRead_length (length : r.status = 0)
    (fits : ∀ m ∈ more, m ≠ [] ∧ m.length < 2 ^ 64)
    (complete : (r.recvBuffer ++ bytes).length = 8) (needs : r.needSize = 8)
    (stream : r.recvBuffer ++ bytes ++ rest = frames more) :
    (r.onRead bytes).delivered = r.delivered ∧ (r.onRead bytes).received = r.recvBuffer ++ bytes ∧
      Reading (r.onRead bytes) := by
  cases more with
  | nil =>
      have none' := congrArg List.length stream
      rw [List.length_append, complete] at none'
      simp [frames] at none'
  | cons m more =>
      obtain ⟨filled, small⟩ := fits m List.mem_cons_self
      have head : r.recvBuffer ++ bytes = encodeLE 8 m.length := by
        rw [← Framing.take_frame_append m (frames more), ← Framing.frames_cons, ← stream,
          List.take_left' complete]
      have size : decodeLE (encodeLE 8 m.length) = m.length :=
        Framing.decodeLE_encodeLE 8 m.length small
      have done : r.onRead bytes =
          { r with status := 1, dataSize := m.length, needSize := m.length, recvBuffer := [] } := by
        simp [onRead, needs, readDone, length, startRead, head, size]
      rw [done]
      refine ⟨rfl, by simp [received, head], ⟨.inr ⟨rfl, rfl, small⟩, ?_⟩⟩
      exact List.length_pos_iff.mpr filled

theorem onRead_body (body : r.status = 1) (small : r.dataSize < 2 ^ 64)
    (fits : ∀ m ∈ more, m ≠ [] ∧ m.length < 2 ^ 64)
    (complete : (r.recvBuffer ++ bytes).length = r.dataSize) (needs : r.needSize = r.dataSize)
    (stream : encodeLE 8 r.dataSize ++ (r.recvBuffer ++ bytes) ++ rest = frames more) :
    ∃ more', more = (r.recvBuffer ++ bytes) :: more' ∧ rest = frames more' ∧
      (r.onRead bytes).delivered = r.delivered ++ [r.recvBuffer ++ bytes] ∧
      (r.onRead bytes).received = [] ∧ Reading (r.onRead bytes) := by
  cases more with
  | nil =>
      have none' := congrArg List.length stream
      rw [List.append_assoc, List.length_append, Framing.length_encodeLE] at none'
      simp [frames] at none'
  | cons m more =>
      have aligned : encodeLE 8 r.dataSize ++ (r.recvBuffer ++ bytes ++ rest) =
          encodeLE 8 m.length ++ (m ++ frames more) := by
        simpa [Framing.frames_cons, frame] using stream
      obtain ⟨lengths, tail⟩ := List.append_inj aligned (by simp)
      have size : r.dataSize = m.length := by
        rw [← Framing.decodeLE_encodeLE 8 r.dataSize small, lengths,
          Framing.decodeLE_encodeLE 8 m.length (fits m List.mem_cons_self).2]
      obtain ⟨whole, behind⟩ := List.append_inj tail (complete.trans size)
      have done : r.onRead bytes =
          { r with
            status := 0
            dataSize := 0
            needSize := 8
            recvBuffer := []
            delivered := r.delivered ++ [r.recvBuffer ++ bytes] } := by
        simp [onRead, needs, complete, readDone, body, startRead]
      rw [done]
      refine ⟨more, by rw [whole], behind, rfl, rfl, ⟨.inl ⟨rfl, rfl⟩, by simp⟩⟩

theorem onRead_stream (reading : Reading r) (fits : ∀ m ∈ more, m ≠ [] ∧ m.length < 2 ^ 64)
    (few : bytes.length ≤ r.needSize - r.recvBuffer.length)
    (stream : r.received ++ bytes ++ rest = frames more) :
    ∃ more', (r.onRead bytes).delivered ++ more' = r.delivered ++ more ∧
      (r.onRead bytes).received ++ rest = frames more' ∧ Reading (r.onRead bytes) := by
  have short := reading.short
  have size : (r.recvBuffer ++ bytes).length = r.recvBuffer.length + bytes.length :=
    List.length_append
  rcases lt_or_ge (r.recvBuffer ++ bytes).length r.needSize with incomplete | full
  · have same : r.onRead bytes = { r with recvBuffer := r.recvBuffer ++ bytes } :=
      if_neg (Nat.not_le_of_lt incomplete)
    rw [same]
    refine ⟨more, rfl, ?_, ⟨reading.status, incomplete⟩⟩
    rw [← stream]
    unfold received
    split_ifs <;> simp
  · have complete : (r.recvBuffer ++ bytes).length = r.needSize := by omega
    rcases reading.status with ⟨length, needs⟩ | ⟨body, needs, small⟩
    · rw [received, if_pos length] at stream
      obtain ⟨called, partial', waiting⟩ :=
        onRead_length length fits (complete.trans needs) needs stream
      exact ⟨more, by rw [called], by rw [partial', stream], waiting⟩
    · rw [received, if_neg (by omega), List.append_assoc (encodeLE 8 r.dataSize)] at stream
      obtain ⟨more', split, behind, called, partial', waiting⟩ :=
        onRead_body body small fits (complete.trans needs) needs stream
      refine ⟨more', ?_, by rw [partial', behind]; rfl, waiting⟩
      rw [called, split, List.append_assoc, List.singleton_append]

theorem nothing_left (reading : Reading r) (fits : ∀ m ∈ more, m ≠ [] ∧ m.length < 2 ^ 64)
    (stream : r.received = frames more) : more = [] := by
  cases more with
  | nil => rfl
  | cons m more =>
      have short := reading.short
      have lengths := congrArg List.length stream
      rw [Framing.frames_cons, List.length_append, Framing.length_frame] at lengths
      rcases reading.status with ⟨length, needs⟩ | ⟨body, needs, small⟩
      · rw [received, if_pos length] at lengths
        omega
      · rw [received, if_neg (by omega), List.length_append, Framing.length_encodeLE] at lengths
        have head : encodeLE 8 r.dataSize = encodeLE 8 m.length := by
          rw [← Framing.take_frame_append m (frames more), ← Framing.frames_cons, ← stream,
            received, if_neg (by omega), List.take_left' (Framing.length_encodeLE 8 _)]
        have size : r.dataSize = m.length := by
          rw [← Framing.decodeLE_encodeLE 8 r.dataSize small, head,
            Framing.decodeLE_encodeLE 8 m.length (fits m List.mem_cons_self).2]
        omega

end Session
end ResDB.Network
