import Mathlib.Tactic
import ResDB.Library.Service
import ResDB.Library.WriteBuffer
import ResDB.Storage.ResRocksDB

/-! Write batching as the caller sees it. Both databases are one service over a write buffer and
differ in when the batch is due. The answers are those of a database without batching for every
sequence of calls exactly if a batch of one write is always due, and for a given sequence if no
call reads a key whose write still waits. -/
namespace ResDB.Storage

inductive BatchCall
  | setValue (key value : Bytes)
  | getValue (key : Bytes)
  | setValueWithVersion (key value : Bytes) (version : Int)
  | getValueWithVersion (key : Bytes) (version : Int)
  | getHistory (key : Bytes) (minVersion maxVersion : Int)
  | flush

inductive BatchAnswer
  | code (result : Int)
  | string (value : Bytes)
  | value (entry : Bytes × Int)
  | history (entries : List (Bytes × Int))
  | flushed (ok : Bool)
  deriving DecidableEq

def BatchCall.reads : BatchCall → Option Bytes
  | .getValue key => some key
  | .setValueWithVersion key _ _ => some key
  | .getValueWithVersion key _ => some key
  | .getHistory key _ _ => some key
  | .setValue _ _ => none
  | .flush => none

def ResLevelDB.serve (format : HistoryFormat) (size : BatchSize) (db : ResLevelDB) :
    BatchCall → BatchAnswer × ResLevelDB
  | .setValue key value => (.code (db.setValue size key value).1, (db.setValue size key value).2)
  | .getValue key => (.string (db.getValue key), db)
  | .setValueWithVersion key value version =>
      (.code (db.setValueWithVersion format size key value version).1,
        (db.setValueWithVersion format size key value version).2)
  | .getValueWithVersion key version => (.value (db.getValueWithVersion format key version), db)
  | .getHistory key minVersion maxVersion =>
      (.history (db.getHistory format key minVersion maxVersion), db)
  | .flush => (.flushed db.flush.1, db.flush.2)

def ResRocksDB.serve (format : HistoryFormat) (db : ResRocksDB) :
    BatchCall → BatchAnswer × ResRocksDB
  | .setValue key value => (.code (db.setValue key value).1, (db.setValue key value).2)
  | .getValue key => (.string (db.getValue key), db)
  | .setValueWithVersion key value version =>
      (.code (db.setValueWithVersion format key value version).1,
        (db.setValueWithVersion format key value version).2)
  | .getValueWithVersion key version => (.value (db.getValueWithVersion format key version), db)
  | .getHistory key minVersion maxVersion =>
      (.history (db.getHistory format key minVersion maxVersion), db)
  | .flush => (.flushed db.flush.1, db.flush.2)

section Buffered
variable (format : HistoryFormat) (due : List (Bytes × Bytes) → Bool)
  (b : WriteBuffer Bytes Bytes)

def serveBuffer : BatchCall → BatchAnswer × WriteBuffer Bytes Bytes
  | .setValue key value => (.code 0, b.put due key value)
  | .getValue key => (.string (stored b.main key), b)
  | .setValueWithVersion key value version =>
      match appendVersion format (stored b.main key) value version with
      | none => (.code (-2), b)
      | some string => (.code 0, b.put due key string)
  | .getValueWithVersion key version => (.value (versionIn format (stored b.main key) version), b)
  | .getHistory key minVersion maxVersion =>
      (.history (historyIn format (stored b.main key) minVersion maxVersion), b)
  | .flush => (.flushed true, b.flush)

/-- The call reads no key with a write that waits in the batch. -/
def ReadsSettled (call : BatchCall) : Prop := ∀ key ∈ call.reads, ¬b.Pending key

instance (call : BatchCall) : Decidable (ReadsSettled b call) :=
  inferInstanceAs (Decidable (∀ key ∈ call.reads, ¬(key ∈ b.pending.map Prod.fst)))

variable {format due b} {now : List (Bytes × Bytes) → Bool} {c : WriteBuffer Bytes Bytes}

/-- The unbatched database has what the batched one will have. -/
structure Ahead (b c : WriteBuffer Bytes Bytes) : Prop where
  contents : b.contents = c.contents
  written : c.pending = []

theorem Ahead.stored_eq (ahead : Ahead b c) {key : Bytes} (settled : ¬b.Pending key) :
    stored b.main key = stored c.main key := by
  have nothing : ¬c.Pending key := by
    rw [WriteBuffer.Pending, ahead.written]
    exact List.not_mem_nil
  rw [stored, stored, ← WriteBuffer.find_contents settled, ahead.contents,
    WriteBuffer.find_contents nothing]

theorem Ahead.put (eager : WriteBuffer.Eager now) (ahead : Ahead b c) (key value : Bytes) :
    Ahead (b.put due key value) (c.put now key value) :=
  ⟨by rw [WriteBuffer.contents_put, WriteBuffer.contents_put, ahead.contents],
    eager.pending_put ahead.written key value⟩

theorem Ahead.serveBuffer (eager : WriteBuffer.Eager now) (ahead : Ahead b c) {call : BatchCall}
    (settled : ReadsSettled b call) :
    (serveBuffer format due b call).1 = (serveBuffer format now c call).1 ∧
      Ahead (serveBuffer format due b call).2 (serveBuffer format now c call).2 := by
  cases call with
  | setValue key value => exact ⟨rfl, ahead.put eager key value⟩
  | getValue key =>
      exact ⟨congrArg BatchAnswer.string (ahead.stored_eq (settled key rfl)), ahead⟩
  | setValueWithVersion key value version =>
      simp only [Storage.serveBuffer, ahead.stored_eq (settled key rfl)]
      cases appendVersion format (stored c.main key) value version with
      | none => exact ⟨rfl, ahead⟩
      | some string => exact ⟨rfl, ahead.put eager key string⟩
  | getValueWithVersion key version =>
      simp only [Storage.serveBuffer, ahead.stored_eq (settled key rfl)]
      exact ⟨trivial, ahead⟩
  | getHistory key minVersion maxVersion =>
      simp only [Storage.serveBuffer, ahead.stored_eq (settled key rfl)]
      exact ⟨trivial, ahead⟩
  | flush => exact ⟨rfl, ahead.contents, rfl⟩

theorem pending_serveBuffer (eager : WriteBuffer.Eager due) {call : BatchCall}
    (empty : b.pending = []) : (Storage.serveBuffer format due b call).2.pending = [] := by
  cases call with
  | setValue key value => exact eager.pending_put empty key value
  | setValueWithVersion key value version =>
      simp only [Storage.serveBuffer]
      cases appendVersion format (stored b.main key) value version with
      | none => exact empty
      | some string => exact eager.pending_put empty key string
  | flush => rfl
  | getValue key => exact empty
  | getValueWithVersion key version => exact empty
  | getHistory key minVersion maxVersion => exact empty

theorem answers_eq_of_settled (eager : WriteBuffer.Eager now) {m : SortedMap Bytes Bytes}
    {calls : List BatchCall}
    (settled : Service.Along (Storage.serveBuffer format due) ReadsSettled { main := m } calls) :
    Service.answers (Storage.serveBuffer format due) { main := m } calls =
      Service.answers (Storage.serveBuffer format now) { main := m } calls := by
  refine Service.answers_eq_of_along Ahead ?_ ⟨rfl, rfl⟩ settled
  intro b c call ahead settled
  exact ahead.serveBuffer eager settled

def overwritten (key value : Bytes) : List BatchCall :=
  [.setValue key (0 :: value), .flush, .setValue key value, .getValue key]

theorem answers_overwritten_eager (eager : WriteBuffer.Eager now) (key value : Bytes) :
    Service.answers (Storage.serveBuffer format now) b (overwritten key value) =
      [.code 0, .flushed true, .code 0, .string value] := by
  have written := eager.pending_put (b := (b.put now key (0 :: value)).flush) rfl key value
  have latest : (((b.put now key (0 :: value)).flush.put now key value).main).find key =
      some value := by
    rw [← WriteBuffer.contents_eq_main written, WriteBuffer.contents_put, SortedMap.find_set,
      if_pos rfl]
  simp only [overwritten, Service.answers, Storage.serveBuffer, stored, latest,
    Option.getD_some]

theorem answers_overwritten_late {key value : Bytes} (late : due [(key, value)] = false) :
    Service.answers (Storage.serveBuffer format due) b (overwritten key value) =
      [.code 0, .flushed true, .code 0, .string (0 :: value)] := by
  have waits : ((b.put due key (0 :: value)).flush.put due key value).main =
      (b.put due key (0 :: value)).contents :=
    WriteBuffer.main_put_of_not_due late
  have older : (b.put due key (0 :: value)).contents.find key = some (0 :: value) := by
    rw [WriteBuffer.contents_put, SortedMap.find_set, if_pos rfl]
  simp only [overwritten, Service.answers, Storage.serveBuffer, stored, waits, older,
    Option.getD_some]

theorem unobservable_iff_eager (eager : WriteBuffer.Eager now) (m : SortedMap Bytes Bytes) :
    (∀ calls, Service.answers (Storage.serveBuffer format due) { main := m } calls =
      Service.answers (Storage.serveBuffer format now) { main := m } calls) ↔
      WriteBuffer.Eager due := by
  constructor
  · intro same e
    by_contra late
    have seen := same (overwritten e.1 e.2)
    rw [answers_overwritten_eager eager,
      answers_overwritten_late (Bool.eq_false_of_not_eq_true late)] at seen
    simp at seen
  · intro always calls
    refine answers_eq_of_settled eager
      (Service.along_of_invariant (fun b => b.pending = []) ?_ ?_ rfl calls)
    · intro b call
      exact pending_serveBuffer always
    · intro b call empty key _
      rw [WriteBuffer.Pending, empty]
      exact List.not_mem_nil

end Buffered

section Databases
variable {σ : Type} {format : HistoryFormat} {serve : σ → BatchCall → BatchAnswer × σ}
  {buffer : σ → WriteBuffer Bytes Bytes} {due : σ → List (Bytes × Bytes) → Bool} {s t : σ}

/-- A database serves its calls through a buffer, with one policy for all of them. -/
def Batched (format : HistoryFormat) (serve : σ → BatchCall → BatchAnswer × σ)
    (buffer : σ → WriteBuffer Bytes Bytes) (due : σ → List (Bytes × Bytes) → Bool) : Prop :=
  ∀ s call, (serve s call).1 = (serveBuffer format (due s) (buffer s) call).1 ∧
    buffer (serve s call).2 = (serveBuffer format (due s) (buffer s) call).2 ∧
    due (serve s call).2 = due s

theorem Batched.answers_eq (batched : Batched format serve buffer due) (calls : List BatchCall) :
    Service.answers serve s calls =
      Service.answers (serveBuffer format (due s)) (buffer s) calls := by
  induction calls generalizing s with
  | nil => rfl
  | cons call rest ih =>
      obtain ⟨answer, after, policy⟩ := batched s call
      rw [Service.answers, Service.answers, answer, ih, after, policy]

theorem Batched.along_iff (batched : Batched format serve buffer due) (calls : List BatchCall) :
    Service.Along serve (fun s => ReadsSettled (buffer s)) s calls ↔
      Service.Along (serveBuffer format (due s)) ReadsSettled (buffer s) calls := by
  induction calls generalizing s with
  | nil => exact Iff.rfl
  | cons call rest ih =>
      obtain ⟨-, after, policy⟩ := batched s call
      rw [Service.Along, Service.Along, ih, after, policy]

theorem Batched.unobservable_iff (batched : Batched format serve buffer due)
    {m : SortedMap Bytes Bytes} (opened : buffer s = { main := m })
    (unbatched : buffer t = { main := m }) (eager : WriteBuffer.Eager (due t)) :
    (∀ calls, Service.answers serve s calls = Service.answers serve t calls) ↔
      WriteBuffer.Eager (due s) := by
  rw [← unobservable_iff_eager eager m]
  refine forall_congr' fun calls => ?_
  rw [batched.answers_eq, batched.answers_eq, opened, unbatched]

theorem Batched.answers_eq_of_settled (batched : Batched format serve buffer due)
    {m : SortedMap Bytes Bytes} (opened : buffer s = { main := m })
    (unbatched : buffer t = { main := m }) (eager : WriteBuffer.Eager (due t))
    {calls : List BatchCall}
    (settled : Service.Along serve (fun s => ReadsSettled (buffer s)) s calls) :
    Service.answers serve s calls = Service.answers serve t calls := by
  rw [batched.along_iff, opened] at settled
  rw [batched.answers_eq, batched.answers_eq, opened, unbatched]
  exact Storage.answers_eq_of_settled eager settled

end Databases

namespace ResLevelDB
variable {format : HistoryFormat} {size : BatchSize}

def due (size : BatchSize) (writeBatchSize : ℕ) (batch : List (Bytes × Bytes)) : Bool :=
  writeBatchSize ≤ size.approximateSize batch

def buffer (db : ResLevelDB) : WriteBuffer Bytes Bytes := { main := db.db, pending := db.batch }

theorem setValue_buffer (db : ResLevelDB) (key value : Bytes) :
    (db.setValue size key value).1 = 0 ∧
      (db.setValue size key value).2.buffer =
        db.buffer.put (due size db.writeBatchSize) key value ∧
      due size (db.setValue size key value).2.writeBatchSize = due size db.writeBatchSize := by
  unfold setValue WriteBuffer.put due buffer
  dsimp only
  by_cases reached : db.writeBatchSize ≤ size.approximateSize (db.batch ++ [(key, value)])
  · simp only [reached, if_true, decide_true]
    exact ⟨trivial, rfl, trivial⟩
  · simp only [reached, if_false, decide_false]
    exact ⟨trivial, rfl, trivial⟩

theorem batched :
    Batched format (serve format size) buffer (fun db => due size db.writeBatchSize) := by
  intro db call
  cases call with
  | setValue key value =>
      obtain ⟨code, after⟩ := db.setValue_buffer key value
      exact ⟨congrArg BatchAnswer.code code, after⟩
  | setValueWithVersion key value version =>
      simp only [serve, serveBuffer, setValueWithVersion_eq]
      rw [show stored db.buffer.main key = db.getValue key from rfl]
      cases appendVersion format (db.getValue key) value version with
      | none => exact ⟨rfl, rfl, rfl⟩
      | some string =>
          obtain ⟨code, after⟩ := db.setValue_buffer key string
          exact ⟨congrArg BatchAnswer.code code, after⟩
  | getValue key => exact ⟨rfl, rfl, rfl⟩
  | getValueWithVersion key version => exact ⟨rfl, rfl, rfl⟩
  | getHistory key minVersion maxVersion => exact ⟨rfl, rfl, rfl⟩
  | flush => exact ⟨rfl, rfl, rfl⟩

theorem eager_due_iff {writeBatchSize : ℕ} : WriteBuffer.Eager (due size writeBatchSize) ↔
    ∀ key value, writeBatchSize ≤ size.approximateSize [(key, value)] :=
  ⟨fun eager key value => of_decide_eq_true (eager (key, value)),
    fun small e => decide_eq_true (small e.1 e.2)⟩

def opened (m : SortedMap Bytes Bytes) (writeBatchSize : ℕ) : ResLevelDB :=
  { db := m, writeBatchSize := writeBatchSize }

end ResLevelDB

namespace ResRocksDB
variable {format : HistoryFormat}

theorem batched : Batched format (serve format) buffer (fun db => due db.writeBatchSize) := by
  intro db call
  cases call with
  | setValueWithVersion key value version =>
      simp only [serve, serveBuffer, setValueWithVersion]
      rw [show stored db.buffer.main key = db.getValue key from rfl]
      cases appendVersion format (db.getValue key) value version with
      | none => exact ⟨rfl, rfl, rfl⟩
      | some string => exact ⟨rfl, rfl, rfl⟩
  | setValue key value => exact ⟨rfl, rfl, rfl⟩
  | getValue key => exact ⟨rfl, rfl, rfl⟩
  | getValueWithVersion key version => exact ⟨rfl, rfl, rfl⟩
  | getHistory key minVersion maxVersion => exact ⟨rfl, rfl, rfl⟩
  | flush => exact ⟨rfl, rfl, rfl⟩

theorem eager_due_iff {writeBatchSize : ℕ} :
    WriteBuffer.Eager (due writeBatchSize) ↔ writeBatchSize ≤ 1 := by
  constructor
  · intro eager
    exact of_decide_eq_true (eager ([], []))
  · intro small e
    exact decide_eq_true small

def opened (m : SortedMap Bytes Bytes) (writeBatchSize : ℕ) : ResRocksDB :=
  { buffer := { main := m }, writeBatchSize := writeBatchSize }

end ResRocksDB

/-- Batching cannot be seen, whatever the calls, exactly if every single write fills a batch: in
`ResLevelDB` by its bytes, in `ResRocksDB` up to one write. With any batch size it cannot be
seen by calls that read no key with a write in the batch. -/
theorem batching_unobservable_iff (format : HistoryFormat) (size : BatchSize)
    (m : SortedMap Bytes Bytes) :
    (∀ writeBatchSize,
      (∀ calls, Service.answers (ResLevelDB.serve format size) (.opened m writeBatchSize) calls =
        Service.answers (ResLevelDB.serve format size) (.opened m 1) calls) ↔
      ∀ key value, writeBatchSize ≤ size.approximateSize [(key, value)]) ∧
    (∀ writeBatchSize,
      (∀ calls, Service.answers (ResRocksDB.serve format) (.opened m writeBatchSize) calls =
        Service.answers (ResRocksDB.serve format) (.opened m 1) calls) ↔ writeBatchSize ≤ 1) ∧
    ∀ writeBatchSize calls,
      (Service.Along (ResLevelDB.serve format size) (fun db => ReadsSettled db.buffer)
        (.opened m writeBatchSize) calls →
        Service.answers (ResLevelDB.serve format size) (.opened m writeBatchSize) calls =
          Service.answers (ResLevelDB.serve format size) (.opened m 1) calls) ∧
      (Service.Along (ResRocksDB.serve format) (fun db => ReadsSettled db.buffer)
        (.opened m writeBatchSize) calls →
        Service.answers (ResRocksDB.serve format) (.opened m writeBatchSize) calls =
          Service.answers (ResRocksDB.serve format) (.opened m 1) calls) := by
  have level : WriteBuffer.Eager (ResLevelDB.due size 1) :=
    ResLevelDB.eager_due_iff.mpr (fun _ _ => size.positive _)
  have rocks : WriteBuffer.Eager (ResRocksDB.due 1) := ResRocksDB.eager_due_iff.mpr le_rfl
  refine ⟨fun writeBatchSize => ?_, fun writeBatchSize => ?_, fun writeBatchSize calls => ⟨?_, ?_⟩⟩
  · rw [← ResLevelDB.eager_due_iff]
    exact ResLevelDB.batched.unobservable_iff rfl rfl level
  · rw [← ResRocksDB.eager_due_iff]
    exact ResRocksDB.batched.unobservable_iff rfl rfl rocks
  · exact ResLevelDB.batched.answers_eq_of_settled rfl rfl level
  · exact ResRocksDB.batched.answers_eq_of_settled rfl rfl rocks

def flushedCalls : List BatchCall := [.setValue [1] [2], .flush, .getValue [1]]

theorem flushed_write_read :
    let level := Service.answers (ResLevelDB.serve default default)
    let rocks := Service.answers (ResRocksDB.serve default)
    level (.opened ∅ 1000) flushedCalls = level (.opened ∅ 1) flushedCalls ∧
      rocks (.opened ∅ 1000) flushedCalls = rocks (.opened ∅ 1) flushedCalls := by
  obtain ⟨level, rocks⟩ := (batching_unobservable_iff default default ∅).2.2 1000 flushedCalls
  refine ⟨level ⟨?_, ?_, ?_, trivial⟩, rocks ⟨?_, ?_, ?_, trivial⟩⟩ <;> decide

theorem ResRocksDB.setValueWithVersion_first {format : HistoryFormat} {db : ResRocksDB}
    {key : Bytes} (empty : db.getValue key = []) (value : Bytes) :
    db.setValueWithVersion format key value 0 =
      db.setValue key (format.serialize [(value, 1)]) := by
  rw [setValueWithVersion, empty, appendVersion, format.parse_nil]
  rfl

theorem ResRocksDB.setValueWithVersion_repeated {format : HistoryFormat} {db : ResRocksDB}
    {key first : Bytes} (typed : format.Typed 1)
    (written : db.getValue key = format.serialize [(first, 1)]) (value : Bytes) :
    db.setValueWithVersion format key value 0 = (-2, db) := by
  rw [setValueWithVersion, written, appendVersion, format.parse_serialize _ (by simpa using typed)]
  rfl

theorem ResLevelDB.pending_not_read (format : HistoryFormat) (size : BatchSize)
    (key value : Bytes) :
    Service.answers (ResLevelDB.serve format size)
        (.opened ∅ (size.approximateSize [(key, value)] + 1)) [.setValue key value, .getValue key] =
      [.code 0, .string []] := by
  have waits : (opened ∅ (size.approximateSize [(key, value)] + 1)).setValue size key value =
      (0, { opened ∅ (size.approximateSize [(key, value)] + 1) with batch := [(key, value)] }) :=
    if_neg (Nat.not_succ_le_self _)
  simp only [Service.answers, ResLevelDB.serve, waits]
  rfl

/-- A write that waits is not read, and two writes of one version are both accepted. -/
theorem pending_write_not_read :
    let level := Service.answers (ResLevelDB.serve default default)
    let rocks := Service.answers (ResRocksDB.serve default)
    let calls := [BatchCall.setValue [1] [2], .getValue [1]]
    let versioned := [BatchCall.setValueWithVersion [1] [2] 0, .setValueWithVersion [1] [3] 0]
    (∀ size : BatchSize, Service.answers (ResLevelDB.serve default size)
        (.opened ∅ (size.approximateSize [([1], [2])] + 1)) calls = [.code 0, .string []]) ∧
      level (.opened ∅ 1) calls = [.code 0, .string [2]] ∧
      rocks (.opened ∅ 3) versioned = [.code 0, .code 0] ∧
      rocks (.opened ∅ 1) versioned = [.code 0, .code (-2)] := by
  refine ⟨fun size => ResLevelDB.pending_not_read default size [1] [2], by decide, ?_, ?_⟩
  · have waits : (ResRocksDB.setValue (.opened ∅ 3) [1]
        ((default : HistoryFormat).serialize [([2], 1)])).2.getValue [1] = [] := rfl
    simp only [Service.answers, ResRocksDB.serve]
    rw [ResRocksDB.setValueWithVersion_first rfl, ResRocksDB.setValueWithVersion_first waits]
    rfl
  · have written : (ResRocksDB.setValue (.opened ∅ 1) [1]
        ((default : HistoryFormat).serialize [([2], 1)])).2.getValue [1] =
        (default : HistoryFormat).serialize [([2], 1)] := rfl
    have typed : (default : HistoryFormat).Typed 1 := ⟨by decide, by decide⟩
    simp only [Service.answers, ResRocksDB.serve]
    rw [ResRocksDB.setValueWithVersion_first rfl,
      ResRocksDB.setValueWithVersion_repeated typed written]
    rfl

end ResDB.Storage
