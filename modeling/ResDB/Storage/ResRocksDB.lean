import Mathlib.Tactic
import ResDB.Library.WriteBuffer
import ResDB.Storage.ResLevelDB

/-! `ResRocksDB`. Its calls are those of `ResLevelDB` word for word, on the string that
`GetValue` returns; only the batch is written when it has `write_batch_size` writes instead of
as many bytes. -/
namespace ResDB.Storage

section History
variable (format : HistoryFormat) (string : Bytes)

/-- The body of `SetValueWithVersion`: the string to be written, unless the version is not the
newest one. -/
def appendVersion (value : Bytes) (version : Int) : Option Bytes :=
  match format.parse string with
  | none => none
  | some history =>
      let lastV := (history.getLast?.map Prod.snd).getD 0
      if lastV ≠ version then none else some (format.serialize (history ++ [(value, version + 1)]))

/-- The body of `GetValueWithVersion`. -/
def versionIn (version : Int) : Bytes × Int :=
  match format.parse string with
  | none => ([], 0)
  | some history =>
      match history.getLast? with
      | none => ([], 0)
      | some last =>
          if 0 < version then (searchBack version history.reverse).getD last else last

/-- The body of `GetHistory`. -/
def historyIn (minVersion maxVersion : Int) : List (Bytes × Int) :=
  match format.parse string with
  | none => []
  | some history => collectBack minVersion maxVersion history.reverse

end History

/-- What `GetValue` returns: the string in the database, or the empty one. -/
def stored (m : SortedMap Bytes Bytes) (key : Bytes) : Bytes := (m.find key).getD []

/-- The buffer is `db_` with `batch_` before it. -/
structure ResRocksDB where
  buffer : WriteBuffer Bytes Bytes := {}
  writeBatchSize : ℕ := 1

namespace ResRocksDB
variable (format : HistoryFormat) (db : ResRocksDB)

/-- The batch is written: `batch_.Count() >= write_batch_size_`. -/
def due (writeBatchSize : ℕ) (batch : List (Bytes × Bytes)) : Bool :=
  writeBatchSize ≤ batch.length

def setValue (key value : Bytes) : Int × ResRocksDB :=
  (0, { db with buffer := db.buffer.put (due db.writeBatchSize) key value })

def getValue (key : Bytes) : Bytes := stored db.buffer.main key

def flush : Bool × ResRocksDB := (true, { db with buffer := db.buffer.flush })

def setValueWithVersion (key value : Bytes) (version : Int) : Int × ResRocksDB :=
  match appendVersion format (db.getValue key) value version with
  | none => (-2, db)
  | some string => db.setValue key string

def getValueWithVersion (key : Bytes) (version : Int) : Bytes × Int :=
  versionIn format (db.getValue key) version

def getHistory (key : Bytes) (minVersion maxVersion : Int) : List (Bytes × Int) :=
  historyIn format (db.getValue key) minVersion maxVersion

end ResRocksDB

namespace ResLevelDB
variable (format : HistoryFormat) (size : BatchSize) (db : ResLevelDB)

def flush : Bool × ResLevelDB :=
  (true, { db with db := db.batch.foldl (fun db e => db.set e.1 e.2) db.db, batch := [] })

theorem setValueWithVersion_eq (key value : Bytes) (version : Int) :
    db.setValueWithVersion format size key value version =
      match appendVersion format (db.getValue key) value version with
      | none => (-2, db)
      | some string => db.setValue size key string := by
  unfold setValueWithVersion appendVersion
  cases format.parse (db.getValue key) with
  | none => rfl
  | some history =>
      dsimp only
      split_ifs <;> rfl

end ResLevelDB
end ResDB.Storage
