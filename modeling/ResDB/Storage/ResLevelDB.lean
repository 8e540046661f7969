import Mathlib.Tactic
import ResDB.Library.MachineInt
import ResDB.Library.TableCode
import ResDB.Storage.MemoryDB

/-! `ResLevelDB`: the history of a key as one serialised message, in a database that is an
ordered map of byte strings. Writes go through a batch, which is written when it has
`write_batch_size` bytes. Both implementations answer as the storage should. -/
namespace ResDB.Storage
open MachineInt (IsInt)

/-- `ValueHistory` as a string. Parsing undoes serialising, if the versions are typed, that is
ones that the field of the message can have. The empty string is the message without values. -/
structure HistoryFormat where
  serialize : List (Bytes × Int) → Bytes
  parse : Bytes → Option (List (Bytes × Int))
  Typed : Int → Prop
  parse_serialize : ∀ history, (∀ e ∈ history, Typed e.2) →
    parse (serialize history) = some history
  parse_nil : parse [] = some []

instance : Inhabited HistoryFormat where
  default :=
    { serialize := TableCode.serialize [[]]
      parse := TableCode.parse [[]]
      Typed := IsInt 32
      parse_serialize := fun history _ => TableCode.parse_serialize _ history
      parse_nil := rfl }

/-- `ApproximateSize` of `leveldb`, the bytes of a batch. No batch is without bytes. -/
structure BatchSize where
  approximateSize : List (Bytes × Bytes) → ℕ
  positive : ∀ batch, 0 < approximateSize batch

/-- A header of 12 bytes, and for every write a tag and the two strings. -/
instance : Inhabited BatchSize where
  default :=
    { approximateSize := fun batch =>
        12 + (batch.map (fun e => 1 + e.1.length + e.2.length)).sum
      positive := fun _ => Nat.lt_of_lt_of_le (by decide) (Nat.le_add_right 12 _) }

structure ResLevelDB where
  db : SortedMap Bytes Bytes := ∅
  batch : List (Bytes × Bytes) := []
  writeBatchSize : ℕ := 1

namespace ResLevelDB
variable (format : HistoryFormat) (size : BatchSize) (db : ResLevelDB)

def setValue (key value : Bytes) : Int × ResLevelDB :=
  let batch := db.batch ++ [(key, value)]
  if db.writeBatchSize ≤ size.approximateSize batch then
    (0, { db with db := batch.foldl (fun db e => db.set e.1 e.2) db.db, batch := [] })
  else (0, { db with batch := batch })

def getValue (key : Bytes) : Bytes := (db.db.find key).getD []

def setValueWithVersion (key value : Bytes) (version : Int) : Int × ResLevelDB :=
  match format.parse (db.getValue key) with
  | none => (-2, db)
  | some history =>
      let lastV := (history.getLast?.map Prod.snd).getD 0
      if lastV ≠ version then (-2, db)
      else db.setValue size key (format.serialize (history ++ [(value, version + 1)]))

def getValueWithVersion (key : Bytes) (version : Int) : Bytes × Int :=
  match format.parse (db.getValue key) with
  | none => ([], 0)
  | some history =>
      match history.getLast? with
      | none => ([], 0)
      | some last =>
          if 0 < version then (searchBack version history.reverse).getD last else last

/-- The newest value under an entry of the database, unless there is none to be read. -/
def item (e : Bytes × Bytes) : Option (Bytes × Bytes × Int) :=
  match format.parse e.2 with
  | none => none
  | some history => history.getLast?.map (fun value => (e.1, value))

def getAllItems : SortedMap Bytes (Bytes × Int) := .ofList (db.db.entries.filterMap (item format))

def getKeyRange (minKey maxKey : Bytes) : SortedMap Bytes (Bytes × Int) :=
  .ofList ((db.db.range minKey maxKey).filterMap (item format))

def getHistory (key : Bytes) (minVersion maxVersion : Int) : List (Bytes × Int) :=
  match format.parse (db.getValue key) with
  | none => []
  | some history => collectBack minVersion maxVersion history.reverse

def step (db : ResLevelDB) : Call → Answer (SortedMap Bytes (Bytes × Int)) × ResLevelDB
  | .setValueWithVersion key value version =>
      (.code (db.setValueWithVersion format size key value version).1,
        (db.setValueWithVersion format size key value version).2)
  | .getValueWithVersion key version => (.value (db.getValueWithVersion format key version), db)
  | .getAllItems => (.items (db.getAllItems format), db)
  | .getKeyRange minKey maxKey => (.items (db.getKeyRange format minKey maxKey), db)
  | .getHistory key minVersion maxVersion =>
      (.history (db.getHistory format key minVersion maxVersion), db)

/-- Nothing waits in the batch, and the database has the history of every key that has a
value. So many calls can still be made that all versions are typed. -/
structure Holds (left : ℕ) (db : ResLevelDB) (m : Versions) : Prop where
  unbatched : db.writeBatchSize = 1
  written : db.batch = []
  entries : ∀ key, db.db.find key =
    if m key = [] then none else some (format.serialize (Versions.numbered (m key)))
  room : ∀ key, ∀ version : ℕ, version ≤ (m key).length + left → format.Typed version

section Simulation
open Versions (numbered newest ofVersion)
variable {format} {size} {db} {m : Versions} {key : Bytes} {left : ℕ}

theorem Holds.typed (holds : Holds format left db m) (key : Bytes) :
    ∀ e ∈ numbered (m key), format.Typed e.2 := by
  intro e inside
  obtain ⟨i, bound, rfl⟩ := List.mem_mapIdx.mp inside
  exact holds.room key (i + 1) (by omega)

theorem Holds.fewer (holds : Holds format (left + 1) db m) : Holds format left db m :=
  { holds with room := fun key version bound => holds.room key version (by omega) }

theorem Holds.parse (holds : Holds format left db m) (key : Bytes) :
    format.parse (db.getValue key) = some (numbered (m key)) := by
  rw [getValue, holds.entries]
  split
  · rename_i empty
    rw [empty]
    exact format.parse_nil
  · exact format.parse_serialize _ (holds.typed key)

theorem Holds.setValue (holds : Holds format left db m) (key value : Bytes) :
    db.setValue size key value = (0, { db with db := db.db.set key value }) := by
  have reached : db.writeBatchSize ≤ size.approximateSize [(key, value)] :=
    holds.unbatched ▸ size.positive _
  rw [ResLevelDB.setValue, holds.written, List.nil_append]
  exact if_pos reached

theorem Holds.appended (holds : Holds format (left + 1) db m) (key value : Bytes) :
    Holds format left
      { db with db := db.db.set key (format.serialize (numbered (m key ++ [value]))) }
      (Function.update m key (m key ++ [value])) := by
  refine ⟨holds.unbatched, holds.written, fun other => ?_, fun other version bound => ?_⟩
  · rw [SortedMap.find_set]
    by_cases same : other = key
    · rw [if_pos same, same, Function.update_self, if_neg (List.concat_ne_nil _ _)]
    · rw [if_neg same, Function.update_of_ne same]
      exact holds.entries other
  · by_cases same : other = key
    · rw [same, Function.update_self, List.length_append, List.length_singleton] at bound
      exact holds.room key version (by omega)
    · rw [Function.update_of_ne same] at bound
      exact holds.fewer.room other version bound

theorem lastV_eq (values : List Bytes) :
    (((numbered values).getLast?.map Prod.snd).getD 0 : Int) = values.length := by
  rw [Versions.getLast?_numbered]
  cases values using List.reverseRecOn with
  | nil => rfl
  | append_singleton rest value => simp [newest]

theorem Holds.setValueWithVersion (holds : Holds format left db m) (key value : Bytes)
    (version : Int) :
    db.setValueWithVersion format size key value version =
      if version = (m key).length then
        (0, { db with db := db.db.set key (format.serialize (numbered (m key ++ [value]))) })
      else (-2, db) := by
  unfold ResLevelDB.setValueWithVersion
  rw [holds.parse]
  simp only [lastV_eq, holds.setValue]
  by_cases next : version = (m key).length
  · simp [next]
  · simp [next, Ne.symm next]

theorem Holds.getValueWithVersion (holds : Holds format left db m) (key : Bytes) (version : Int) :
    db.getValueWithVersion format key version =
      ((ofVersion (m key) version).or (newest (m key))).getD ([], 0) := by
  unfold ResLevelDB.getValueWithVersion
  rw [holds.parse]
  simp only [Versions.getLast?_numbered, Versions.searchBack_numbered]
  cases last : newest (m key) with
  | none =>
      have empty : m key = [] := by
        simpa [newest] using last
      simp [empty, ofVersion]
  | some value =>
      by_cases positive : 0 < version
      · simp only [if_pos positive]
        cases ofVersion (m key) version <;> rfl
      · -- the search is left out for versions that no value has
        have none' : ofVersion (m key) version = none := if_neg (by omega)
        simp only [if_neg positive, none']
        rfl

theorem Holds.getHistory (holds : Holds format left db m) (key : Bytes)
    (minVersion maxVersion : Int) :
    db.getHistory format key minVersion maxVersion =
      ((numbered (m key)).filter (Versions.inRange minVersion maxVersion)).reverse := by
  unfold ResLevelDB.getHistory
  rw [holds.parse]
  exact Versions.collectBack_numbered _ _ _

theorem item_key {e : Bytes × Bytes} {out : Bytes × Bytes × Int}
    (made : item format e = some out) : out.1 = e.1 := by
  unfold item at made
  split at made
  · cases made
  · obtain ⟨value, -, rfl⟩ := Option.map_eq_some_iff.mp made
    rfl

theorem Holds.find_ofList (holds : Holds format left db m) {entries : List (Bytes × Bytes)}
    (distinct : (entries.map Prod.fst).Nodup) (select : Bytes → Prop) [DecidablePred select]
    (selected : ∀ e, e ∈ entries ↔ e ∈ db.db.entries ∧ select e.1) (key : Bytes) :
    (SortedMap.ofList (entries.filterMap (item format))).find key =
      if select key then newest (m key) else none := by
  have read : ∀ e ∈ entries, item format e = (newest (m e.1)).map (fun value => (e.1, value)) := by
    intro e inside
    have found := db.db.find_eq_some_iff.mpr ((selected e).mp inside).1
    have parsed := holds.parse e.1
    rw [getValue, found, Option.getD_some] at parsed
    simp only [item, parsed, Versions.getLast?_numbered]
  have keys : ((entries.filterMap (item format)).map Prod.fst).Nodup := by
    rw [List.Nodup, List.pairwise_map, List.pairwise_filterMap]
    refine (List.pairwise_map.mp distinct).imp (fun differ out made out' made' => ?_)
    rwa [item_key made, item_key made']
  ext value
  rw [SortedMap.find_eq_some_iff, SortedMap.mem_ofList keys, List.mem_filterMap,
    Option.ite_none_right_eq_some]
  constructor
  · rintro ⟨e, inside, made⟩
    rw [read e inside] at made
    obtain ⟨last, held, same⟩ := Option.map_eq_some_iff.mp made
    obtain ⟨rfl, rfl⟩ := Prod.mk.inj same
    exact ⟨((selected e).mp inside).2, held⟩
  · rintro ⟨chosen, held⟩
    have filled : m key ≠ [] := by
      intro empty
      rw [empty] at held
      cases held
    have found := holds.entries key
    rw [if_neg filled] at found
    have inside := (selected _).mpr ⟨db.db.find_eq_some_iff.mp found, chosen⟩
    refine ⟨_, inside, ?_⟩
    rw [read _ inside, held]
    rfl

theorem Holds.getAllItems (holds : Holds format left db m) :
    (db.getAllItems format).find = fun key => newest (m key) := by
  funext key
  have found := holds.find_ofList db.db.nodup_keys (fun _ => True) (by simp) key
  rwa [if_pos trivial] at found

theorem Holds.getKeyRange (holds : Holds format left db m) (minKey maxKey : Bytes) :
    (db.getKeyRange format minKey maxKey).find =
      fun key => if minKey ≤ key ∧ key ≤ maxKey then newest (m key) else none := by
  funext key
  exact holds.find_ofList (db.db.nodup_keys_range minKey maxKey)
    (fun key => minKey ≤ key ∧ key ≤ maxKey) (db.db.mem_range minKey maxKey) key

theorem Holds.step (holds : Holds format (left + 1) db m) (call : Call) :
    (db.step format size call).1.map SortedMap.find = (m.step call).1 ∧
      Holds format left (db.step format size call).2 (m.step call).2 := by
  cases call with
  | setValueWithVersion key value version =>
      simp only [ResLevelDB.step, Versions.step, holds.setValueWithVersion]
      split
      · exact ⟨rfl, holds.appended key value⟩
      · exact ⟨rfl, holds.fewer⟩
  | getValueWithVersion key version =>
      exact ⟨congrArg Answer.value (holds.getValueWithVersion key version), holds.fewer⟩
  | getAllItems => exact ⟨congrArg Answer.items holds.getAllItems, holds.fewer⟩
  | getKeyRange minKey maxKey =>
      exact ⟨congrArg Answer.items (holds.getKeyRange minKey maxKey), holds.fewer⟩
  | getHistory key minVersion maxVersion =>
      exact ⟨congrArg Answer.history (holds.getHistory key minVersion maxVersion), holds.fewer⟩

theorem holds_empty (typed : ∀ version : ℕ, version ≤ left → format.Typed version) :
    Holds format left {} (fun _ => []) :=
  ⟨rfl, rfl, fun _ => rfl, fun _ version bound => typed version (by simpa using bound)⟩

end Simulation
end ResLevelDB

/-- From the empty storage on, both implementations give the same answers to every sequence of
calls, and they are those of the lists of values, if every version that the calls can reach is
typed: for the `int32` of the message, if there are fewer than 2^31 calls. -/
theorem storages_answer_as_versions (format : HistoryFormat) (size : BatchSize)
    (calls : List (Call × HashOrder (Bytes × ValueList)))
    (typed : ∀ version : ℕ, version ≤ calls.length → format.Typed version) :
    Service.answers MemoryDB.step {} calls =
        Service.answers (ResLevelDB.step format size) {} (calls.map Prod.fst) ∧
      (Service.answers MemoryDB.step {} calls).map (Answer.map SortedMap.find) =
        Service.answers Versions.step (fun _ => []) (calls.map Prod.fst) := by
  have memory : (Service.answers MemoryDB.step {} calls).map (Answer.map SortedMap.find) =
      Service.answers Versions.step (fun _ => []) (calls.map Prod.fst) :=
    Service.answers_map_of_simulation _ Prod.fst (fun _ => MemoryDB.Holds)
      (fun _ _ _ call holds => holds.step call) MemoryDB.holds_empty
  have level : (Service.answers (ResLevelDB.step format size) {} (calls.map Prod.fst)).map
        (Answer.map SortedMap.find) =
      Service.answers Versions.step (fun _ => []) ((calls.map Prod.fst).map id) :=
    Service.answers_map_of_simulation _ id (ResLevelDB.Holds format)
      (fun _ _ _ call holds => holds.step call)
      (ResLevelDB.holds_empty (by rwa [List.length_map]))
  rw [List.map_id] at level
  refine ⟨?_, memory⟩
  refine List.map_injective_iff.mpr (Answer.map_injective SortedMap.find_injective) ?_
  rw [memory, level]

/-- Two values, one with a version that is not the newest, and a version that no value has. -/
def sampleCalls : List (Call × HashOrder (Bytes × ValueList)) :=
  [(.setValueWithVersion [1] [8] 0, default), (.setValueWithVersion [1] [9] 1, default),
    (.setValueWithVersion [1] [7] 0, default), (.getValueWithVersion [1] 5, default),
    (.getHistory [1] 0 9, default)]

theorem typed_of_short {length : ℕ} (short : length < 2 ^ 31) (version : ℕ)
    (bound : version ≤ length) : (default : HistoryFormat).Typed version :=
  ⟨by omega, by omega⟩

theorem sampleCalls_answered :
    Service.answers (ResLevelDB.step default default) {} (sampleCalls.map Prod.fst) =
      [.code 0, .code 0, .code (-2), .value ([9], 2), .history [([9], 2), ([8], 1)]] :=
  (storages_answer_as_versions default default sampleCalls
    (typed_of_short (by decide))).1.symm.trans rfl

end ResDB.Storage
