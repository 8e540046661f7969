import Mathlib.Tactic
import ResDB.Library.AssocMap
import ResDB.Library.Service
import ResDB.Library.SortedMap
import ResDB.Storage.Versions

/-! `MemoryDB`: the values of a key in a list, in a hash table. The order in which the table
lists its entries is open at every call; the maps that are returned are ordered. -/
namespace ResDB.Storage

/-- The values of a key with their versions. A list is made with its first value. -/
abbrev ValueList := { l : List (Bytes × Int) // l ≠ [] }

def ValueList.back (l : ValueList) : Bytes × Int := l.1.getLast l.2

structure HashOrder (α : Type) where
  list : List α → List α
  perm : ∀ entries, (list entries).Perm entries

instance {α : Type} : Inhabited (HashOrder α) := ⟨⟨id, fun _ => .refl _⟩⟩

structure MemoryDB where
  kvMapWithV : AssocMap Bytes ValueList := ∅

namespace MemoryDB
variable (db : MemoryDB)

/-- `kv_map_with_v_[key].push_back(..)` -/
def pushBack (key : Bytes) (e : Bytes × Int) : MemoryDB :=
  match db.kvMapWithV.find key with
  | none => ⟨db.kvMapWithV.set key ⟨[e], List.cons_ne_nil _ _⟩⟩
  | some l => ⟨db.kvMapWithV.set key ⟨l.1 ++ [e], List.concat_ne_nil _ _⟩⟩

def setValueWithVersion (key value : Bytes) (version : Int) : Int × MemoryDB :=
  match db.kvMapWithV.find key with
  | none => if version ≠ 0 then (-2, db) else (0, db.pushBack key (value, version + 1))
  | some l =>
      if l.back.2 ≠ version then (-2, db) else (0, db.pushBack key (value, version + 1))

def getValueWithVersion (key : Bytes) (version : Int) : Bytes × Int :=
  match db.kvMapWithV.find key with
  | none => ([], 0)
  | some l => (searchBack version l.1.reverse).getD l.back

def getAllItems (order : HashOrder (Bytes × ValueList)) : SortedMap Bytes (Bytes × Int) :=
  .ofList ((order.list db.kvMapWithV.entries).map (fun e => (e.1, e.2.back)))

def getKeyRange (order : HashOrder (Bytes × ValueList)) (minKey maxKey : Bytes) :
    SortedMap Bytes (Bytes × Int) :=
  .ofList (((order.list db.kvMapWithV.entries).filter
    (fun e => minKey ≤ e.1 ∧ e.1 ≤ maxKey)).map (fun e => (e.1, e.2.back)))

def getHistory (key : Bytes) (minVersion maxVersion : Int) : List (Bytes × Int) :=
  match db.kvMapWithV.find key with
  | none => []
  | some l => collectBack minVersion maxVersion l.1.reverse

/-- A call, with the order in which the table lists its entries at that time. -/
def step (db : MemoryDB) (call : Call × HashOrder (Bytes × ValueList)) :
    Answer (SortedMap Bytes (Bytes × Int)) × MemoryDB :=
  match call.1 with
  | .setValueWithVersion key value version =>
      (.code (db.setValueWithVersion key value version).1,
        (db.setValueWithVersion key value version).2)
  | .getValueWithVersion key version => (.value (db.getValueWithVersion key version), db)
  | .getAllItems => (.items (db.getAllItems call.2), db)
  | .getKeyRange minKey maxKey => (.items (db.getKeyRange call.2 minKey maxKey), db)
  | .getHistory key minVersion maxVersion =>
      (.history (db.getHistory key minVersion maxVersion), db)

/-- The table has the values of every key that has one, numbered. -/
def Holds (db : MemoryDB) (m : Versions) : Prop :=
  ∀ key, (db.kvMapWithV.find key).map Subtype.val =
    if m key = [] then none else some (Versions.numbered (m key))

section Simulation
open Versions (numbered newest ofVersion)
variable {db} {m : Versions} {key : Bytes}

theorem Holds.cases (holds : Holds db m) (key : Bytes) :
    (db.kvMapWithV.find key = none ∧ m key = []) ∨
      ∃ l, db.kvMapWithV.find key = some l ∧ m key ≠ [] ∧ l.1 = numbered (m key) := by
  have held := holds key
  split_ifs at held with empty
  · exact .inl ⟨Option.map_eq_none_iff.mp held, empty⟩
  · obtain ⟨l, found, same⟩ := Option.map_eq_some_iff.mp held
    exact .inr ⟨l, found, empty, same⟩

theorem back_eq {l : ValueList} {values : List Bytes} (same : l.1 = numbered values) :
    newest values = some l.back := by
  rw [← Versions.getLast?_numbered, ← same, ValueList.back]
  exact List.getLast?_eq_some_getLast l.2

theorem Holds.newest_eq (holds : Holds db m) (key : Bytes) :
    newest (m key) = (db.kvMapWithV.find key).map ValueList.back := by
  rcases holds.cases key with ⟨absent, empty⟩ | ⟨l, found, -, same⟩
  · rw [absent, empty]
    rfl
  · rw [found, back_eq same, Option.map_some]

theorem Holds.back_version (holds : Holds db m) {l : ValueList}
    (found : db.kvMapWithV.find key = some l) : l.back.2 = (m key).length := by
  have last := holds.newest_eq key
  rw [found, Option.map_some, newest, Option.map_eq_some_iff] at last
  obtain ⟨value, -, same⟩ := last
  rw [← same]

theorem Holds.pushBack (holds : Holds db m) (key value : Bytes) :
    Holds (db.pushBack key (value, ((m key).length : Int) + 1))
      (Function.update m key (m key ++ [value])) := by
  intro other
  unfold MemoryDB.pushBack
  by_cases same : other = key
  · subst same
    rw [Function.update_self, if_neg (List.concat_ne_nil _ _), Versions.numbered_concat]
    rcases holds.cases other with ⟨absent, empty⟩ | ⟨l, found, -, numbers⟩
    · simp [absent, empty]
    · simp [found, numbers]
  · rw [Function.update_of_ne same]
    rcases holds.cases key with ⟨absent, -⟩ | ⟨l, found, -, -⟩
    · simpa [absent, same] using holds other
    · simpa [found, same] using holds other

theorem Holds.setValueWithVersion (holds : Holds db m) (key value : Bytes) (version : Int) :
    db.setValueWithVersion key value version =
      if version = (m key).length then (0, db.pushBack key (value, ((m key).length : Int) + 1))
      else (-2, db) := by
  unfold MemoryDB.setValueWithVersion
  rcases holds.cases key with ⟨absent, empty⟩ | ⟨l, found, -, -⟩
  · rw [absent, empty]
    by_cases first : version = 0
    · simp [first]
    · simp [first]
  · rw [found]
    simp only [holds.back_version found]
    by_cases match' : version = (m key).length
    · simp [match']
    · simp [match', Ne.symm match']

theorem Holds.getValueWithVersion (holds : Holds db m) (key : Bytes) (version : Int) :
    db.getValueWithVersion key version =
      ((ofVersion (m key) version).or (newest (m key))).getD ([], 0) := by
  unfold MemoryDB.getValueWithVersion
  rcases holds.cases key with ⟨absent, empty⟩ | ⟨l, found, -, same⟩
  · simp [absent, empty, ofVersion, newest]
  · rw [found]
    simp only [same, Versions.searchBack_numbered, back_eq same]
    cases ofVersion (m key) version <;> rfl

theorem Holds.getHistory (holds : Holds db m) (key : Bytes) (minVersion maxVersion : Int) :
    db.getHistory key minVersion maxVersion =
      ((numbered (m key)).filter (Versions.inRange minVersion maxVersion)).reverse := by
  unfold MemoryDB.getHistory
  rcases holds.cases key with ⟨absent, empty⟩ | ⟨l, found, -, same⟩
  · rw [absent, empty]
    rfl
  · rw [found]
    simp only [same, Versions.collectBack_numbered]

theorem Holds.find_ofList (holds : Holds db m) (order : HashOrder (Bytes × ValueList))
    (select : Bytes → Bool) (key : Bytes) :
    (SortedMap.ofList (((order.list db.kvMapWithV.entries).filter (fun e => select e.1)).map
      (fun e => (e.1, e.2.back)))).find key = if select key then newest (m key) else none := by
  have listed := order.perm db.kvMapWithV.entries
  have distinct : ((((order.list db.kvMapWithV.entries).filter (fun e => select e.1)).map
      (fun e => (e.1, e.2.back))).map Prod.fst).Nodup := by
    rw [List.map_map]
    refine List.Nodup.sublist (List.filter_sublist.map _) ?_
    exact ((listed.map Prod.fst).nodup_iff).mpr db.kvMapWithV.nodup
  ext e
  rw [SortedMap.find_eq_some_iff, SortedMap.mem_ofList distinct, List.mem_map, holds.newest_eq]
  constructor
  · rintro ⟨⟨other, l⟩, inside, same⟩
    obtain ⟨rfl, rfl⟩ := Prod.mk.inj same
    obtain ⟨member, chosen⟩ := List.mem_filter.mp inside
    have found := db.kvMapWithV.find_eq_some_iff.mpr (listed.mem_iff.mp member)
    rw [if_pos chosen, found, Option.map_some]
  · intro found
    rw [Option.ite_none_right_eq_some] at found
    obtain ⟨chosen, found⟩ := found
    obtain ⟨l, held, rfl⟩ := Option.map_eq_some_iff.mp found
    have member := listed.mem_iff.mpr (db.kvMapWithV.find_eq_some_iff.mp held)
    exact ⟨(key, l), List.mem_filter.mpr ⟨member, chosen⟩, rfl⟩

theorem Holds.getAllItems (holds : Holds db m) (order : HashOrder (Bytes × ValueList)) :
    (db.getAllItems order).find = fun key => newest (m key) := by
  funext key
  have found := holds.find_ofList order (fun _ => true) key
  rw [List.filter_true] at found
  exact found

theorem Holds.getKeyRange (holds : Holds db m) (order : HashOrder (Bytes × ValueList))
    (minKey maxKey : Bytes) :
    (db.getKeyRange order minKey maxKey).find =
      fun key => if minKey ≤ key ∧ key ≤ maxKey then newest (m key) else none := by
  funext key
  have found := holds.find_ofList order (fun key => minKey ≤ key ∧ key ≤ maxKey) key
  simp only [decide_eq_true_eq] at found
  exact found

theorem Holds.step (holds : Holds db m) (call : Call × HashOrder (Bytes × ValueList)) :
    (db.step call).1.map SortedMap.find = (m.step call.1).1 ∧
      Holds (db.step call).2 (m.step call.1).2 := by
  obtain ⟨call, order⟩ := call
  cases call with
  | setValueWithVersion key value version =>
      simp only [MemoryDB.step, Versions.step, holds.setValueWithVersion]
      split
      · exact ⟨rfl, holds.pushBack key value⟩
      · exact ⟨rfl, holds⟩
  | getValueWithVersion key version =>
      exact ⟨congrArg Answer.value (holds.getValueWithVersion key version), holds⟩
  | getAllItems => exact ⟨congrArg Answer.items (holds.getAllItems order), holds⟩
  | getKeyRange minKey maxKey =>
      exact ⟨congrArg Answer.items (holds.getKeyRange order minKey maxKey), holds⟩
  | getHistory key minVersion maxVersion =>
      exact ⟨congrArg Answer.history (holds.getHistory key minVersion maxVersion), holds⟩

theorem holds_empty : Holds {} (fun _ => []) := fun _ => rfl

end Simulation
end MemoryDB
end ResDB.Storage
