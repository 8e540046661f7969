import Mathlib.Data.List.Lex
import Mathlib.Tactic
import ResDB.Common.Crypto

/-! The versioned interface of `Storage`: its calls, what the storage is for (every key has a
list of values, and the i-th value has version i), and the two backward loops over a history
that both implementations have. -/
namespace ResDB

instance linearOrderByte : LinearOrder UInt8 where
  le_refl := UInt8.le_refl
  le_trans _ _ _ := UInt8.le_trans
  le_antisymm _ _ := UInt8.le_antisymm
  le_total := UInt8.le_total
  lt_iff_le_not_ge _ _ := by
    rw [UInt8.lt_iff_toNat_lt, UInt8.le_iff_toNat_le, UInt8.le_iff_toNat_le]
    omega
  toDecidableLE := inferInstance

namespace Storage

inductive Call where
  | setValueWithVersion (key value : Bytes) (version : Int)
  | getValueWithVersion (key : Bytes) (version : Int)
  | getAllItems
  | getKeyRange (minKey maxKey : Bytes)
  | getHistory (key : Bytes) (minVersion maxVersion : Int)

/-- What the calls return, over the type of the maps of items. -/
inductive Answer (M : Type) where
  | code (c : Int)
  | value (v : Bytes × Int)
  | items (m : M)
  | history (l : List (Bytes × Int))

def Answer.map {M N : Type} (f : M → N) : Answer M → Answer N
  | .code c => .code c
  | .value v => .value v
  | .items m => .items (f m)
  | .history l => .history l

theorem Answer.map_injective {M N : Type} {f : M → N} (injective : Function.Injective f) :
    Function.Injective (Answer.map f) := by
  intro a b same
  cases a <;> cases b <;> simp only [Answer.map, Answer.code.injEq, Answer.value.injEq,
    Answer.items.injEq, Answer.history.injEq, reduceCtorEq] at same ⊢
  all_goals first
    | exact same
    | exact injective same

section Loops

def searchBack (version : Int) : List (Bytes × Int) → Option (Bytes × Int)
  | [] => none
  | e :: rest =>
      if e.2 = version then some e
      else if e.2 < version then none
      else searchBack version rest

/-- The collection of the versions in a range from the newest value down. -/
def collectBack (minVersion maxVersion : Int) : List (Bytes × Int) → List (Bytes × Int)
  | [] => []
  | e :: rest =>
      if e.2 < minVersion then []
      else if e.2 ≤ maxVersion then e :: collectBack minVersion maxVersion rest
      else collectBack minVersion maxVersion rest

end Loops

/-- What the storage is for: the values of every key. -/
abbrev Versions := Bytes → List Bytes

namespace Versions

def numbered (values : List Bytes) : List (Bytes × Int) :=
  values.mapIdx (fun i value => (value, (i : Int) + 1))

def newest (values : List Bytes) : Option (Bytes × Int) :=
  values.getLast?.map (fun value => (value, (values.length : Int)))

def ofVersion (values : List Bytes) (version : Int) : Option (Bytes × Int) :=
  if 1 ≤ version then (values[(version - 1).toNat]?).map (fun value => (value, version)) else none

def inRange (minVersion maxVersion : Int) (e : Bytes × Int) : Bool :=
  minVersion ≤ e.2 ∧ e.2 ≤ maxVersion

def step (m : Versions) : Call → Answer (Bytes → Option (Bytes × Int)) × Versions
  | .setValueWithVersion key value version =>
      if version = (m key).length then (.code 0, Function.update m key (m key ++ [value]))
      else (.code (-2), m)
  | .getValueWithVersion key version =>
      (.value (((ofVersion (m key) version).or (newest (m key))).getD ([], 0)), m)
  | .getAllItems => (.items (fun key => newest (m key)), m)
  | .getKeyRange minKey maxKey =>
      (.items (fun key => if minKey ≤ key ∧ key ≤ maxKey then newest (m key) else none), m)
  | .getHistory key minVersion maxVersion =>
      (.history ((numbered (m key)).filter (inRange minVersion maxVersion)).reverse, m)

section Numbered
variable (values : List Bytes)

@[simp] theorem numbered_nil : numbered [] = [] := rfl

@[simp] theorem numbered_concat (value : Bytes) :
    numbered (values ++ [value]) = numbered values ++ [(value, (values.length : Int) + 1)] :=
  List.mapIdx_concat

theorem getLast?_numbered : (numbered values).getLast? = newest values := by
  induction values using List.reverseRecOn with
  | nil => rfl
  | append_singleton rest value ih => simp [newest]

theorem version_le {values : List Bytes} {e : Bytes × Int} (inside : e ∈ numbered values) :
    e.2 ≤ values.length := by
  obtain ⟨i, bound, rfl⟩ := List.mem_mapIdx.mp inside
  show (i : Int) + 1 ≤ values.length
  omega

theorem searchBack_numbered (version : Int) :
    searchBack version (numbered values).reverse = ofVersion values version := by
  induction values using List.reverseRecOn with
  | nil => simp [searchBack, ofVersion]
  | append_singleton rest value ih =>
      rw [numbered_concat, List.reverse_concat, searchBack, ih]
      unfold ofVersion
      by_cases here : (rest.length : Int) + 1 = version
      · rw [if_pos here, ← here]
        simp [show (1 : Int) ≤ rest.length + 1 by omega]
      · rw [if_neg here]
        by_cases above : (rest.length : Int) + 1 < version
        · rw [if_pos above, if_pos (by omega), List.getElem?_eq_none]
          · rfl
          · rw [List.length_append, List.length_singleton]
            omega
        · rw [if_neg above]
          by_cases positive : 1 ≤ version
          · rw [if_pos positive, if_pos positive, List.getElem?_append_left (by omega)]
          · rw [if_neg positive, if_neg positive]

theorem collectBack_numbered (minVersion maxVersion : Int) :
    collectBack minVersion maxVersion (numbered values).reverse =
      ((numbered values).filter (inRange minVersion maxVersion)).reverse := by
  induction values using List.reverseRecOn with
  | nil => rfl
  | append_singleton rest value ih =>
      rw [numbered_concat, List.reverse_concat, collectBack, ih, List.filter_append,
        List.reverse_append]
      by_cases below : (rest.length : Int) + 1 < minVersion
      · -- all older versions are below the range as well
        have none' : (numbered rest).filter (inRange minVersion maxVersion) = [] := by
          refine List.filter_eq_nil_iff.mpr (fun e inside => ?_)
          have old := version_le inside
          simp only [inRange, decide_eq_true_eq]
          omega
        rw [if_pos below, none']
        simp [inRange, below]
      · rw [if_neg below]
        by_cases within : (rest.length : Int) + 1 ≤ maxVersion
        · simp [inRange, within, not_lt.mp below]
        · simp [inRange, within]

end Numbered
end Versions
end Storage
end ResDB
