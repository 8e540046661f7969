import Mathlib.Tactic
import ResDB.Storage.ResLevelDB

/-! `GetTopHistory`: the newest values of a key. Both implementations convert the number of
values to an unsigned one, and one of them compares it only after it has taken a value. -/
namespace ResDB.Storage
open Versions (numbered)

/-- The conversion of an `int` to `size_t`. -/
def sizeT (n : Int32) : ℕ := (n.toInt % 2 ^ 64).toNat

section Loops

/-- The loop of `MemoryDB`, with the size of what it has taken. -/
def takeUntil (bound : ℕ) : ℕ → List (Bytes × Int) → List (Bytes × Int)
  | _, [] => []
  | size, e :: rest => e :: if bound ≤ size + 1 then [] else takeUntil bound (size + 1) rest

/-- The loop of `ResLevelDB`. -/
def takeWhileBelow (bound : ℕ) : ℕ → List (Bytes × Int) → List (Bytes × Int)
  | _, [] => []
  | size, e :: rest => if size < bound then e :: takeWhileBelow bound (size + 1) rest else []

theorem takeUntil_eq (bound size : ℕ) (history : List (Bytes × Int)) :
    takeUntil bound size history = history.take (max (bound - size) 1) := by
  induction history generalizing size with
  | nil => rw [takeUntil, List.take_nil]
  | cons e rest ih =>
      rw [takeUntil]
      split_ifs with enough
      · rw [max_eq_right (by omega), List.take_succ_cons, List.take_zero]
      · rw [ih, show max (bound - size) 1 = max (bound - (size + 1)) 1 + 1 by omega,
          List.take_succ_cons]

theorem takeWhileBelow_eq (bound size : ℕ) (history : List (Bytes × Int)) :
    takeWhileBelow bound size history = history.take (bound - size) := by
  induction history generalizing size with
  | nil => rw [takeWhileBelow, List.take_nil]
  | cons e rest ih =>
      rw [takeWhileBelow]
      split_ifs with below
      · rw [ih, show bound - size = bound - (size + 1) + 1 by omega, List.take_succ_cons]
      · rw [show bound - size = 0 by omega, List.take_zero]

end Loops

def MemoryDB.getTopHistory (db : MemoryDB) (key : Bytes) (topNumber : Int32) :
    List (Bytes × Int) :=
  match db.kvMapWithV.find key with
  | none => []
  | some l => takeUntil (sizeT topNumber) 0 l.1.reverse

def ResLevelDB.getTopHistory (format : HistoryFormat) (db : ResLevelDB) (key : Bytes)
    (topNumber : Int32) : List (Bytes × Int) :=
  match format.parse (db.getValue key) with
  | none => []
  | some history => takeWhileBelow (sizeT topNumber) 0 history.reverse

def Versions.top (values : List Bytes) (topNumber : Int32) : List (Bytes × Int) :=
  (numbered values).reverse.take (min (max topNumber.toInt 0).toNat values.length)

section Answers
variable {m : Versions}

theorem MemoryDB.Holds.getTopHistory {db : MemoryDB} (holds : Holds db m) (key : Bytes)
    (topNumber : Int32) :
    db.getTopHistory key topNumber =
      (numbered (m key)).reverse.take (max (sizeT topNumber) 1) := by
  unfold MemoryDB.getTopHistory
  rcases holds.cases key with ⟨absent, empty⟩ | ⟨l, found, -, same⟩
  · simp [absent, empty]
  · rw [found]
    dsimp only
    rw [takeUntil_eq, same, Nat.sub_zero]

theorem ResLevelDB.Holds.getTopHistory {format : HistoryFormat} {left : ℕ} {db : ResLevelDB}
    (holds : Holds format left db m) (key : Bytes) (topNumber : Int32) :
    db.getTopHistory format key topNumber =
      (numbered (m key)).reverse.take (sizeT topNumber) := by
  unfold ResLevelDB.getTopHistory
  rw [holds.parse]
  dsimp only
  rw [takeWhileBelow_eq, Nat.sub_zero]

end Answers

theorem sizeT_of_pos {n : Int32} (positive : 0 < n.toInt) : sizeT n = n.toInt.toNat := by
  have upper := n.toInt_lt
  rw [sizeT, Int.emod_eq_of_lt positive.le (by omega)]

theorem answers_iff (values : List Bytes) (topNumber : Int32) :
    ((numbered values).reverse.take (max (sizeT topNumber) 1) =
          (numbered values).reverse.take (sizeT topNumber) ∧
        (numbered values).reverse.take (max (sizeT topNumber) 1) =
          Versions.top values topNumber) ↔
      0 < topNumber.toInt ∨ values = [] := by
  have length : (numbered values).reverse.length = values.length := by
    rw [List.length_reverse, numbered, List.length_mapIdx]
  by_cases empty : values = []
  · subst empty
    simp [Versions.top]
  · have some : 0 < values.length := List.length_pos_of_ne_nil empty
    rw [or_iff_left empty, Versions.top]
    constructor
    · -- the lists have different lengths unless the number is positive
      rintro ⟨same, top⟩
      by_contra bad
      have sizes := congrArg List.length same
      have sizes' := congrArg List.length top
      rw [List.length_take, List.length_take, length] at sizes sizes'
      rw [max_eq_right (not_lt.mp bad)] at sizes'
      simp only [Int.toNat_zero, Nat.zero_min] at sizes'
      omega
    · intro positive
      have count := sizeT_of_pos positive
      have atLeast : max (sizeT topNumber) 1 = sizeT topNumber := by omega
      rw [atLeast, max_eq_left positive.le, ← count, ← length, List.take_eq_take_min]
      exact ⟨rfl, rfl⟩

/-- After any calls, both implementations answer with the newest values that were asked for
exactly if a positive number of them was asked for, or the key has none. -/
theorem top_history_iff (format : HistoryFormat) (size : BatchSize)
    (calls : List (Call × HashOrder (Bytes × ValueList)))
    (typed : ∀ version : ℕ, version ≤ calls.length → format.Typed version) (key : Bytes)
    (topNumber : Int32) :
    ((Service.after MemoryDB.step {} calls).getTopHistory key topNumber =
          (Service.after (ResLevelDB.step format size) {} (calls.map Prod.fst)).getTopHistory
            format key topNumber ∧
        (Service.after MemoryDB.step {} calls).getTopHistory key topNumber =
          Versions.top (Service.after Versions.step (fun _ => []) (calls.map Prod.fst) key)
            topNumber) ↔
      0 < topNumber.toInt ∨
        Service.after Versions.step (fun _ => []) (calls.map Prod.fst) key = [] := by
  have memory : MemoryDB.Holds (Service.after MemoryDB.step {} calls)
      (Service.after Versions.step (fun _ => []) (calls.map Prod.fst)) :=
    Service.related_after Prod.fst (fun _ => MemoryDB.Holds)
      (fun _ _ _ call holds => (holds.step call).2) MemoryDB.holds_empty
  have level : ResLevelDB.Holds format 0
      (Service.after (ResLevelDB.step format size) {} (calls.map Prod.fst))
      (Service.after Versions.step (fun _ => []) ((calls.map Prod.fst).map id)) :=
    Service.related_after id (ResLevelDB.Holds format)
      (fun _ _ _ call holds => (holds.step call).2)
      (ResLevelDB.holds_empty (by rwa [List.length_map]))
  rw [List.map_id] at level
  rw [memory.getTopHistory, level.getTopHistory]
  exact answers_iff _ topNumber

def sampleValues : List (Call × HashOrder (Bytes × ValueList)) :=
  [(.setValueWithVersion [1] [8] 0, default), (.setValueWithVersion [1] [9] 1, default)]

theorem sampleValues_newest : (Service.after (ResLevelDB.step default default) {}
      (sampleValues.map Prod.fst)).getTopHistory default [1] 1 = [([9], 2)] := by
  have agree := ((top_history_iff default default sampleValues (typed_of_short (by decide))
    [1] 1).mpr (.inl (by decide))).1
  exact agree.symm.trans (by decide +kernel)

/-- Asked for no value, one implementation answers with one and the other with none. Asked
for -1 values, both answer with all. -/
theorem top_history_differs :
    (Service.after MemoryDB.step {} sampleValues).getTopHistory [1] 0 = [([9], 2)] ∧
      (∀ (format : HistoryFormat) (size : BatchSize), (Service.after (ResLevelDB.step format size)
        {} (sampleValues.map Prod.fst)).getTopHistory format [1] 0 = []) ∧
      Versions.top [[8], [9]] 0 = [] ∧
      (Service.after MemoryDB.step {} sampleValues).getTopHistory [1] (-1) =
        [([9], 2), ([8], 1)] ∧ Versions.top [[8], [9]] (-1) = [] := by
  refine ⟨by decide +kernel, fun format size => ?_, by decide +kernel, by decide +kernel,
    by decide +kernel⟩
  unfold ResLevelDB.getTopHistory
  split
  · rfl
  · exact takeWhileBelow_eq 0 0 _

end ResDB.Storage
