import Mathlib.Tactic
import ResDB.Common.Crypto
import ResDB.Library.ExpiringSet
import ResDB.Library.Run

/-! `DuplicateManager`: the hashes of the requests that were proposed and of those that were
executed, which a thread forgets after a while. Times are the microseconds of
`GetCurrentTime`, and an operation is given the time at which it holds its lock. -/
namespace ResDB.Execution

/-- `proposed_hash_set_` and `executed_hash_set_`, each with its queue. -/
inductive HashTable where
  | proposed
  | executed
  deriving DecidableEq

/-- `frequency_useconds_` and `window_useconds_`. -/
structure DuplicateCheck where
  frequency : ℕ := 5000000
  window : ℕ := 20000000

/-- `time` is the variable of the thread, and `loop` the loop it is in, if it does not sleep.
`clock` is the time of the last operation. -/
structure DuplicateManager where
  table : HashTable → ExpiringSet Bytes := fun _ => {}
  executedSeq : Bytes → ℕ := fun _ => 0
  time : ℕ := 0
  loop : Option HashTable := none
  clock : ℕ := 0

namespace DuplicateManager
variable (check : DuplicateCheck) (m : DuplicateManager)

def reports (p : HashTable) (hash : Bytes) : Bool := hash ∈ (m.table p).members

def checkIfProposed (hash : Bytes) : Bool := m.reports .proposed hash

def checkIfExecuted (hash : Bytes) : ℕ := if m.reports .executed hash then m.executedSeq hash else 0

def setTable (p : HashTable) (set : ExpiringSet Bytes) : DuplicateManager :=
  { m with table := Function.update m.table p set }

def addProposed (hash : Bytes) (now : ℕ) : DuplicateManager :=
  m.setTable .proposed ((m.table .proposed).push hash now)

def addExecuted (hash : Bytes) (seq now : ℕ) : DuplicateManager :=
  { m.setTable .executed ((m.table .executed).push hash now) with
    executedSeq := Function.update m.executedSeq hash seq }

def checkAndAddProposed (hash : Bytes) (now : ℕ) : DuplicateManager × Bool :=
  if m.reports .proposed hash then (m, true) else (m.addProposed hash now, false)

def checkAndAddExecuted (hash : Bytes) (seq now : ℕ) : DuplicateManager × Bool :=
  if m.reports .executed hash then (m, true) else (m.addExecuted hash seq now, false)

def eraseProposed (hash : Bytes) : DuplicateManager :=
  m.setTable .proposed ((m.table .proposed).erase hash)

/-- Without an entry the map reads as 0. -/
def eraseExecuted (hash : Bytes) : DuplicateManager :=
  { m.setTable .executed ((m.table .executed).erase hash) with
    executedSeq := Function.update m.executedSeq hash 0 }

/-- The thread of `UpdateRecentHash` wakes up, once the clock has reached its next time. A
thread that lags behind a whole period wakes at once here, where the source computes a negative
number of microseconds and sleeps over an hour. Such a sleep is one in which it does not wake. -/
def wake : DuplicateManager :=
  { m with time := (m.time + check.frequency) % 2 ^ 64, loop := some .proposed }

def late (stamp : ℕ) : Bool := (stamp + check.window) % 2 ^ 64 < m.time

/-- One round of the two inner loops. Each round takes the lock anew. -/
def popRound : Option DuplicateManager :=
  match m.loop with
  | none => none
  | some .proposed =>
      match (m.table .proposed).pop (m.late check) with
      | none => some { m with loop := some .executed }
      | some (_, rest) => some (m.setTable .proposed rest)
  | some .executed =>
      match (m.table .executed).pop (m.late check) with
      | none => some { m with loop := none }
      | some (hash, rest) =>
          some { m.setTable .executed rest with
            executedSeq := Function.update m.executedSeq hash 0 }

end DuplicateManager

inductive DuplicateOp where
  | checkIfProposed (hash : Bytes)
  | checkIfExecuted (hash : Bytes)
  | addProposed (hash : Bytes)
  | addExecuted (hash : Bytes) (seq : ℕ)
  | checkAndAddProposed (hash : Bytes)
  | checkAndAddExecuted (hash : Bytes) (seq : ℕ)
  | eraseProposed (hash : Bytes)
  | eraseExecuted (hash : Bytes)
  | wake
  | popRound
  deriving DecidableEq

namespace DuplicateOp

def checkAndAdd (p : HashTable) (hash : Bytes) (seq : ℕ) : DuplicateOp :=
  match p with
  | .proposed => .checkAndAddProposed hash
  | .executed => .checkAndAddExecuted hash seq

def erase (p : HashTable) (hash : Bytes) : DuplicateOp :=
  match p with
  | .proposed => .eraseProposed hash
  | .executed => .eraseExecuted hash

end DuplicateOp

namespace DuplicateManager
variable (check : DuplicateCheck)

def apply (m : DuplicateManager) (now : ℕ) : DuplicateOp → Option DuplicateManager
  | .checkIfProposed _ => some m
  | .checkIfExecuted _ => some m
  | .addProposed hash => some (m.addProposed hash now)
  | .addExecuted hash seq => some (m.addExecuted hash seq now)
  | .checkAndAddProposed hash => some (m.checkAndAddProposed hash now).1
  | .checkAndAddExecuted hash seq => some (m.checkAndAddExecuted hash seq now).1
  | .eraseProposed hash => some (m.eraseProposed hash)
  | .eraseExecuted hash => some (m.eraseExecuted hash)
  | .wake =>
      if m.loop = none ∧ (m.time + check.frequency) % 2 ^ 64 ≤ now then some (m.wake check)
      else none
  | .popRound => m.popRound check

def step (m : DuplicateManager) (event : ℕ × DuplicateOp) : Option DuplicateManager :=
  if m.clock ≤ event.1 then
    (m.apply check event.1 event.2).map (fun m' => { m' with clock := event.1 })
  else none

def launched (now : ℕ) : DuplicateManager := { time := now, clock := now }

inductive TableMove (m : DuplicateManager) (now : ℕ) (p : HashTable) (op : DuplicateOp) :
    ExpiringSet Bytes → Prop where
  | same : TableMove m now p op (m.table p)
  | pushed (hash : Bytes) : TableMove m now p op ((m.table p).push hash now)
  | erased (hash : Bytes) (this : op = .erase p hash) :
      TableMove m now p op ((m.table p).erase hash)
  | popped {hash : Bytes} {rest : ExpiringSet Bytes} (here : m.loop = some p)
      (pop : (m.table p).pop (m.late check) = some (hash, rest)) : TableMove m now p op rest

variable {check} {m m' : DuplicateManager} {now : ℕ} {op : DuplicateOp}

@[simp] theorem setTable_self (p : HashTable) (set : ExpiringSet Bytes) :
    (m.setTable p set).table p = set := Function.update_self ..

theorem setTable_of_ne {p q : HashTable} (other : q ≠ p) (set : ExpiringSet Bytes) :
    (m.setTable p set).table q = m.table q := Function.update_of_ne other ..

theorem tableMove_setTable {p : HashTable} {set : ExpiringSet Bytes}
    (here : TableMove check m now p op set) (q : HashTable) :
    TableMove check m now q op ((m.setTable p set).table q) := by
  by_cases same : q = p
  · subst same
    rwa [setTable_self]
  · rw [setTable_of_ne same]
    exact .same

theorem popRound_table (done : m.popRound check = some m') (p : HashTable) :
    m'.table p = m.table p ∨ m.loop = some p ∧
      ∃ hash, (m.table p).pop (m.late check) = some (hash, m'.table p) := by
  have set : ∀ {q : HashTable} {hash : Bytes} {rest : ExpiringSet Bytes}, m.loop = some q →
      (m.table q).pop (m.late check) = some (hash, rest) →
      (m.setTable q rest).table p = m.table p ∨ m.loop = some p ∧
        ∃ hash, (m.table p).pop (m.late check) = some (hash, (m.setTable q rest).table p) := by
    intro q hash rest here pop
    by_cases same : p = q
    · subst same
      rw [setTable_self]
      exact .inr ⟨here, hash, pop⟩
    · exact .inl (setTable_of_ne same rest)
  unfold popRound at done
  split at done
  · cases done
  · rename_i here
    split at done
    · cases done
      exact .inl rfl
    · rename_i pop
      cases done
      exact set here pop
  · rename_i here
    split at done
    · cases done
      exact .inl rfl
    · rename_i pop
      cases done
      exact set here pop

theorem apply_table (done : m.apply check now op = some m') (p : HashTable) :
    TableMove check m now p op (m'.table p) := by
  cases op with
  | checkIfProposed hash =>
      cases done
      exact .same
  | checkIfExecuted hash =>
      cases done
      exact .same
  | addProposed hash =>
      cases done
      exact tableMove_setTable (.pushed hash) p
  | addExecuted hash seq =>
      cases done
      exact tableMove_setTable (.pushed hash) p
  | checkAndAddProposed hash =>
      simp only [apply, checkAndAddProposed, Option.some_inj] at done
      split_ifs at done
      · cases done
        exact .same
      · cases done
        exact tableMove_setTable (.pushed hash) p
  | checkAndAddExecuted hash seq =>
      simp only [apply, checkAndAddExecuted, Option.some_inj] at done
      split_ifs at done
      · cases done
        exact .same
      · cases done
        exact tableMove_setTable (.pushed hash) p
  | eraseProposed hash =>
      cases done
      exact tableMove_setTable (p := .proposed) (.erased hash rfl) p
  | eraseExecuted hash =>
      cases done
      exact tableMove_setTable (p := .executed) (.erased hash rfl) p
  | wake =>
      simp only [apply, Option.ite_none_right_eq_some] at done
      cases done.2
      exact .same
  | popRound =>
      rcases popRound_table done p with same | ⟨here, hash, pop⟩
      · rw [same]
        exact .same
      · exact .popped here pop

end DuplicateManager
end ResDB.Execution
