import Mathlib.Logic.Relation
import Mathlib.Tactic
import ResDB.Execution.DuplicateManager

/-! How long a hash is reported as a duplicate. The thread of `DuplicateManager` forgets a
hash when the oldest stamp of it in the queue is late; after an erase that stamp may be from
before the hash was added again. -/
namespace ResDB.Execution.DuplicateManager
variable {check : DuplicateCheck} {m m' : DuplicateManager} {now : ℕ} {op : DuplicateOp}
  {p : HashTable}

/-- The loops that are still to come in a round of the thread. -/
def rank : Option HashTable → ℕ
  | none => 0
  | some .executed => 1
  | some .proposed => 2

theorem rank_injective : Function.Injective rank := by
  intro a b same
  rcases a with _ | _ | _ <;> rcases b with _ | _ | _ <;> first | rfl | cases same

theorem step_some (taken : m.step check (now, op) = some m') :
    m.clock ≤ now ∧ ∃ after, m.apply check now op = some after ∧
      m' = { after with clock := now } := by
  rw [step, Option.ite_none_right_eq_some] at taken
  obtain ⟨after, done, rfl⟩ := Option.map_eq_some_iff.mp taken.2
  exact ⟨taken.1, after, done, rfl⟩

theorem step_table (taken : m.step check (now, op) = some m') (p : HashTable) :
    TableMove check m now p op (m'.table p) := by
  obtain ⟨-, after, done, rfl⟩ := step_some taken
  exact apply_table done p

theorem popRound_time (done : m.popRound check = some m') :
    m'.time = m.time ∧ rank m'.loop ≤ rank m.loop := by
  unfold popRound at done
  split at done
  · cases done
  · rename_i here
    rw [here]
    split at done
    · cases done
      exact ⟨rfl, Nat.le_succ 1⟩
    · cases done
      exact ⟨rfl, here ▸ le_rfl⟩
  · rename_i here
    rw [here]
    split at done
    · cases done
      exact ⟨rfl, Nat.le_succ 0⟩
    · cases done
      exact ⟨rfl, here ▸ le_rfl⟩

theorem apply_time (done : m.apply check now op = some m') :
    m'.time = m.time ∧ rank m'.loop ≤ rank m.loop ∨
      m'.time = (m.time + check.frequency) % 2 ^ 64 ∧ m'.time ≤ now := by
  cases op with
  | wake =>
      simp only [apply, Option.ite_none_right_eq_some] at done
      obtain ⟨⟨-, due⟩, same⟩ := done
      cases same
      exact .inr ⟨rfl, due⟩
  | popRound => exact .inl (popRound_time done)
  | checkAndAddProposed hash =>
      simp only [apply, checkAndAddProposed, Option.some_inj] at done
      split_ifs at done <;> cases done <;> exact .inl ⟨rfl, le_rfl⟩
  | checkAndAddExecuted hash seq =>
      simp only [apply, checkAndAddExecuted, Option.some_inj] at done
      split_ifs at done <;> cases done <;> exact .inl ⟨rfl, le_rfl⟩
  | _ =>
      cases done
      exact .inl ⟨rfl, le_rfl⟩

/-- What holds in every state that is reached: the thread is not ahead of the clock, and the
queues are in the order of their stamps. -/
structure Timely (m : DuplicateManager) : Prop where
  time : m.time ≤ m.clock
  ordered : ∀ p, (m.table p).Ordered m.clock

theorem Timely.step (timely : Timely m) (taken : m.step check (now, op) = some m') :
    Timely m' := by
  have tables := step_table taken
  obtain ⟨later, after, done, rfl⟩ := step_some taken
  refine ⟨?_, fun p => ?_⟩
  · rcases apply_time done with ⟨same, -⟩ | ⟨-, due⟩
    · exact same.trans_le (timely.time.trans later)
    · exact due
  · have before := (timely.ordered p).later later
    have move := tables p
    generalize ({ after with clock := now } : DuplicateManager).table p = set at move ⊢
    cases move with
    | same => exact before
    | pushed hash => exact before.push hash
    | erased hash _ => exact ⟨before.sorted, before.past⟩
    | popped here pop => exact before.pop pop

theorem run_timely {start : ℕ} {ops : List (ℕ × DuplicateOp)}
    (ran : Run.exec (step check) (launched start) ops = some m) : Timely m := by
  refine Run.exec_invariant_always (fun s event s' timely taken => timely.step taken) ?_ ran
  exact ⟨le_rfl, fun p => ⟨List.Pairwise.nil, fun _ member => absurd member List.not_mem_nil⟩⟩

def deadline (check : DuplicateCheck) (stamp : ℕ) : ℕ := (stamp + check.window) % 2 ^ 64

/-- The thread drops a stamp in a round that begins by the end of the window after `t`: in
the round it is in, or in a later one. -/
def Due (check : DuplicateCheck) (m : DuplicateManager) (p : HashTable) (t stamp : ℕ) : Prop :=
  (deadline check stamp < m.time ∧ rank (some p) ≤ rank m.loop) ∨
    ∃ k, 1 ≤ k ∧ deadline check stamp < m.time + k * check.frequency ∧
      m.time + k * check.frequency ≤ t + check.window

/-- A hash that was added at `t` in the state `m₀`, up to the end of its window. -/
structure Watched (check : DuplicateCheck) (m₀ : DuplicateManager) (p : HashTable) (hash : Bytes)
    (t : ℕ) (m : DuplicateManager) : Prop where
  rounds : ∃ k, m.time = m₀.time + k * check.frequency ∧ (k = 0 → rank m.loop ≤ rank m₀.loop)
  time : m.time ≤ m.clock
  guarded : (m.table p).Guarded (m₀.Due check p t) hash t

theorem Watched.step {m₀ : DuplicateManager} {hash : Bytes} {t : ℕ}
    (bound : t + check.window + check.frequency < 2 ^ 64) (watched : Watched check m₀ p hash t m)
    (kept : op ≠ .erase p hash) (inside : m'.clock ≤ t + check.window)
    (taken : m.step check (now, op) = some m') : Watched check m₀ p hash t m' := by
  have move := step_table taken p
  obtain ⟨later, after, done, rfl⟩ := step_some taken
  obtain ⟨k, time, current⟩ := watched.rounds
  change now ≤ t + check.window at inside
  have early : m.time ≤ t + check.window := watched.time.trans (later.trans inside)
  refine ⟨?_, ?_, ?_⟩
  · rcases apply_time done with ⟨same, ahead⟩ | ⟨woken, -⟩
    · exact ⟨k, same.trans time, fun first => ahead.trans (current first)⟩
    · refine ⟨k + 1, ?_, fun never => absurd never (Nat.succ_ne_zero k)⟩
      rw [Nat.mod_eq_of_lt (by omega), time, add_assoc, ← Nat.succ_mul] at woken
      exact woken
  · rcases apply_time done with ⟨same, -⟩ | ⟨-, due⟩
    · exact same.trans_le (watched.time.trans later)
    · exact due
  · generalize ({ after with clock := now } : DuplicateManager).table p = set at move ⊢
    cases move with
    | same => exact watched.guarded
    | pushed other => exact watched.guarded.push other now
    | erased other this => exact watched.guarded.erase (fun same => kept (same ▸ this))
    | popped here pop =>
        refine watched.guarded.pop ?_ (fun old lateOld => ?_) pop
        · rw [late, Nat.mod_eq_of_lt (by omega)]
          exact decide_eq_false (by omega)
        · -- a stamp that is late now is dropped in the round that the thread is in
          have passed : deadline check old < m.time := of_decide_eq_true lateOld
          cases k with
          | zero =>
              rw [zero_mul, add_zero] at time
              exact .inl ⟨time ▸ passed, here ▸ current rfl⟩
          | succ k => exact .inr ⟨k + 1, Nat.le_add_left 1 k, time ▸ passed, time ▸ early⟩

/-! ### A stamp that is due is dropped

The thread runs on its own, at the times it has to. -/

def Quiet (check : DuplicateCheck) (m m' : DuplicateManager) : Prop :=
  ∃ now op, (op = .wake ∨ op = .popRound) ∧ m.step check (now, op) = some m'

theorem exec_of_quiet (quiet : Relation.ReflTransGen (Quiet check) m m') :
    ∃ more : List (ℕ × DuplicateOp), (∀ e ∈ more, e.2 = .wake ∨ e.2 = .popRound) ∧
      Run.exec (step check) m more = some m' := by
  induction quiet using Relation.ReflTransGen.head_induction_on with
  | refl => exact ⟨[], fun _ member => absurd member List.not_mem_nil, rfl⟩
  | head first _ ih =>
      obtain ⟨now, op, thread, taken⟩ := first
      obtain ⟨more, all, ran⟩ := ih
      refine ⟨(now, op) :: more, ?_, (Run.exec_cons_of_step more taken).trans ran⟩
      intro e member
      cases List.mem_cons.mp member with
      | inl same => exact same ▸ thread
      | inr later => exact all e later

theorem Timely.quiet (timely : Timely m) (quiet : Relation.ReflTransGen (Quiet check) m m') :
    Timely m' := by
  induction quiet with
  | refl => exact timely
  | tail _ last ih =>
      obtain ⟨now, op, -, taken⟩ := last
      exact ih.step taken

theorem stale_quiet {hash : Bytes} {stamp : ℕ} (stale : (m.table p).Stale hash stamp)
    (quiet : Relation.ReflTransGen (Quiet check) m m') : (m'.table p).Stale hash stamp := by
  induction quiet with
  | refl => exact stale
  | @tail m₁ m₂ _ last ih =>
      obtain ⟨now, op, thread, taken⟩ := last
      obtain ⟨-, after, done, rfl⟩ := step_some taken
      rcases thread with rfl | rfl
      · simp only [apply, Option.ite_none_right_eq_some] at done
        cases done.2
        exact ih
      · change (after.table p).Stale hash stamp
        rcases popRound_table done p with same | ⟨-, other, pop⟩
        · rwa [same]
        · exact ih.pop pop

def pending (m : DuplicateManager) : ℕ :=
  (m.table .proposed).queue.length + (m.table .executed).queue.length + rank m.loop

theorem quiet_popRound {after : DuplicateManager} (done : m.popRound check = some after) :
    Quiet check m { after with clock := m.clock } := by
  refine ⟨m.clock, .popRound, .inr rfl, ?_⟩
  rw [step, if_pos le_rfl, apply, done]
  rfl

theorem popRound_of_some {hash : Bytes} {rest : ExpiringSet Bytes} (here : m.loop = some p)
    (pop : (m.table p).pop (m.late check) = some (hash, rest)) :
    ∃ after, m.popRound check = some after ∧ after.loop = m.loop ∧ after.time = m.time ∧
      after.table = (m.setTable p rest).table := by
  cases p with
  | proposed =>
      simp only [popRound, here, pop]
      exact ⟨_, rfl, here, rfl, rfl⟩
  | executed =>
      simp only [popRound, here, pop]
      exact ⟨_, rfl, here, rfl, rfl⟩

theorem popRound_of_none (here : m.loop = some p) (pop : (m.table p).pop (m.late check) = none) :
    ∃ after, m.popRound check = some after ∧ rank after.loop + 1 = rank m.loop ∧
      after.time = m.time ∧ after.table = m.table := by
  cases p with
  | proposed =>
      simp only [popRound, here, pop]
      exact ⟨_, rfl, rfl, rfl, rfl⟩
  | executed =>
      simp only [popRound, here, pop]
      exact ⟨_, rfl, rfl, rfl, rfl⟩

variable (check) in
theorem exists_popRound (busy : m.loop ≠ none) : ∃ m', Quiet check m m' ∧ m'.time = m.time ∧
    m'.clock = m.clock ∧ rank m.loop ≤ rank m'.loop + 1 ∧ m'.pending < m.pending := by
  obtain ⟨p, here⟩ := Option.ne_none_iff_exists'.mp busy
  cases pop : (m.table p).pop (m.late check) with
  | none =>
      obtain ⟨after, done, loop, time, tables⟩ := popRound_of_none here pop
      refine ⟨_, quiet_popRound done, time, rfl, loop.ge, ?_⟩
      simp only [pending, tables]
      omega
  | some popped =>
      obtain ⟨after, done, loop, time, tables⟩ := popRound_of_some here pop
      obtain ⟨stamp, queue, -, -⟩ := ExpiringSet.pop_some pop
      refine ⟨_, quiet_popRound done, time, rfl, by rw [loop]; exact Nat.le_succ _, ?_⟩
      have shorter := congrArg List.length queue
      rw [List.length_cons] at shorter
      simp only [pending, tables, loop]
      cases p with
      | proposed =>
          rw [setTable_self, setTable_of_ne (by decide)]
          omega
      | executed =>
          rw [setTable_self, setTable_of_ne (by decide)]
          omega

variable (check) in
theorem exists_loop (m : DuplicateManager) (target : Option HashTable)
    (ahead : rank target ≤ rank m.loop) :
    ∃ m', Relation.ReflTransGen (Quiet check) m m' ∧ m'.loop = target ∧ m'.time = m.time ∧
      m'.clock = m.clock := by
  induction bound : m.pending using Nat.strong_induction_on generalizing m with
  | _ n ih =>
      by_cases there : m.loop = target
      · exact ⟨m, .refl, there, rfl, rfl⟩
      · have further : rank target < rank m.loop :=
          lt_of_le_of_ne ahead (fun same => there (rank_injective same).symm)
        have busy : m.loop ≠ none := by
          intro idle
          rw [idle] at further
          exact absurd further (Nat.not_lt_zero _)
        obtain ⟨next, quiet, time, clock, near, fewer⟩ := exists_popRound check busy
        obtain ⟨last, reach, loop, time', clock'⟩ :=
          ih next.pending (bound ▸ fewer) next (by omega) rfl
        exact ⟨last, .head quiet reach, loop, time'.trans time, clock'.trans clock⟩

theorem exists_wake (small : m.time + check.frequency < 2 ^ 64) :
    ∃ m', Relation.ReflTransGen (Quiet check) m m' ∧ m'.loop = some .proposed ∧
      m'.time = m.time + check.frequency ∧
      m'.clock = max m.clock (m.time + check.frequency) := by
  obtain ⟨idle, reach, loop, time, clock⟩ :=
    exists_loop check m none (Nat.zero_le _)
  have whole : (idle.time + check.frequency) % 2 ^ 64 = m.time + check.frequency := by
    rw [time, Nat.mod_eq_of_lt small]
  refine ⟨{ idle.wake check with clock := max m.clock (m.time + check.frequency) },
    reach.tail ⟨max m.clock (m.time + check.frequency), .wake, .inl rfl, ?_⟩, rfl, whole, rfl⟩
  have due : idle.loop = none ∧
      (idle.time + check.frequency) % 2 ^ 64 ≤ max m.clock (m.time + check.frequency) :=
    ⟨loop, whole ▸ le_max_right _ _⟩
  rw [step, if_pos (clock ▸ le_max_left _ _), apply, if_pos due]
  rfl

theorem exists_wakes {k : ℕ} (positive : 1 ≤ k)
    (small : m.time + k * check.frequency < 2 ^ 64) :
    ∃ m', Relation.ReflTransGen (Quiet check) m m' ∧ m'.loop = some .proposed ∧
      m'.time = m.time + k * check.frequency ∧
      m'.clock = max m.clock (m.time + k * check.frequency) := by
  induction k, positive using Nat.le_induction with
  | base =>
      rw [one_mul] at small ⊢
      exact exists_wake small
  | succ k positive ih =>
      rw [Nat.succ_mul, ← add_assoc] at small ⊢
      obtain ⟨mid, reach, -, time, clock⟩ := ih (by omega)
      obtain ⟨last, more, loop, time', clock'⟩ :=
        exists_wake (m := mid) (time ▸ small)
      refine ⟨last, reach.trans more, loop, time ▸ time', ?_⟩
      rw [clock', clock, time]
      omega

theorem exists_out {hash : Bytes} {stamp : ℕ} (timely : Timely m) (here : m.loop = some p)
    (stale : (m.table p).Stale hash stamp) (passed : stamp + check.window < m.time) :
    ∃ m', Relation.ReflTransGen (Quiet check) m m' ∧ hash ∉ (m'.table p).members ∧
      m'.clock = m.clock := by
  induction bound : (m.table p).queue.length using Nat.strong_induction_on generalizing m with
  | _ n ih =>
      rcases stale with inside | out
      · have late_of_le : ∀ old ≤ stamp, m.late check old = true := by
          intro old le
          exact decide_eq_true (lt_of_le_of_lt (Nat.mod_le _ _) (by omega))
        obtain ⟨other, rest, pop⟩ :=
          ExpiringSet.exists_pop (timely.ordered p) inside late_of_le
        obtain ⟨after, done, loop, time, tables⟩ := popRound_of_some here pop
        have table : after.table p = rest := by rw [tables, setTable_self]
        have quiet := quiet_popRound done
        have shorter : rest.queue.length < n := by
          obtain ⟨_, queue, -, -⟩ := ExpiringSet.pop_some pop
          rw [← bound, queue]
          exact Nat.lt_succ_self _
        have still : (after.table p).Stale hash stamp := by
          rw [table]
          exact ExpiringSet.Stale.pop (.inl inside) pop
        obtain ⟨last, reach, out, clock⟩ := ih rest.queue.length shorter
          (timely.quiet (.single quiet)) (loop.trans here) still (time.symm ▸ passed)
          (congrArg (fun set => set.queue.length) table)
        exact ⟨last, .head quiet reach, out, clock⟩
      · exact ⟨m, .refl, out, rfl⟩

theorem Watched.run {m₀ : DuplicateManager} {hash : Bytes} {t : ℕ}
    (bound : t + check.window + check.frequency < 2 ^ 64) {more : List (ℕ × DuplicateOp)}
    (watched : m.clock ≤ t + check.window → Watched check m₀ p hash t m)
    (kept : ∀ e ∈ more, e.2 ≠ .erase p hash) (inside : m'.clock ≤ t + check.window)
    (ran : Run.exec (DuplicateManager.step check) m more = some m') :
    Watched check m₀ p hash t m' := by
  induction more generalizing m with
  | nil =>
      cases ran
      exact watched inside
  | cons event rest ih =>
      obtain ⟨now, op⟩ := event
      obtain ⟨mid, first, rest⟩ := Run.exec_cons_some ran
      refine ih (fun early => ?_) (fun e member => kept e (List.mem_cons_of_mem _ member)) rest
      have before : m.clock ≤ t + check.window := by
        obtain ⟨later, after, -, rfl⟩ := step_some first
        exact later.trans early
      exact (watched before).step bound (kept _ List.mem_cons_self) early first

variable (check) in
theorem step_checkAndAdd {hash : Bytes} (seq : ℕ) {t : ℕ} (later : m.clock ≤ t)
    (new : m.reports p hash = false) :
    ∃ m', m.step check (t, .checkAndAdd p hash seq) = some m' ∧
      m'.table p = (m.table p).push hash t ∧ m'.time = m.time ∧ m'.loop = m.loop ∧
      m'.clock = t := by
  cases p with
  | proposed =>
      refine ⟨{ m.addProposed hash t with clock := t }, ?_, ?_, rfl, rfl, rfl⟩
      · rw [step, if_pos later]
        simp [DuplicateOp.checkAndAdd, apply, checkAndAddProposed, new]
      · exact setTable_self (m := m) .proposed ((m.table .proposed).push hash t)
  | executed =>
      refine ⟨{ m.addExecuted hash seq t with clock := t }, ?_, ?_, rfl, rfl, rfl⟩
      · rw [step, if_pos later]
        simp [DuplicateOp.checkAndAdd, apply, checkAndAddExecuted, new]
      · exact setTable_self (m := m) .executed ((m.table .executed).push hash t)

theorem Due.reach {m₀ : DuplicateManager} {t stamp : ℕ} (due : m₀.Due check p t stamp)
    (small : t + check.window < 2 ^ 64) (time : m.time = m₀.time) (loop : m.loop = m₀.loop)
    (clock : m.clock = t) :
    ∃ m', Relation.ReflTransGen (Quiet check) m m' ∧ deadline check stamp < m'.time ∧
      rank (some p) ≤ rank m'.loop ∧ m'.clock ≤ t + check.window := by
  rcases due with ⟨passed, ahead⟩ | ⟨k, positive, passed, inside⟩
  · exact ⟨m, .refl, time ▸ passed, loop ▸ ahead, clock ▸ Nat.le_add_right _ _⟩
  · rw [← time] at passed inside
    obtain ⟨m', reach, first, reached, clock'⟩ :=
      exists_wakes positive (lt_of_le_of_lt inside small)
    refine ⟨m', reach, reached ▸ passed, ?_, ?_⟩
    · rw [first]
      cases p <;> decide
    · rw [clock', clock]
      exact max_le (Nat.le_add_right _ _) inside

/-- A hash that is added at `t` is reported as a duplicate until its window is over, whatever
the operations are as long as none erases it, exactly if no older stamp of it is due before. -/
theorem duplicate_window_iff {start : ℕ} {ops : List (ℕ × DuplicateOp)}
    (ran : Run.exec (step check) (launched start) ops = some m) (p : HashTable) (hash : Bytes)
    (seq : ℕ) {t : ℕ} (later : m.clock ≤ t)
    (bound : t + check.window + check.frequency < 2 ^ 64) (new : m.reports p hash = false) :
    (∀ more m', Run.exec (step check) m ((t, .checkAndAdd p hash seq) :: more) = some m' →
        (∀ e ∈ more, e.2 ≠ .erase p hash) → m'.clock ≤ t + check.window →
        m'.reports p hash = true) ↔
      ∀ stamp, (hash, stamp) ∈ (m.table p).queue → ¬ m.Due check p t stamp := by
  obtain ⟨added, first, table, time, loop, clock⟩ := step_checkAndAdd check seq later new
  have timely := run_timely ran
  constructor
  · intro lasts stamp inside due
    have stale : (added.table p).Stale hash stamp := by
      rw [table]
      exact .inl (List.mem_append_left _ inside)
    have past : stamp ≤ t := ((timely.ordered p).past _ inside).trans later
    obtain ⟨near, reach, passed, ahead, early⟩ := due.reach (by omega) time loop clock
    rw [deadline, Nat.mod_eq_of_lt (by omega)] at passed
    obtain ⟨here, reach', there, time', clock'⟩ := exists_loop check near (some p) ahead
    have arrived := reach.trans reach'
    obtain ⟨last, reach'', out, clock''⟩ := exists_out
      ((timely.step first).quiet arrived) there (stale_quiet stale arrived) (time' ▸ passed)
    obtain ⟨more, thread, ran'⟩ := exec_of_quiet (arrived.trans reach'')
    have reported := lasts more last ((Run.exec_cons_of_step more first).trans ran')
      (fun e member same => ?_) (clock''.trans_le (clock'.trans_le early))
    · exact out (of_decide_eq_true reported)
    · rcases thread e member with wake | pop
      · cases p <;> cases wake.symm.trans same
      · cases p <;> cases pop.symm.trans same
  · intro harmless more m' ran' kept inside
    have rest := Run.exec_cons_of_step more first ▸ ran'
    have watched : Watched check m p hash t added := by
      refine ⟨⟨0, by rw [time, zero_mul, add_zero], fun _ => (congrArg rank loop).le⟩, ?_, ?_⟩
      · rw [time, clock]
        exact timely.time.trans later
      · rw [table]
        exact .ofPush harmless
    exact decide_eq_true (Watched.run bound (fun _ => watched) kept inside rest).guarded.member

/-- A round of the thread in which nothing is late. -/
def sampleRound (now : ℕ) : List (ℕ × DuplicateOp) :=
  [(now, .wake), (now, .popRound), (now, .popRound)]

/-- A hash is added and erased, another one is added, and the stamp of the first is dropped. -/
def sampleHistory : List (ℕ × DuplicateOp) :=
  [(1000000, DuplicateOp.checkAndAddProposed [1]), (2000000, .eraseProposed [1])] ++
    sampleRound 5000000 ++ [(7000000, DuplicateOp.checkAndAddProposed [2])] ++
    [10000000, 15000000, 20000000].flatMap sampleRound ++
    sampleRound 25000000 ++ [(25000000, DuplicateOp.popRound)]

/-- The rounds after the hash was added again, the first of which drops the other one. -/
def sampleWindow : List (ℕ × DuplicateOp) :=
  sampleRound 30000000 ++ [(30000000, DuplicateOp.popRound)] ++
    [35000000, 40000000, 45000000].flatMap sampleRound

theorem sampleWindow_reported :
    ∃ m m', Run.exec (step {}) (launched 0) sampleHistory = some m ∧
      Run.exec (step {}) m ((26000000, .checkAndAdd .proposed [1] 0) :: sampleWindow) = some m' ∧
      m.reports .proposed [2] = true ∧ m'.reports .proposed [2] = false ∧
      m'.reports .proposed [1] = true := by
  have runs : (Run.exec (step {}) (launched 0) sampleHistory).any (fun m =>
      decide (m.clock ≤ 26000000 ∧ m.reports .proposed [1] = false ∧
        m.reports .proposed [2] = true ∧ [1] ∉ (m.table .proposed).queue.map Prod.fst) &&
      (Run.exec (step {}) m ((26000000, .checkAndAdd .proposed [1] 0) :: sampleWindow)).any
        (fun m' => decide (m'.clock ≤ 46000000 ∧ m'.reports .proposed [2] = false))) = true := by
    decide +kernel
  obtain ⟨m, ran, facts⟩ := (Option.any_eq_true _ _).mp runs
  obtain ⟨before, after⟩ := Bool.and_eq_true_iff.mp facts
  obtain ⟨clock, new, other, gone⟩ := of_decide_eq_true before
  obtain ⟨m', ran', facts'⟩ := (Option.any_eq_true _ _).mp after
  obtain ⟨inside, dropped⟩ := of_decide_eq_true facts'
  refine ⟨m, m', ran, ran', other, dropped, ?_⟩
  exact (duplicate_window_iff ran .proposed [1] 0 clock (by decide) new).mpr
    (fun stamp member => absurd (List.mem_map_of_mem member) gone) sampleWindow m' ran'
    (by decide) inside

/-- A hash is added after one second, erased, and added again after six. -/
def sampleAgain : List (ℕ × DuplicateOp) :=
  [(1000000, DuplicateOp.checkAndAddProposed [1]), (2000000, .eraseProposed [1])] ++
    sampleRound 5000000 ++ [(6000000, DuplicateOp.checkAndAddProposed [1])]

/-- The rounds until the stamp of the first time is late. -/
def sampleRounds : List (ℕ × DuplicateOp) :=
  [10000000, 15000000, 20000000].flatMap sampleRound ++
    [(25000000, DuplicateOp.wake), (25000000, .popRound)]

/-- Nineteen seconds after it was added again the hash is no duplicate any more. -/
theorem readded_hash_forgotten :
    (Run.exec (step {}) (launched 0) sampleAgain).map (fun m => m.reports .proposed [1]) =
        some true ∧
      (∀ e ∈ sampleRounds, e.2 ≠ .erase .proposed [1]) ∧
      (Run.exec (step {}) (launched 0) (sampleAgain ++ sampleRounds)).map
          (fun m => (m.clock, m.reports .proposed [1])) = some (25000000, false) ∧
      25000000 ≤ 6000000 + ({} : DuplicateCheck).window := by
  decide +kernel

end ResDB.Execution.DuplicateManager
