import Mathlib.Tactic
import ResDB.Pbft.Replica

/-! `TransactionExecutor` as a sequencer: requests come in any order, and the ones that
complete the run of numbers from 1 on go out in that order. -/
namespace ResDB.Pbft

namespace Executor

/-- The inner loop of `OrderMessage`, for at most that many rounds. -/
def drain : ℕ → Executor → Executor
  | 0, e => e
  | n + 1, e =>
      match e.next with
      | none => e
      | some e' => drain n e'

/-- A round of `OrderMessage`: a late request ends it, any other is followed by the inner
loop. Each round of that removes a candidate. -/
def orderMessage (e : Executor) : Executor :=
  match e.order with
  | none => e.drain e.candidates.size
  | some e' =>
      if e.commitQueue.head?.any (fun message => message.seq < e.nextExecuteSeq) then e'
      else e'.drain e'.candidates.size

inductive Event where
  | commit (message : Request)
  | orderMessage

def step (e : Executor) : Event → Executor
  | .commit message => e.commit message
  | .orderMessage => e.orderMessage

def run (events : List Event) : Executor := events.foldl step {}

def arrivals (events : List Event) : List Request :=
  events.filterMap (fun
    | .commit message => some message
    | .orderMessage => none)

def first (past : List Request) (seq : ℕ) : Option Request :=
  past.find? (fun message => message.seq = seq)

/-- The state after the requests of `past` went through the queue: those below the next
number are out, and for every other number the first one is a candidate. -/
structure Ordered (past : List Request) (e : Executor) : Prop where
  positive : 1 ≤ e.nextExecuteSeq
  executed : e.executeQueue.map some = (List.range' 1 (e.nextExecuteSeq - 1)).map (first past)
  candidates : ∀ seq message, (seq, message) ∈ e.candidates.entries ↔
    e.nextExecuteSeq ≤ seq ∧ first past seq = some message

def Settled (past : List Request) (e : Executor) : Prop := first past e.nextExecuteSeq = none

variable {past : List Request} {e e' : Executor}

theorem first_concat (past : List Request) (message : Request) (seq : ℕ) :
    first (past ++ [message]) seq =
      (first past seq).or (if message.seq = seq then some message else none) := by
  rw [first, List.find?_append, List.find?_singleton]
  simp only [decide_eq_true_eq]
  rfl

theorem first_some {seq : ℕ} {message : Request} (found : first past seq = some message) :
    message ∈ past ∧ message.seq = seq :=
  ⟨List.mem_of_find?_eq_some found, by simpa using List.find?_some found⟩

theorem Ordered.found (ordered : Ordered past e) {seq : ℕ} (positive : 1 ≤ seq)
    (below : seq < e.nextExecuteSeq) : ∃ message, first past seq = some message := by
  have member : first past seq ∈ e.executeQueue.map some := by
    rw [ordered.executed]
    exact List.mem_map.mpr ⟨seq, List.mem_range'_1.mpr (by omega), rfl⟩
  obtain ⟨message, -, found⟩ := List.mem_map.mp member
  exact ⟨message, found.symm⟩

theorem first_concat_of_lt (ordered : Ordered past e) {message : Request}
    (late : message.seq < e.nextExecuteSeq) {seq : ℕ} (positive : 1 ≤ seq) :
    first (past ++ [message]) seq = first past seq := by
  rw [first_concat]
  split_ifs with same
  · obtain ⟨earlier, found⟩ := ordered.found positive (same ▸ late)
    rw [found, Option.some_or]
  · exact Option.or_none

theorem next_some (ordered : Ordered past e) (more : e.next = some e') :
    Ordered past e' ∧ e'.candidates.size + 1 = e.candidates.size ∧
      e'.commitQueue = e.commitQueue := by
  unfold next at more
  split at more
  · cases more
  · rename_i seq message rest sorted entries
    split_ifs at more with head
    cases more
    have listed : (seq, message) ∈ e.candidates.entries := by
      rw [entries]
      exact List.mem_cons_self
    have found := ((ordered.candidates seq message).mp listed).2
    refine ⟨⟨Nat.le_succ_of_le ordered.positive, ?_, ?_⟩, ?_, rfl⟩
    · have count : e.nextExecuteSeq + 1 - 1 = (e.nextExecuteSeq - 1) + 1 := by
        have := ordered.positive
        omega
      have last : 1 + 1 * (e.nextExecuteSeq - 1) = seq := by
        have := ordered.positive
        omega
      rw [List.map_append, ordered.executed, count, List.range'_concat, List.map_append, last]
      simp [found]
    · intro other value
      have inside := ordered.candidates other value
      rw [entries, List.mem_cons] at inside
      dsimp only
      constructor
      · intro member
        have above : seq < other := (List.pairwise_cons.mp sorted).1 _ member
        exact ⟨by omega, (inside.mp (.inr member)).2⟩
      · rintro ⟨above, value⟩
        cases inside.mpr ⟨by omega, value⟩ with
        | inl same =>
            cases same
            omega
        | inr member => exact member
    · rw [SortedMap.size, SortedMap.size, entries]
      rfl

theorem next_none (ordered : Ordered past e) (stuck : e.next = none) : Settled past e := by
  rw [Settled, Option.eq_none_iff_forall_ne_some]
  intro message found
  have listed := (ordered.candidates _ message).mpr ⟨le_rfl, found⟩
  unfold next at stuck
  split at stuck
  · rename_i entries
    rw [entries] at listed
    cases listed
  · rename_i seq value rest sorted entries
    split_ifs at stuck with head
    have least : e.nextExecuteSeq ≤ seq := by
      refine ((ordered.candidates seq value).mp ?_).1
      rw [entries]
      exact List.mem_cons_self
    rw [entries, List.mem_cons] at listed
    cases listed with
    | inl same =>
        cases same
        exact head rfl
    | inr member =>
        have above : seq < e.nextExecuteSeq := (List.pairwise_cons.mp sorted).1 _ member
        omega

theorem drain_settled (n : ℕ) (enough : e.candidates.size ≤ n) (ordered : Ordered past e) :
    Ordered past (e.drain n) ∧ Settled past (e.drain n) ∧
      (e.drain n).commitQueue = e.commitQueue := by
  induction n generalizing e with
  | zero =>
      have empty : e.candidates.entries = [] := List.length_eq_zero_iff.mp (Nat.le_zero.mp enough)
      have stuck : e.next = none := by
        unfold next
        split
        · rfl
        · rename_i entries
          rw [entries] at empty
          cases empty
      exact ⟨ordered, next_none ordered stuck, rfl⟩
  | succ n ih =>
      unfold drain
      split
      · rename_i stuck
        exact ⟨ordered, next_none ordered stuck, rfl⟩
      · rename_i e' more
        obtain ⟨later, smaller, queue⟩ := next_some ordered more
        obtain ⟨after, settled, same⟩ := ih (by omega) later
        exact ⟨after, settled, same.trans queue⟩

theorem ordered_insert (rest : List Request) (ordered : Ordered past e) {message : Request}
    (inTime : e.nextExecuteSeq ≤ message.seq) :
    Ordered (past ++ [message])
      { e with
        commitQueue := rest
        candidates := e.candidates.insertNew message.seq message } := by
  refine ⟨ordered.positive, ?_, ?_⟩
  · refine ordered.executed.trans (List.map_congr_left (fun seq member => ?_))
    have below := (List.mem_range'_1.mp member).2
    have positive := ordered.positive
    have other : message.seq ≠ seq := by omega
    rw [first_concat, if_neg other, Option.or_none]
  · intro seq value
    rw [first_concat]
    dsimp only
    unfold SortedMap.insertNew
    split_ifs with known same same
    · rw [ordered.candidates]
      obtain ⟨entry, listed, key⟩ := List.any_eq_true.mp known
      have number : entry.1 = message.seq := of_decide_eq_true key
      have found := ((ordered.candidates entry.1 entry.2).mp listed).2
      rw [number, same] at found
      rw [found, Option.some_or]
    · rw [ordered.candidates, Option.or_none]
    · have fresh : first past seq = none := by
        rw [Option.eq_none_iff_forall_ne_some]
        intro earlier found
        have listed := (ordered.candidates seq earlier).mpr ⟨same ▸ inTime, found⟩
        exact known (List.any_eq_true.mpr ⟨_, listed, decide_eq_true same.symm⟩)
      rw [SortedMap.mem_set, fresh, Option.none_or, same, Option.some_inj]
      constructor
      · rintro (new | ⟨-, other⟩)
        · cases new
          exact ⟨inTime.trans_eq same, rfl⟩
        · exact absurd rfl other
      · rintro ⟨-, rfl⟩
        exact .inl rfl
    · rw [SortedMap.mem_set, ordered.candidates, Option.or_none]
      constructor
      · rintro (new | ⟨kept, -⟩)
        · cases new
          exact absurd rfl same
        · exact kept
      · intro kept
        exact .inr ⟨kept, fun key => same key.symm⟩

/-- The requests that went through the queue and those still in it are all that came. -/
def Tracks (events : List Event) (e : Executor) : Prop :=
  ∃ past, arrivals events = past ++ e.commitQueue ∧ Ordered past e ∧ Settled past e

theorem orderMessage_tracks {events : List Event} (tracks : Tracks events e) :
    Tracks events e.orderMessage := by
  obtain ⟨past, all, ordered, settled⟩ := tracks
  unfold orderMessage
  cases queue : e.commitQueue with
  | nil =>
      simp only [order, queue]
      obtain ⟨after, still, same⟩ := drain_settled _ le_rfl ordered
      exact ⟨past, by rw [same]; exact all, after, still⟩
  | cons message rest =>
      have moved : arrivals events = (past ++ [message]) ++ rest := by
        rw [all, queue, List.append_assoc, List.singleton_append]
      by_cases late : message.seq < e.nextExecuteSeq
      · simp only [order, queue, if_pos late, List.head?_cons, Option.any_some, decide_eq_true late,
          if_true]
        have same : ∀ seq, 1 ≤ seq → first (past ++ [message]) seq = first past seq :=
          fun seq positive => first_concat_of_lt ordered late positive
        refine ⟨past ++ [message], moved, ⟨ordered.positive, ?_, ?_⟩, ?_⟩
        · refine ordered.executed.trans (List.map_congr_left (fun seq member => ?_))
          exact (same seq (List.mem_range'_1.mp member).1).symm
        · intro seq value
          rw [ordered.candidates]
          refine and_congr_right (fun above => ?_)
          rw [same seq (ordered.positive.trans above)]
        · exact (same _ ordered.positive).trans settled
      · simp only [order, queue, if_neg late, List.head?_cons, Option.any_some,
          decide_eq_false late, Bool.false_eq_true, if_false]
        obtain ⟨after, still, kept⟩ :=
          drain_settled _ le_rfl (ordered_insert rest ordered (not_lt.mp late))
        exact ⟨past ++ [message], by rw [kept]; exact moved, after, still⟩

theorem run_tracks (events : List Event) : Tracks events (run events) := by
  induction events using List.reverseRecOn with
  | nil =>
      refine ⟨[], rfl, ⟨le_rfl, rfl, fun seq message => ?_⟩, rfl⟩
      exact ⟨fun member => (List.not_mem_nil member).elim, fun ⟨_, found⟩ => by cases found⟩
  | append_singleton events event ih =>
      rw [run, List.foldl_append]
      cases event with
      | commit message =>
          obtain ⟨past, all, ordered, settled⟩ := ih
          refine ⟨past, ?_, ⟨ordered.positive, ordered.executed, ordered.candidates⟩, settled⟩
          rw [arrivals, List.filterMap_append]
          exact (congrArg (· ++ [message]) all).trans (List.append_assoc _ _ _)
      | orderMessage =>
          have same : arrivals (events ++ [.orderMessage]) = arrivals events := by
            rw [arrivals, List.filterMap_append]
            exact List.append_nil _
          obtain ⟨past, all, rest⟩ := orderMessage_tracks ih
          exact ⟨past, same.trans all, rest⟩

theorem Ordered.arrived_iff (ordered : Ordered past e) (settled : Settled past e) (j : ℕ) :
    (∀ seq, 1 ≤ seq → seq ≤ j → ∃ message ∈ past, message.seq = seq) ↔
      j ≤ e.nextExecuteSeq - 1 := by
  have positive := ordered.positive
  constructor
  · intro all
    by_contra beyond
    obtain ⟨message, member, number⟩ := all e.nextExecuteSeq positive (by omega)
    have missing := List.find?_eq_none.mp settled message member
    exact missing (decide_eq_true number)
  · intro below seq atLeast atMost
    obtain ⟨message, found⟩ := ordered.found atLeast (by omega)
    exact ⟨message, first_some found⟩

theorem first_perm {past past' : List Request} (perm : past'.Perm past)
    (single : ∀ m ∈ past, ∀ m' ∈ past, m.seq = m'.seq → m = m') : first past' = first past := by
  funext seq
  cases found : first past seq with
  | none =>
      refine List.find?_eq_none.mpr (fun message member => ?_)
      exact List.find?_eq_none.mp found message (perm.subset member)
  | some message =>
      obtain ⟨member, number⟩ := first_some found
      cases found' : first past' seq with
      | none =>
          have missing := List.find?_eq_none.mp found' message (perm.symm.subset member)
          exact absurd (decide_eq_true number) missing
      | some other =>
          obtain ⟨inside, same⟩ := first_some found'
          rw [single other (perm.subset inside) message member (same.trans number.symm)]

/-- Once the queue is empty, the requests for the numbers up to the first gap went out in
their order, the first to come for each number, and nothing else did. If there is one
request to a number, the order in which they came does not matter. -/
theorem executes_first_gap_free (events : List Event) (drained : (run events).commitQueue = []) :
    ∃ k, (∀ j, (∀ seq, 1 ≤ seq → seq ≤ j → ∃ message ∈ arrivals events, message.seq = seq) ↔
        j ≤ k) ∧
      (run events).executeQueue.map some = (List.range' 1 k).map (first (arrivals events)) ∧
      (run events).nextExecuteSeq = k + 1 ∧
      ∀ events', (run events').commitQueue = [] → (arrivals events').Perm (arrivals events) →
        (∀ m ∈ arrivals events, ∀ m' ∈ arrivals events, m.seq = m'.seq → m = m') →
        (run events').executeQueue = (run events).executeQueue ∧
          (run events').nextExecuteSeq = (run events).nextExecuteSeq := by
  have whole : ∀ {events : List Event}, (run events).commitQueue = [] →
      Ordered (arrivals events) (run events) ∧ Settled (arrivals events) (run events) := by
    intro events drained
    obtain ⟨past, all, ordered, settled⟩ := run_tracks events
    rw [drained, List.append_nil] at all
    rw [all]
    exact ⟨ordered, settled⟩
  obtain ⟨ordered, settled⟩ := whole drained
  refine ⟨(run events).nextExecuteSeq - 1, ordered.arrived_iff settled, ordered.executed, ?_, ?_⟩
  · have := ordered.positive
    omega
  · intro events' drained' perm single
    obtain ⟨ordered', settled'⟩ := whole drained'
    have next : (run events').nextExecuteSeq = (run events).nextExecuteSeq := by
      have here := ordered.arrived_iff settled
      have there := ordered'.arrived_iff settled'
      simp only [perm.mem_iff] at there
      have upper := (here _).mp ((there _).mpr le_rfl)
      have lower := (there _).mp ((here _).mpr le_rfl)
      have := ordered.positive
      have := ordered'.positive
      omega
    refine ⟨?_, next⟩
    have queues := ordered'.executed
    rw [first_perm perm single, next, ← ordered.executed] at queues
    exact List.map_injective_iff.mpr (Option.some_injective _) queues

/-- Five requests for the numbers 2, 4, 1, 2 again and 0: the first two numbers go out. -/
theorem executes_first_gap_free_sample :
    let events : List Event :=
      [.commit { seq := 2, hash := [1] }, .commit { seq := 4 }, .orderMessage,
        .commit { seq := 1 }, .commit { seq := 2, hash := [2] }, .orderMessage, .orderMessage,
        .commit { seq := 0 }, .orderMessage, .orderMessage]
    (run events).executeQueue = [{ seq := 1 }, { seq := 2, hash := [1] }] ∧
      ∃ k, (run events).nextExecuteSeq = k + 1 := by
  intro events
  refine ⟨by decide, ?_⟩
  obtain ⟨k, -, -, next, -⟩ := executes_first_gap_free events (by decide)
  exact ⟨k, next⟩

end Executor
end ResDB.Pbft
