import Mathlib.Data.Prod.Lex
import Mathlib.Tactic
import ResDB.Geo.GlobalExecutor

/-! The order in which a replica executes the requests of all regions. The executor is a
sequencer whose places are `(1, 1), …, (1, R), (2, 1), …`, and the check list lets at most one
request to a key come to it. -/
namespace ResDB.Geo

def place (regions i : ℕ) : ℕ ×ₗ ℤ := toLex (i / regions + 1, ((i % regions : ℕ) : ℤ) + 1)

theorem place_succ {regions : ℕ} (positive : 0 < regions) (i : ℕ) :
    place regions (i + 1) =
      if (regions : ℤ) < (((i % regions : ℕ) : ℤ) + 1) + 1 then toLex (i / regions + 1 + 1, 1)
      else toLex (i / regions + 1, ((i % regions : ℕ) : ℤ) + 1 + 1) := by
  have below := Nat.mod_lt i positive
  have whole := Nat.div_add_mod i regions
  unfold place
  split_ifs with last
  · have next : i + 1 = regions * (i / regions + 1) := by
      rw [Nat.mul_add, Nat.mul_one]
      omega
    rw [next, Nat.mul_div_cancel_left _ positive, Nat.mul_mod_right]
    rfl
  · have next : i + 1 = (i % regions + 1) + regions * (i / regions) := by omega
    have inside : i % regions + 1 < regions := by omega
    rw [next, Nat.add_mul_div_left _ _ positive, Nat.add_mul_mod_self_left,
      Nat.div_eq_of_lt inside, Nat.mod_eq_of_lt inside]
    simp

theorem place_strictMono {regions : ℕ} (positive : 0 < regions) : StrictMono (place regions) := by
  refine strictMono_nat_of_lt_succ (fun i => ?_)
  rw [place_succ positive, place]
  split_ifs
  · exact Prod.Lex.toLex_lt_toLex.mpr (.inl (Nat.lt_succ_self _))
  · exact Prod.Lex.toLex_lt_toLex.mpr (.inr ⟨rfl, lt_add_one _⟩)

def OffGrid (regions : ℕ) (request : GeoRequest) : Prop :=
  request.seq = 0 ∨ request.regionId < 1 ∨ (regions : ℤ) < request.regionId

theorem offGrid_iff {regions : ℕ} (positive : 0 < regions) (request : GeoRequest) :
    OffGrid regions request ↔ ∀ i, request.key ≠ place regions i := by
  constructor
  · rintro off i same
    obtain ⟨seq, region⟩ : request.seq = i / regions + 1 ∧
        request.regionId = ((i % regions : ℕ) : ℤ) + 1 := Prod.mk.inj (toLex.injective same)
    have below := Nat.mod_lt i positive
    rcases off with zero | low | high
    · exact Nat.succ_ne_zero _ (seq.symm.trans zero)
    · omega
    · omega
  · intro none'
    by_contra on
    obtain ⟨seq, low, high⟩ : request.seq ≠ 0 ∧ 1 ≤ request.regionId ∧
        request.regionId ≤ regions := by
      unfold OffGrid at on
      push Not at on
      exact on
    obtain ⟨k, region⟩ := Int.eq_ofNat_of_zero_le (sub_nonneg.mpr low)
    have inside : k < regions := by omega
    refine none' (k + regions * (request.seq - 1)) ?_
    rw [place, Nat.add_mul_div_left _ _ positive, Nat.add_mul_mod_self_left,
      Nat.div_eq_of_lt inside, Nat.mod_eq_of_lt inside, GeoRequest.key]
    congr 2 <;> omega

namespace GlobalExecutor
variable {format : BatchFormat} {cfg : ExecutorConfig} {e e' : GlobalExecutor}
  {request : GeoRequest}

def sequencer (e : GlobalExecutor) : Sequencer (ℕ ×ₗ ℤ) GeoRequest := ⟨e.executeMap, e.executed⟩

def Cursor (cfg : ExecutorConfig) (e : GlobalExecutor) : Prop :=
  toLex (e.nextSeq, e.nextRegion) = place cfg.regionSize e.executed.length

/-- `Execute` gets to the transaction manager. -/
def Executable (format : BatchFormat) (request : GeoRequest) : Prop :=
  request.data ≠ [] ∧ ∃ batch, format.parse request.data = some batch

theorem execute_frame (executable : Executable format request) (e : GlobalExecutor)
    (cfg : ExecutorConfig) :
    (e.execute format cfg request).executed = e.executed ++ [request] ∧
      (e.execute format cfg request).executeMap = e.executeMap ∧
      (e.execute format cfg request).nextSeq = e.nextSeq ∧
      (e.execute format cfg request).nextRegion = e.nextRegion ∧
      (e.execute format cfg request).arrived = e.arrived ∧
      (e.execute format cfg request).orderQueue = e.orderQueue := by
  obtain ⟨filled, batch, parsed⟩ := executable
  simp only [execute, parsed, if_neg filled, and_self]

theorem advance_frame (cfg : ExecutorConfig) (e : GlobalExecutor) :
    (e.advance cfg).executed = e.executed ∧ (e.advance cfg).executeMap = e.executeMap ∧
      (e.advance cfg).arrived = e.arrived ∧ (e.advance cfg).orderQueue = e.orderQueue := by
  unfold advance
  split_ifs <;> exact ⟨rfl, rfl, rfl, rfl⟩

theorem advance_cursor (cursor : Cursor cfg e) :
    toLex ((e.advance cfg).nextSeq, (e.advance cfg).nextRegion) =
      place cfg.regionSize (e.executed.length + 1) := by
  obtain ⟨seq, region⟩ := Prod.mk.inj (toLex.injective cursor)
  rw [place_succ cfg.regionSize_pos]
  unfold advance
  rw [← region, ← seq]
  split_ifs <;> rfl

theorem getNextMap_none (cursor : Cursor cfg e) (stuck : e.getNextMap cfg = none) :
    e.sequencer.next (place cfg.regionSize) = none := by
  unfold getNextMap at stuck
  unfold Sequencer.next sequencer
  split at stuck
  · rename_i map
    simp only [map]
  · rename_i key first rest sorted map
    split_ifs at stuck with head
    simp only [map]
    rw [Cursor] at cursor
    rw [← cursor, if_neg head]

theorem getNextMap_some (cursor : Cursor cfg e)
    (executable : ∀ entry ∈ e.executeMap.entries, Executable format entry.2)
    (more : e.getNextMap cfg = some (request, e')) :
    e.sequencer.next (place cfg.regionSize) = some (e'.execute format cfg request).sequencer ∧
      Cursor cfg (e'.execute format cfg request) ∧
      (∀ entry ∈ (e'.execute format cfg request).executeMap.entries,
        entry ∈ e.executeMap.entries) ∧
      (e'.execute format cfg request).arrived = e.arrived ∧
      (e'.execute format cfg request).orderQueue = e.orderQueue := by
  unfold getNextMap at more
  split at more
  · cases more
  · rename_i key first rest sorted map
    obtain ⟨head, done⟩ := Option.ite_none_right_eq_some.mp more
    cases done
    have runs : Executable format request :=
      executable (key, request) (by rw [map]; exact List.mem_cons_self)
    obtain ⟨executed, kept, arrived, queue⟩ :=
      advance_frame cfg { e with executeMap := ⟨rest, sorted.of_cons⟩ }
    obtain ⟨executed', kept', seq, region, arrived', queue'⟩ :=
      execute_frame runs (advance cfg { e with executeMap := ⟨rest, sorted.of_cons⟩ }) cfg
    have length : (e.executed ++ [request]).length = e.executed.length + 1 := List.length_append
    refine ⟨?_, ?_, ?_, arrived'.trans arrived, queue'.trans queue⟩
    · unfold Sequencer.next sequencer
      rw [executed', kept', executed, kept]
      simp only [map]
      rw [if_pos (head.trans cursor)]
    · rw [Cursor, seq, region, executed', executed, length]
      exact advance_cursor cursor
    · intro entry inside
      rw [kept', kept] at inside
      rw [map]
      exact List.mem_cons_of_mem _ inside

theorem executeReady_drain (n : ℕ) (cursor : Cursor cfg e)
    (executable : ∀ entry ∈ e.executeMap.entries, Executable format entry.2) :
    (e.executeReady format cfg n).sequencer = e.sequencer.drain (place cfg.regionSize) n ∧
      Cursor cfg (e.executeReady format cfg n) ∧
      (e.executeReady format cfg n).arrived = e.arrived ∧
      (e.executeReady format cfg n).orderQueue = e.orderQueue := by
  induction n generalizing e with
  | zero => exact ⟨rfl, cursor, rfl, rfl⟩
  | succ n ih =>
      unfold executeReady Sequencer.drain
      cases more : e.getNextMap cfg with
      | none =>
          rw [getNextMap_none cursor more]
          exact ⟨rfl, cursor, rfl, rfl⟩
      | some taken =>
          obtain ⟨request, e'⟩ := taken
          obtain ⟨next, cursor', fewer, arrived, queue⟩ := getNextMap_some cursor executable more
          rw [next]
          obtain ⟨drained, cursor'', arrived', queue'⟩ :=
            ih cursor' (fun entry inside => executable entry (fewer entry inside))
          exact ⟨drained, cursor'', arrived'.trans arrived, queue'.trans queue⟩

end GlobalExecutor

open GlobalExecutor (Cursor Executable)

theorem executable_of_accepts {geo : GeoConfig} {request : GeoRequest}
    (accepted : geo.accepts request.data = true) : Executable geo.format request := by
  unfold GeoConfig.accepts at accepted
  constructor
  · intro empty
    rw [empty, geo.format.parse_nil] at accepted
    cases accepted
  · cases parsed : geo.format.parse request.data with
    | none =>
        rw [parsed] at accepted
        cases accepted
    | some batch => exact ⟨batch, rfl⟩

namespace Commitment

theorem note_forwarded (s : Commitment) (request : GeoRequest) :
    (s.note request).forwarded = s.forwarded := by
  unfold note
  split_ifs <;> rfl

theorem addNewReq_forwarded (s : Commitment) (seq region : ℕ) :
    (s.addNewReq seq region).2.forwarded = s.forwarded := by
  unfold addNewReq
  split_ifs <;> rfl

theorem forwarded_geoProcessCcm (geo : GeoConfig) (s : Commitment) (request : GeoRequest) :
    (s.geoProcessCcm geo request).2.forwarded =
      s.forwarded ++ if (s.geoProcessCcm geo request).1 = 0 then [request] else [] := by
  have kept := (addNewReq_forwarded (s.note request) request.seq
    (toUInt32 request.regionId)).trans (s.note_forwarded request)
  unfold geoProcessCcm
  cases added : (s.note request).addNewReq request.seq (toUInt32 request.regionId) with
  | mk fresh s' =>
      rw [added] at kept
      cases fresh with
      | false => exact kept.trans (List.append_nil _).symm
      | true =>
          by_cases valid : geo.accepts request.data = true
          · simp only [if_pos valid]
            exact congrArg (· ++ [request]) kept
          · simp only [if_neg valid]
            exact kept.trans (List.append_nil _).symm

end Commitment

namespace GeoReplica
variable {geo : GeoConfig} {cfg : ExecutorConfig} {s : GeoReplica}

structure Valid (geo : GeoConfig) (cfg : ExecutorConfig) (s : GeoReplica) : Prop where
  tracks : Commitment.Tracks geo s.commitment
  passed : s.commitment.forwarded = s.executor.arrived ++ s.executor.orderQueue
  cursor : Cursor cfg s.executor
  sequenced : Sequencer.Sequenced (place cfg.regionSize) GeoRequest.key s.executor.arrived
    s.executor.sequencer
  stuck : s.executor.sequencer.next (place cfg.regionSize) = none

theorem Valid.initial : Valid geo cfg {} :=
  ⟨Commitment.run_tracks geo [], rfl, by simp [Cursor, place], Sequencer.Sequenced.initial, rfl⟩

theorem Valid.fresh (valid : Valid geo cfg s) {request : GeoRequest} {rest : List GeoRequest}
    (queue : s.executor.orderQueue = request :: rest) :
    ∀ w ∈ s.executor.arrived, w.key ≠ request.key := by
  intro w came same
  have distinct := valid.tracks.distinct
  rw [valid.passed, queue] at distinct
  have apart := (List.pairwise_append.mp distinct).2.2 w came request List.mem_cons_self
  obtain ⟨seq, region⟩ : w.seq = request.seq ∧ w.regionId = request.regionId :=
    Prod.mk.inj (toLex.injective same)
  exact apart (GeoRequest.SameKey.sameSlot ⟨seq, region⟩)

theorem Valid.executable (valid : Valid geo cfg s) :
    ∀ request ∈ s.executor.arrived ++ s.executor.orderQueue, Executable geo.format request := by
  intro request inside
  rw [← valid.passed] at inside
  exact executable_of_accepts ((valid.tracks.forwarded request).mp inside).2

theorem Valid.waiting (valid : Valid geo cfg s) :
    ∀ entry ∈ s.executor.executeMap.entries, entry.2 ∈ s.executor.arrived :=
  fun entry inside => ((valid.sequenced.waiting entry.1 entry.2).mp inside).1

theorem Valid.orderRound_nil (valid : Valid geo cfg s) (queue : s.executor.orderQueue = []) :
    (s.executor.orderRound geo.format cfg).sequencer = s.executor.sequencer ∧
      Cursor cfg (s.executor.orderRound geo.format cfg) ∧
      (s.executor.orderRound geo.format cfg).arrived = s.executor.arrived ∧
      (s.executor.orderRound geo.format cfg).orderQueue = [] := by
  have same : s.executor.addData = s.executor := by
    unfold GlobalExecutor.addData
    rw [queue]
  obtain ⟨drained, cursor, arrived, left⟩ := GlobalExecutor.executeReady_drain
    s.executor.executeMap.size valid.cursor (fun entry inside =>
      valid.executable entry.2 (List.mem_append_left _ (valid.waiting entry inside)))
  rw [Sequencer.drain_of_stuck valid.stuck] at drained
  rw [GlobalExecutor.orderRound, same]
  exact ⟨drained, cursor, arrived, left.trans queue⟩

theorem Valid.orderRound_cons (valid : Valid geo cfg s) {request : GeoRequest}
    {rest : List GeoRequest} (queue : s.executor.orderQueue = request :: rest) :
    (s.executor.orderRound geo.format cfg).sequencer =
        s.executor.sequencer.arrive (place cfg.regionSize) GeoRequest.key request ∧
      Cursor cfg (s.executor.orderRound geo.format cfg) ∧
      (s.executor.orderRound geo.format cfg).arrived = s.executor.arrived ++ [request] ∧
      (s.executor.orderRound geo.format cfg).orderQueue = rest := by
  have added : s.executor.addData = { s.executor with
      orderQueue := rest
      executeMap := s.executor.executeMap.set request.key request
      arrived := s.executor.arrived ++ [request] } := by
    unfold GlobalExecutor.addData
    rw [queue]
  have executable : ∀ entry ∈ s.executor.addData.executeMap.entries,
      Executable geo.format entry.2 := by
    intro entry inside
    rw [added] at inside
    apply valid.executable
    rcases (SortedMap.mem_set _ _ _ _).mp inside with new | ⟨old, -⟩
    · rw [new, queue]
      exact List.mem_append_right _ List.mem_cons_self
    · exact List.mem_append_left _ (valid.waiting entry old)
  have cursor : Cursor cfg s.executor.addData := by
    rw [added]
    exact valid.cursor
  obtain ⟨drained, cursor', arrived, left⟩ := GlobalExecutor.executeReady_drain
    s.executor.addData.executeMap.size cursor executable
  rw [← GlobalExecutor.orderRound] at drained cursor' arrived left
  refine ⟨?_, cursor', ?_, ?_⟩
  · rw [drained, added]
    rfl
  · rw [arrived, added]
  · rw [left, added]

theorem Valid.step_orderRound (valid : Valid geo cfg s) :
    Valid geo cfg ⟨s.commitment, s.executor.orderRound geo.format cfg⟩ := by
  cases queue : s.executor.orderQueue with
  | nil =>
      obtain ⟨same, cursor, arrived, left⟩ := valid.orderRound_nil queue
      refine ⟨valid.tracks, ?_, cursor, ?_, ?_⟩
      · rw [valid.passed, queue]
        exact (congrArg₂ _ arrived left).symm
      · change Sequencer.Sequenced _ _ (s.executor.orderRound geo.format cfg).arrived _
        rw [arrived, same]
        exact valid.sequenced
      · rw [same]
        exact valid.stuck
  | cons request rest =>
      obtain ⟨moved, cursor, arrived, left⟩ := valid.orderRound_cons queue
      obtain ⟨sequenced, stuck⟩ :=
        Sequencer.arrive_sequenced valid.sequenced (valid.fresh queue)
      refine ⟨valid.tracks, ?_, cursor, ?_, ?_⟩
      · rw [valid.passed, queue]
        change _ = (s.executor.orderRound geo.format cfg).arrived ++
          (s.executor.orderRound geo.format cfg).orderQueue
        rw [arrived, left, List.append_assoc, List.singleton_append]
      · change Sequencer.Sequenced _ _ (s.executor.orderRound geo.format cfg).arrived _
        rw [arrived, moved]
        exact sequenced
      · rw [moved]
        exact stuck

theorem Valid.step_geoProcessCcm (valid : Valid geo cfg s) (request : GeoRequest) :
    Valid geo cfg (s.geoProcessCcm geo request) := by
  have tracks := Commitment.step_tracks valid.tracks (.geoProcessCcm request)
  have forwarded := Commitment.forwarded_geoProcessCcm geo s.commitment request
  rw [valid.passed] at forwarded
  unfold geoProcessCcm
  dsimp only
  split_ifs at forwarded ⊢
  · refine ⟨tracks, ?_, valid.cursor, valid.sequenced, valid.stuck⟩
    exact forwarded.trans (List.append_assoc _ _ _)
  · refine ⟨tracks, ?_, valid.cursor, valid.sequenced, valid.stuck⟩
    exact forwarded.trans (List.append_nil _)

theorem Valid.step_postProcess (valid : Valid geo cfg s) :
    Valid geo cfg s.postProcessExecutedMsg := by
  unfold postProcessExecutedMsg
  split
  · exact valid
  · rename_i response rest queue
    refine ⟨Commitment.step_tracks valid.tracks (.updateSeq response.seq), ?_, valid.cursor,
      valid.sequenced, valid.stuck⟩
    refine Eq.trans ?_ valid.passed
    unfold Commitment.updateSeq
    split_ifs <;> rfl

theorem step_valid (valid : Valid geo cfg s) (action : Action) :
    Valid geo cfg (s.step geo cfg action) := by
  cases action with
  | geoProcessCcm request => exact valid.step_geoProcessCcm request
  | orderRound => exact valid.step_orderRound
  | postProcessExecutedMsg => exact valid.step_postProcess

/-- What was executed is what arrived for the longest run of `(1, 1), …, (1, R), (2, 1), …`. -/
def InOrder (cfg : ExecutorConfig) (s : GeoReplica) : Prop :=
  Sequencer.Exact (place cfg.regionSize) GeoRequest.key s.executor.arrived s.executor.executed

/-- A request that is taken from the queue makes no place ready that is after the key of an
earlier request without a place. -/
def Unblocked (cfg : ExecutorConfig) (s : GeoReplica) : Action → Prop
  | .orderRound => ∀ request, s.executor.orderQueue.head? = some request →
      ∀ w ∈ s.executor.arrived, OffGrid cfg.regionSize w → ∀ j,
        Sequencer.Reached (place cfg.regionSize) GeoRequest.key
          (s.executor.arrived ++ [request]) (j + 1) →
        ¬ Sequencer.Reached (place cfg.regionSize) GeoRequest.key s.executor.arrived (j + 1) →
        place cfg.regionSize j < w.key
  | _ => True

theorem step_inOrder_iff (valid : Valid geo cfg s) (inOrder : InOrder cfg s) (action : Action) :
    InOrder cfg (s.step geo cfg action) ↔ Unblocked cfg s action := by
  cases action with
  | geoProcessCcm request =>
      refine iff_of_true ?_ trivial
      change InOrder cfg (s.geoProcessCcm geo request)
      unfold geoProcessCcm
      dsimp only
      split_ifs <;> exact inOrder
  | postProcessExecutedMsg =>
      refine iff_of_true ?_ trivial
      change InOrder cfg s.postProcessExecutedMsg
      unfold postProcessExecutedMsg
      split <;> exact inOrder
  | orderRound =>
      change Sequencer.Exact _ _ (s.executor.orderRound geo.format cfg).arrived
        (s.executor.orderRound geo.format cfg).sequencer.out ↔ _
      cases queue : s.executor.orderQueue with
      | nil =>
          obtain ⟨same, -, arrived, -⟩ := valid.orderRound_nil queue
          rw [arrived, same]
          refine iff_of_true inOrder (fun request head => ?_)
          rw [queue] at head
          cases head
      | cons request rest =>
          obtain ⟨moved, -, arrived, -⟩ := valid.orderRound_cons queue
          rw [arrived, moved, Sequencer.arrive_exact_iff (place_strictMono cfg.regionSize_pos)
            valid.sequenced inOrder (valid.fresh queue)]
          simp only [Unblocked, queue, List.head?_cons, Option.some.injEq, forall_eq',
            offGrid_iff cfg.regionSize_pos]
          rfl

/-- What is forwarded has arrived or is in the queue; and all along a run the requests are
executed in the order of numbers and regions, up to the first gap, exactly if no request is
taken that would make ready a place after the key of an earlier request without a place. -/
theorem global_order_iff_unblocked (geo : GeoConfig) (cfg : ExecutorConfig)
    (actions : List Action) :
    (∀ made, made <+: actions → (run geo cfg made).commitment.forwarded =
      (run geo cfg made).executor.arrived ++ (run geo cfg made).executor.orderQueue) ∧
    ((∀ made, made <+: actions → InOrder cfg (run geo cfg made)) ↔
      ∀ made a, made ++ [a] <+: actions → Unblocked cfg (run geo cfg made) a) := by
  refine ⟨fun made _ => ?_, ?_⟩
  · have valid : Valid geo cfg (run geo cfg made) :=
      List.foldlRecOn made (step geo cfg) Valid.initial (fun s valid a _ => step_valid valid a)
    exact valid.passed
  · have initial : InOrder cfg {} := by
      refine ⟨fun _ inside => absurd inside List.not_mem_nil, rfl, fun j => ⟨fun reached => ?_, ?_⟩⟩
      · by_contra beyond
        obtain ⟨v, inside, -⟩ := reached 0 (Nat.lt_of_not_le beyond)
        exact absurd inside List.not_mem_nil
      · intro none' i below
        exact absurd below (Nat.not_lt.mpr (none'.trans (Nat.zero_le i)))
    exact Run.holds_iff_steps Valid.initial (fun s a valid => step_valid valid a) initial
      (fun s a valid inOrder => step_inOrder_iff valid inOrder a)

def twoRegions : ExecutorConfig where
  regionSize := 2
  regionSize_pos := Nat.zero_lt_two
  myRegion := 2
  executeBatch := fun _ => none

def zeroFirst : List Action :=
  [.geoProcessCcm ⟨[1], 0, 1, 0⟩, .geoProcessCcm ⟨[1], 1, 1, 0⟩, .orderRound, .orderRound]

/-- The first place is ready, and nothing is executed. -/
theorem number_zero_blocks :
    (run Commitment.sampleGeoConfig twoRegions zeroFirst).executor.arrived =
        [⟨[1], 0, 1, 0⟩, ⟨[1], 1, 1, 0⟩] ∧
      (run Commitment.sampleGeoConfig twoRegions zeroFirst).executor.executed = [] ∧
      ¬ InOrder twoRegions (run Commitment.sampleGeoConfig twoRegions zeroFirst) := by
  have arrived : (run Commitment.sampleGeoConfig twoRegions zeroFirst).executor.arrived =
      [⟨[1], 0, 1, 0⟩, ⟨[1], 1, 1, 0⟩] := by decide +kernel
  have executed : (run Commitment.sampleGeoConfig twoRegions zeroFirst).executor.executed = [] := by
    decide +kernel
  refine ⟨arrived, executed, fun inOrder => ?_⟩
  have longest := (inOrder.longest 1).mp
  rw [arrived, executed] at longest
  refine absurd (longest (fun i first => ?_)) (by decide)
  refine ⟨⟨[1], 1, 1, 0⟩, by decide, ?_⟩
  rw [Nat.lt_one_iff.mp first]
  decide +kernel

end GeoReplica
end ResDB.Geo
