import Mathlib.Tactic
import ResDB.Recovery.NothingLost

/-! The range of sequence numbers in the file in use. `WriteLog` extends it by each request;
`SwitchFile` rebuilds it from the file at a restart, where it keeps the first number it reads
as the minimum. -/
namespace ResDB
open Pbft (RequestInfo toInt64)

namespace Recovery
variable {s s' : Recovery}

def Spans (low high : Int) (requests : List RequestInfo) : Prop :=
  (∃ info ∈ requests, (info.request.seq : Int) = low) ∧
    (∃ info ∈ requests, (info.request.seq : Int) = high) ∧
    ∀ info ∈ requests, low ≤ (info.request.seq : Int) ∧ (info.request.seq : Int) ≤ high

/-- The range is that of the file in use, and the files that were put away are named with
theirs. -/
structure Tracked (s : Recovery) : Prop where
  inUse : ∀ f ∈ s.dir, f.time = s.current → f.requests ≠ [] → Spans s.minSeq s.maxSeq f.requests
  putAway : ∀ f ∈ s.dir, f.minSeq ≠ -1 → Spans f.minSeq f.maxSeq f.requests

/-- The steps in any order, for any checkpoints; only times increase. -/
def advance (s : Recovery) : Event → Option Recovery
  | .write info => some (s.writeLog info)
  | .finish ckpt time time' =>
      if s.clock < time ∧ time < time' then some (s.finishFile ckpt time time') else none
  | .restart listing time =>
      if listing.Perm s.dir ∧ s.clock < time then some (s.restart listing time) else none

/-- The first request has the smallest number, and it is not 0. -/
def FirstLeast : List RequestInfo → Prop
  | [] => True
  | first :: rest => 0 < first.request.seq ∧ ∀ info ∈ rest, first.request.seq ≤ info.request.seq

instance decidableFirstLeast : (requests : List RequestInfo) → Decidable (FirstLeast requests)
  | [] => .isTrue trivial
  | _ :: _ => inferInstanceAs (Decidable (_ ∧ ∀ _ ∈ _, _))

/-- A request's number fits into the signed range, and the file that a restart takes up starts
with its smallest number. -/
def InRange (s : Recovery) : Event → Prop
  | .write info => info.request.seq < 2 ^ 63
  | .finish _ _ _ => True
  | .restart listing _ => ∀ f ∈ s.dir, f.time = (listing.foldl pickFile (-1, 0, 0)).2.2 →
      FirstLeast f.requests

instance decidableInRange (s : Recovery) : (e : Event) → Decidable (InRange s e)
  | .write _ => inferInstanceAs (Decidable (_ < _))
  | .finish _ _ _ => .isTrue trivial
  | .restart _ _ => inferInstanceAs (Decidable (∀ _ ∈ _, _ → _))

/-! ### What a restart finds in a file -/

section Rebuilding

/-- One request of the loop in `SwitchFile`. -/
def widen (range : Int × Int) (info : RequestInfo) : Int × Int :=
  (if range.1 = -1 then toInt64 info.request.seq else range.1,
    max range.2 (toInt64 info.request.seq))

theorem rangeOf_eq (requests : List RequestInfo) :
    rangeOf requests =
      (requests.filter (fun info => 0 < info.request.seq)).foldl widen (-1, -1) := rfl

theorem foldl_widen_min (requests : List RequestInfo) {range : Int × Int}
    (found : range.1 ≠ -1) : (requests.foldl widen range).1 = range.1 := by
  induction requests generalizing range with
  | nil => rfl
  | cons first rest ih =>
      have same : (widen range first).1 = range.1 := if_neg found
      rw [List.foldl_cons, ih (same ▸ found), same]

theorem foldl_widen_max (requests : List RequestInfo) (range : Int × Int)
    (small : ∀ info ∈ requests, info.request.seq < 2 ^ 63) :
    range.2 ≤ (requests.foldl widen range).2 ∧
      (∀ info ∈ requests, (info.request.seq : Int) ≤ (requests.foldl widen range).2) ∧
      ((requests.foldl widen range).2 = range.2 ∨
        ∃ info ∈ requests, (info.request.seq : Int) = (requests.foldl widen range).2) := by
  induction requests generalizing range with
  | nil => exact ⟨le_rfl, fun info inside => absurd inside List.not_mem_nil, .inl rfl⟩
  | cons first rest ih =>
      have exactly := toInt64_of_lt (small first List.mem_cons_self)
      have step : (widen range first).2 = max range.2 first.request.seq := by rw [← exactly]; rfl
      obtain ⟨above, bound, reached⟩ := ih (widen range first)
        (fun info inside => small info (List.mem_cons_of_mem _ inside))
      rw [step] at above reached
      rw [List.foldl_cons]
      refine ⟨(le_max_left _ _).trans above, ?_, ?_⟩
      · exact List.forall_mem_cons.mpr ⟨(le_max_right _ _).trans above, bound⟩
      · rcases reached with old | ⟨info, inside, same⟩
        · rcases max_choice range.2 (first.request.seq : Int) with start | new
          · exact .inl (old.trans start)
          · exact .inr ⟨first, List.mem_cons_self, (old.trans new).symm⟩
        · exact .inr ⟨info, List.mem_cons_of_mem _ inside, same⟩

theorem foldl_widen_cons {first : RequestInfo} (rest : List RequestInfo)
    (small : first.request.seq < 2 ^ 63) :
    ((first :: rest).foldl widen (-1, -1)).1 = first.request.seq := by
  have exactly := toInt64_of_lt small
  have start : (widen (-1, -1) first).1 = first.request.seq := by rw [← exactly]; rfl
  rw [List.foldl_cons, foldl_widen_min rest (by rw [start]; omega), start]

theorem spans_rangeOf_of_firstLeast {requests : List RequestInfo} (filled : requests ≠ [])
    (small : ∀ info ∈ requests, info.request.seq < 2 ^ 63) (least : FirstLeast requests) :
    Spans (rangeOf requests).1 (rangeOf requests).2 requests := by
  cases requests with
  | nil => exact absurd rfl filled
  | cons first rest =>
      obtain ⟨positive, smallest⟩ := least
      have lower : ∀ info ∈ first :: rest, first.request.seq ≤ info.request.seq :=
        List.forall_mem_cons.mpr ⟨le_rfl, smallest⟩
      have all : (first :: rest).filter (fun info => 0 < info.request.seq) = first :: rest := by
        apply List.filter_eq_self.mpr
        intro info inside
        exact decide_eq_true (positive.trans_le (lower info inside))
      have min := foldl_widen_cons rest (small first List.mem_cons_self)
      obtain ⟨-, bound, reached⟩ := foldl_widen_max (first :: rest) (-1, -1) small
      rw [rangeOf_eq, all, min]
      refine ⟨⟨first, List.mem_cons_self, rfl⟩, ?_, ?_⟩
      · refine reached.resolve_left ?_
        have above := bound first List.mem_cons_self
        omega
      · intro info inside
        exact ⟨Int.ofNat_le.mpr (lower info inside), bound info inside⟩

theorem firstLeast_of_spans_rangeOf {requests : List RequestInfo}
    (small : ∀ info ∈ requests, info.request.seq < 2 ^ 63)
    (spans : Spans (rangeOf requests).1 (rangeOf requests).2 requests) : FirstLeast requests := by
  obtain ⟨⟨info, inside, least⟩, -, bounds⟩ := spans
  rw [rangeOf_eq] at least bounds
  cases positives : requests.filter (fun info => 0 < info.request.seq) with
  | nil =>
      rw [positives] at least
      have impossible : (info.request.seq : Int) = -1 := least
      omega
  | cons first rest =>
      have member : first ∈ requests.filter (fun info => 0 < info.request.seq) := by
        rw [positives]
        exact List.mem_cons_self
      obtain ⟨there, above⟩ := List.mem_filter.mp member
      have positive : 0 < first.request.seq := of_decide_eq_true above
      rw [positives, foldl_widen_cons rest (small first there)] at bounds
      have lower : ∀ info ∈ requests, first.request.seq ≤ info.request.seq :=
        fun info inside => Int.ofNat_le.mp (bounds info inside).1
      have all : requests.filter (fun info => 0 < info.request.seq) = requests := by
        apply List.filter_eq_self.mpr
        intro info inside
        exact decide_eq_true (positive.trans_le (lower info inside))
      rw [all] at positives
      subst positives
      exact ⟨positive, fun info inside => lower info (List.mem_cons_of_mem _ inside)⟩

end Rebuilding

/-! ### One step -/

/-- What else holds of the files: an empty file in use has no range, and all numbers written
fit into it. -/
structure Laid (s : Recovery) : Prop where
  dated : Dated s
  empty : ∀ f ∈ s.dir, f.time = s.current → f.requests = [] → s.minSeq = -1 ∧ s.maxSeq = -1
  small : ∀ f ∈ s.dir, ∀ info ∈ f.requests, info.request.seq < 2 ^ 63

theorem toInt64_lt (n : ℕ) : toInt64 n < 2 ^ 63 := by
  unfold toInt64
  split <;> omega

section Steps

theorem Spans.snoc {low high : Int} {requests : List RequestInfo} (spans : Spans low high requests)
    (info : RequestInfo) :
    Spans (min low info.request.seq) (max high info.request.seq) (requests ++ [info]) := by
  obtain ⟨⟨first, inFirst, least⟩, ⟨last, inLast, most⟩, bounds⟩ := spans
  have self : info ∈ requests ++ [info] := List.mem_append_right _ List.mem_cons_self
  refine ⟨?_, ?_, ?_⟩
  · rcases min_choice low (info.request.seq : Int) with old | new
    · exact ⟨first, List.mem_append_left _ inFirst, least.trans old.symm⟩
    · exact ⟨info, self, new.symm⟩
  · rcases max_choice high (info.request.seq : Int) with old | new
    · exact ⟨last, List.mem_append_left _ inLast, most.trans old.symm⟩
    · exact ⟨info, self, new.symm⟩
  · intro other inside
    rcases List.mem_append.mp inside with before | new
    · obtain ⟨below, above⟩ := bounds other before
      exact ⟨(min_le_left _ _).trans below, above.trans (le_max_left _ _)⟩
    · rw [List.mem_singleton.mp new]
      exact ⟨min_le_right _ _, le_max_right _ _⟩

theorem spans_singleton (info : RequestInfo) :
    Spans info.request.seq info.request.seq [info] := by
  refine ⟨⟨info, List.mem_cons_self, rfl⟩, ⟨info, List.mem_cons_self, rfl⟩, ?_⟩
  intro other inside
  rw [List.mem_singleton.mp inside]
  exact ⟨le_rfl, le_rfl⟩

theorem append_inUse {info : RequestInfo} {f : LogFile} (inUse : f.time = s.current) :
    (s.append info f).requests = f.requests ++ [info] := by
  rw [append, if_pos inUse]

theorem Laid.spans_write (laid : Laid s) (tracked : Tracked s) {new : RequestInfo}
    (small : new.request.seq < 2 ^ 63) {f : LogFile} (inDir : f ∈ s.dir)
    (inUse : f.time = s.current) :
    Spans (s.writeLog new).minSeq (s.writeLog new).maxSeq (f.requests ++ [new]) := by
  have exactly := toInt64_of_lt small
  simp only [writeLog, exactly]
  by_cases filled : f.requests = []
  · obtain ⟨low, high⟩ := laid.empty f inDir inUse filled
    have top : max (-1) (new.request.seq : Int) = new.request.seq := max_eq_right (by omega)
    rw [filled, if_pos low, high, top]
    exact spans_singleton new
  · have spans := tracked.inUse f inDir inUse filled
    obtain ⟨first, -, least⟩ := spans.1
    rw [if_neg (by omega)]
    exact spans.snoc new

theorem Laid.writeLog (laid : Laid s) {new : RequestInfo} (small : new.request.seq < 2 ^ 63) :
    Laid (s.writeLog new) := by
  refine ⟨laid.dated.writeLog new, ?_, ?_⟩
  · refine List.forall_mem_map.mpr (fun f inDir inUse none' => ?_)
    have current : f.time = s.current := (append_time s new f).symm.trans inUse
    rw [append_inUse current] at none'
    exact absurd none' (List.append_ne_nil_of_right_ne_nil _ (List.cons_ne_nil _ _))
  · refine List.forall_mem_map.mpr (fun f inDir info inFile => ?_)
    rcases mem_append.mp inFile with before | ⟨-, rfl⟩
    · exact laid.small f inDir info before
    · exact small

theorem Laid.tracked_writeLog_iff (laid : Laid s) (tracked : Tracked s) (new : RequestInfo) :
    Tracked (s.writeLog new) ↔ new.request.seq < 2 ^ 63 := by
  constructor
  · intro tracked'
    obtain ⟨f, inDir, inUse, -⟩ := laid.dated.inUse
    have spans := tracked'.inUse (s.append new f) (List.mem_map_of_mem inDir)
      (by rw [append_time]; exact inUse)
      (by
        rw [append_inUse inUse]
        exact List.append_ne_nil_of_right_ne_nil _ (List.cons_ne_nil _ _))
    have bound := (spans.2.2 new (mem_append.mpr (.inr ⟨inUse, rfl⟩))).2
    have old : s.maxSeq < 2 ^ 63 := by
      by_cases filled : f.requests = []
      · have high := (laid.empty f inDir inUse filled).2
        omega
      · obtain ⟨last, inside, most⟩ := (tracked.inUse f inDir inUse filled).2.1
        have fits := laid.small f inDir last inside
        omega
    have fits := toInt64_lt new.request.seq
    have widened : (s.writeLog new).maxSeq = max s.maxSeq (toInt64 new.request.seq) := rfl
    have top : max s.maxSeq (toInt64 new.request.seq) < 2 ^ 63 := max_lt old fits
    omega
  · intro small
    refine ⟨?_, ?_⟩
    · refine List.forall_mem_map.mpr (fun f inDir inUse _ => ?_)
      have current : f.time = s.current := (append_time s new f).symm.trans inUse
      rw [append_inUse current]
      exact laid.spans_write tracked small inDir current
    · refine List.forall_mem_map.mpr (fun f inDir named => ?_)
      rw [append_minSeq] at named
      have other : f.time ≠ s.current := fun inUse => named (laid.dated.named_inUse inDir inUse)
      rw [append, if_neg other]
      exact tracked.putAway f inDir named

theorem Laid.finishFile (laid : Laid s) {ckpt time time' : ℕ} (later : s.clock < time)
    (next : time < time') : Laid (s.finishFile ckpt time time') := by
  refine ⟨laid.dated.finishFile ckpt later next, fun _ _ _ _ => ⟨rfl, rfl⟩, ?_⟩
  intro g inDir info inFile
  rcases mem_finishFile inDir with ⟨f, there, -, rfl⟩ | ⟨f, there, -, rfl⟩ | rfl
  · exact laid.small g there info inFile
  · exact laid.small f there info inFile
  · exact absurd inFile List.not_mem_nil

theorem Laid.tracked_finishFile (laid : Laid s) (tracked : Tracked s) {ckpt time time' : ℕ}
    (later : s.clock < time) (next : time < time') : Tracked (s.finishFile ckpt time time') := by
  refine ⟨?_, ?_⟩
  · intro g inDir current filled
    rw [laid.dated.new_inUse later next inDir current] at filled
    exact absurd rfl filled
  · intro g inDir named
    rcases mem_finishFile inDir with ⟨f, there, -, rfl⟩ | ⟨f, there, inUse, rfl⟩ | rfl
    · exact tracked.putAway g there named
    · refine tracked.inUse f there inUse (fun none' => named ?_)
      exact (laid.empty f there inUse none').1
    · exact absurd rfl named

theorem Dated.flatMap_eq (dated : Dated s) {f : LogFile} (inDir : f ∈ s.dir) :
    (s.dir.filter (fun g => g.time = f.time)).flatMap (fun g => g.requests) = f.requests := by
  obtain ⟨before, after, whole⟩ := List.append_of_mem inDir
  have times := dated.distinct
  rw [whole, List.map_append, List.map_cons, List.nodup_append, List.nodup_cons] at times
  obtain ⟨-, ⟨alone, -⟩, apart⟩ := times
  have noneBefore : before.filter (fun g => g.time = f.time) = [] := by
    apply List.filter_eq_nil_iff.mpr
    intro g inside
    simpa using apart g.time (List.mem_map_of_mem inside) f.time List.mem_cons_self
  have noneAfter : after.filter (fun g => g.time = f.time) = [] := by
    apply List.filter_eq_nil_iff.mpr
    intro g inside same
    exact alone (of_decide_eq_true same ▸ List.mem_map_of_mem inside)
  simp [whole, List.filter_append, noneBefore, noneAfter]

theorem Dated.switchFile_range (dated : Dated s) {f : LogFile} (inDir : f ∈ s.dir) :
    (s.switchFile f.time).minSeq = (rangeOf f.requests).1 ∧
      (s.switchFile f.time).maxSeq = (rangeOf f.requests).2 := by
  simp only [Recovery.switchFile, dated.flatMap_eq inDir, and_self]

theorem Laid.switchFile (laid : Laid s) {f : LogFile} (inDir : f ∈ s.dir)
    (opened : f.minSeq = -1) : Laid (s.switchFile f.time) := by
  refine ⟨⟨laid.dated.distinct, laid.dated.clock, ⟨f, inDir, rfl, opened⟩⟩, ?_, laid.small⟩
  intro g there current none'
  obtain ⟨low, high⟩ := laid.dated.switchFile_range inDir
  rw [laid.dated.eq_of_time there inDir current] at none'
  rw [low, high, none']
  exact ⟨rfl, rfl⟩

theorem Laid.tracked_switchFile_iff (laid : Laid s) (tracked : Tracked s) {f : LogFile}
    (inDir : f ∈ s.dir) : Tracked (s.switchFile f.time) ↔ FirstLeast f.requests := by
  obtain ⟨low, high⟩ := laid.dated.switchFile_range inDir
  constructor
  · intro tracked'
    by_cases filled : f.requests = []
    · rw [filled]
      trivial
    · have spans := tracked'.inUse f inDir rfl filled
      rw [low, high] at spans
      exact firstLeast_of_spans_rangeOf (laid.small f inDir) spans
  · intro least
    refine ⟨?_, tracked.putAway⟩
    intro g there current filled
    rw [laid.dated.eq_of_time there inDir current] at filled ⊢
    rw [low, high]
    exact spans_rangeOf_of_firstLeast filled (laid.small f inDir) least

theorem Laid.step (laid : Laid s) {e : Event} (fits : InRange s e)
    (taken : s.advance e = some s') : Laid s' := by
  cases e with
  | write info =>
      cases taken
      exact laid.writeLog fits
  | finish ckpt time time' =>
      obtain ⟨⟨later, next⟩, done⟩ := Option.ite_none_right_eq_some.mp taken
      cases done
      exact laid.finishFile later next
  | restart listing time =>
      obtain ⟨⟨listed, -⟩, done⟩ := Option.ite_none_right_eq_some.mp taken
      cases done
      obtain ⟨f, inDir, opened, -, switched⟩ := laid.dated.restart_eq listed time
      rw [switched]
      exact laid.switchFile inDir opened

theorem Laid.tracked_step_iff (laid : Laid s) (tracked : Tracked s) {e : Event}
    (taken : s.advance e = some s') : Tracked s' ↔ InRange s e := by
  cases e with
  | write info =>
      cases taken
      exact laid.tracked_writeLog_iff tracked info
  | finish ckpt time time' =>
      obtain ⟨⟨later, next⟩, done⟩ := Option.ite_none_right_eq_some.mp taken
      cases done
      exact ⟨fun _ => trivial, fun _ => laid.tracked_finishFile tracked later next⟩
  | restart listing time =>
      obtain ⟨⟨listed, -⟩, done⟩ := Option.ite_none_right_eq_some.mp taken
      cases done
      obtain ⟨f, inDir, opened, picked, switched⟩ := laid.dated.restart_eq listed time
      rw [switched, laid.tracked_switchFile_iff tracked inDir, InRange, picked]
      constructor
      · intro least g there same
        rw [laid.dated.eq_of_time there inDir same]
        exact least
      · intro all
        exact all f inDir rfl

end Steps

/-! ### Whole runs -/

section Runs

theorem only_initial {time : ℕ} {f : LogFile} (inDir : f ∈ (initial time).dir) :
    f = { time := time, ckpt := 0 } :=
  List.mem_singleton.mp inDir

theorem laid_initial (time : ℕ) : Laid (initial time) := by
  refine ⟨(kept_initial time).dated, fun _ _ _ _ => ⟨rfl, rfl⟩, (kept_initial time).small⟩

theorem tracked_initial (time : ℕ) : Tracked (initial time) := by
  refine ⟨fun f inDir _ filled => ?_, fun f inDir named => ?_⟩
  · rw [only_initial inDir] at filled
    exact absurd rfl filled
  · rw [only_initial inDir] at named
    exact absurd rfl named

/-- The range is exact in every state of a run exactly when every number fits and every restart
takes up a file that starts with its smallest number. -/
theorem ranges_exact_iff_in_range (time : ℕ) (events : List Event) (s : Recovery)
    (ran : Run.exec advance (initial time) events = some s) :
    (∀ made, made <+: events → ∀ mid, Run.exec advance (initial time) made = some mid →
      Tracked mid) ↔ Run.Along advance InRange (initial time) events :=
  Run.holds_iff_along (fun _ _ _ laid _ fits taken => laid.step fits taken)
    (fun _ _ _ laid tracked taken => laid.tracked_step_iff tracked taken)
    (laid_initial time) (tracked_initial time) ran

/-- Two requests in the order of their numbers, a restart, one more, and a new file. -/
def orderedLogging : List Event :=
  [.write (sampleRequest 3), .write (sampleRequest 5),
    .restart [{ time := 10, ckpt := 0, requests := [sampleRequest 3, sampleRequest 5] }] 11,
    .write (sampleRequest 4), .finish 3 12 13]

theorem ordered_logging_exact :
    ∃ s, Run.exec advance (initial 10) orderedLogging = some s ∧
      Run.Along advance InRange (initial 10) orderedLogging ∧
      ∀ made, made <+: orderedLogging → ∀ mid, Run.exec advance (initial 10) made = some mid →
        Tracked mid := by
  have along : Run.Along advance InRange (initial 10) orderedLogging := by decide
  exact ⟨_, rfl, along, (ranges_exact_iff_in_range 10 orderedLogging _ rfl).mpr along⟩

/-- A request that is logged after one with a larger number is below the minimum that a restart
finds: the file with the numbers 5 and 3 is put away as if it started at 5. -/
theorem restart_forgets_minimum :
    ∃ s, Run.exec advance (initial 10)
        [.write (sampleRequest 5), .write (sampleRequest 3),
          .restart [{ time := 10, ckpt := 0, requests := [sampleRequest 5, sampleRequest 3] }] 11,
          .finish 3 12 13] = some s ∧
      ⟨12, 5, 5, 3, [sampleRequest 5, sampleRequest 3]⟩ ∈ s.dir ∧
      ¬ Tracked s := by
  refine ⟨_, rfl, by decide, ?_⟩
  intro tracked
  have spans := tracked.putAway ⟨12, 5, 5, 3, [sampleRequest 5, sampleRequest 3]⟩ (by decide)
    (by decide)
  have below := (spans.2.2 (sampleRequest 3) (by decide)).1
  exact absurd below (by decide)

end Runs

end Recovery
end ResDB
