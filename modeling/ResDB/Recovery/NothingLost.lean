import Mathlib.Data.List.MinMax
import Mathlib.Tactic
import ResDB.Recovery.Log

/-! What is read back from the log. A file that was put away is read only if its range has the
last checkpoint in it, and of the files that are named as in use only the latest one is. In
runs in which neither leaves out a request that is still needed, nothing is lost. -/
namespace ResDB
open Pbft (RequestInfo toInt64 toInt32)

namespace Recovery
variable {s s' : Recovery}

/-- The step loses nothing: a request that is still needed goes to the latest file that is
named as in use; a file that is put away with requests above the checkpoint starts at or below
it; and no other file that is named as in use has such requests. -/
def Safe (s : Recovery) : Event → Prop
  | .write info => info.request.seq < 2 ^ 63 ∧ (info.request.seq ≤ s.passed ∨
      ∀ f ∈ s.dir, f.minSeq = -1 → f.time ≤ s.current)
  | .finish ckpt _ _ => ∀ f ∈ s.dir, f.minSeq = -1 → ∀ info ∈ f.requests,
      ckpt < info.request.seq → f.time = s.current ∧ s.minSeq ≤ ckpt
  | .restart _ _ => True

instance (s : Recovery) : (e : Event) → Decidable (Safe s e)
  | .write _ => inferInstanceAs (Decidable (_ ∧ (_ ∨ ∀ _ ∈ _, _ → _)))
  | .finish _ _ _ => inferInstanceAs (Decidable (∀ _ ∈ _, _ → ∀ _ ∈ _, _ → _ ∧ _))
  | .restart _ _ => .isTrue trivial

/-- What the names of the files say about the requests in them that are still needed. -/
structure Kept (s : Recovery) : Prop where
  distinct : (s.dir.map (fun f => f.time)).Nodup
  clock : ∀ f ∈ s.dir, f.time ≤ s.clock
  inUse : ∃ f ∈ s.dir, f.time = s.current ∧ f.minSeq = -1
  ckpt_le : ∀ f ∈ s.dir, f.ckpt ≤ s.passed
  ckpt : ∃ f ∈ s.dir, f.ckpt = s.passed
  small : ∀ f ∈ s.dir, ∀ info ∈ f.requests, info.request.seq < 2 ^ 63
  noted : ∀ f ∈ s.dir, f.time = s.current → ∀ info ∈ f.requests, 0 < info.request.seq →
    s.minSeq ≠ -1 ∧ (info.request.seq : Int) ≤ s.maxSeq
  closed : ∀ f ∈ s.dir, f.minSeq ≠ -1 → ∀ info ∈ f.requests, s.passed < info.request.seq →
    f.minSeq ≤ s.passed ∧ (info.request.seq : Int) ≤ f.maxSeq
  opened : ∀ f ∈ s.dir, f.minSeq = -1 → ∀ info ∈ f.requests, s.passed < info.request.seq →
    ∀ g ∈ s.dir, g.minSeq = -1 → g.time ≤ f.time
  logged : ∀ info ∈ s.logged, ∃ f ∈ s.dir, info ∈ f.requests

/-- Files are told apart by their times, and the one in use is named as such. -/
structure Dated (s : Recovery) : Prop where
  distinct : (s.dir.map (fun f => f.time)).Nodup
  clock : ∀ f ∈ s.dir, f.time ≤ s.clock
  inUse : ∃ f ∈ s.dir, f.time = s.current ∧ f.minSeq = -1

theorem Kept.dated (kept : Kept s) : Dated s := ⟨kept.distinct, kept.clock, kept.inUse⟩

theorem Dated.eq_of_time (dated : Dated s) {f g : LogFile} (inF : f ∈ s.dir) (inG : g ∈ s.dir)
    (same : f.time = g.time) : f = g :=
  List.inj_on_of_nodup_map dated.distinct inF inG same

theorem Dated.named_inUse (dated : Dated s) {f : LogFile} (inDir : f ∈ s.dir)
    (inUse : f.time = s.current) : f.minSeq = -1 := by
  obtain ⟨g, there, current, named⟩ := dated.inUse
  rw [dated.eq_of_time inDir there (inUse.trans current.symm)]
  exact named

theorem toInt64_of_lt {n : ℕ} (small : n < 2 ^ 63) : toInt64 n = n := by
  unfold toInt64
  omega

section Reading

theorem mem_byTime {files : List LogFile} {f : LogFile} : f ∈ byTime files ↔ f ∈ files :=
  List.mem_insertionSort _

theorem getLast?_byTime {files : List LogFile} (filled : files ≠ []) :
    ∃ latest ∈ files, (byTime files).getLast? = some latest ∧
      ∀ f ∈ files, f.time ≤ latest.time := by
  obtain ⟨first, member⟩ := List.exists_mem_of_ne_nil _ filled
  have sorted : byTime files ≠ [] := List.ne_nil_of_mem (mem_byTime.mpr member)
  refine ⟨(byTime files).getLast sorted, mem_byTime.mp (List.getLast_mem sorted),
    List.getLast?_eq_some_getLast sorted, fun f inside => ?_⟩
  have ordered : (byTime files).Pairwise (fun f g => f.time ≤ g.time) := by
    refine @List.pairwise_insertionSort _ (fun f g : LogFile => f.time ≤ g.time) _ ⟨?_⟩ ⟨?_⟩ files
    · exact fun f g => le_total f.time g.time
    · exact fun f g h => le_trans
  exact ordered.rel_getLast_of_rel_getLast_getLast (mem_byTime.mpr inside) le_rfl

theorem Kept.lastCkpt_eq (kept : Kept s) : s.lastCkpt = s.passed := by
  obtain ⟨f, member, same⟩ := kept.ckpt
  refine le_antisymm ?_ ?_
  · exact List.max_le_of_forall_le _ _ (List.forall_mem_map.mpr kept.ckpt_le)
  · exact List.le_max_of_le (List.mem_map_of_mem member) same.ge

theorem Kept.getRecoveryFiles_eq (kept : Kept s) :
    ∃ files, s.getRecoveryFiles = some files ∧ ∀ f ∈ s.dir, ∀ info ∈ f.requests,
      s.passed < info.request.seq → f ∈ files := by
  obtain ⟨inUse, there, -, named⟩ := kept.inUse
  have filled : s.dir.filter (fun f => f.minSeq = -1) ≠ [] :=
    List.ne_nil_of_mem (List.mem_filter.mpr ⟨there, decide_eq_true named⟩)
  obtain ⟨latest, among, last, newest⟩ := getLast?_byTime filled
  refine ⟨_, by rw [getRecoveryFiles, last, Option.map_some], ?_⟩
  intro f inDir info inFile needed
  rw [mem_byTime, List.mem_append, List.mem_singleton]
  by_cases opened : f.minSeq = -1
  · right
    obtain ⟨inDir', opened'⟩ := List.mem_filter.mp among
    refine kept.dated.eq_of_time inDir inDir' (le_antisymm ?_ ?_)
    · exact newest f (List.mem_filter.mpr ⟨inDir, decide_eq_true opened⟩)
    · exact kept.opened f inDir opened info inFile needed latest inDir' (of_decide_eq_true opened')
  · left
    obtain ⟨low, high⟩ := kept.closed f inDir opened info inFile needed
    rw [List.mem_filter, decide_eq_true_eq, kept.lastCkpt_eq]
    exact ⟨inDir, opened, low, by omega⟩

theorem Kept.readLogs_eq (kept : Kept s) :
    ∃ out, s.readLogs = some out ∧ ∀ info ∈ s.logged, s.passed < info.request.seq →
      recovered info ∈ out := by
  obtain ⟨files, read, covers⟩ := kept.getRecoveryFiles_eq
  refine ⟨_, by rw [readLogs, read, Option.map_some], fun info logged needed => ?_⟩
  obtain ⟨f, inDir, inFile⟩ := kept.logged info logged
  refine List.mem_flatMap.mpr ⟨f, covers f inDir info inFile needed, ?_⟩
  refine List.mem_map_of_mem (List.mem_filter.mpr ⟨inFile, ?_⟩)
  rw [decide_eq_true_eq, kept.lastCkpt_eq]
  exact needed

end Reading

section Writing

@[simp] theorem append_time (s : Recovery) (info : RequestInfo) (f : LogFile) :
    (s.append info f).time = f.time := by
  unfold append
  split <;> rfl

@[simp] theorem append_minSeq (s : Recovery) (info : RequestInfo) (f : LogFile) :
    (s.append info f).minSeq = f.minSeq := by
  unfold append
  split <;> rfl

@[simp] theorem append_maxSeq (s : Recovery) (info : RequestInfo) (f : LogFile) :
    (s.append info f).maxSeq = f.maxSeq := by
  unfold append
  split <;> rfl

@[simp] theorem append_ckpt (s : Recovery) (info : RequestInfo) (f : LogFile) :
    (s.append info f).ckpt = f.ckpt := by
  unfold append
  split <;> rfl

theorem mem_append {info new : RequestInfo} {f : LogFile} :
    info ∈ (s.append new f).requests ↔
      info ∈ f.requests ∨ f.time = s.current ∧ info = new := by
  unfold append
  by_cases inUse : f.time = s.current
  · simp [inUse]
  · simp [inUse]

theorem Dated.writeLog (dated : Dated s) (new : RequestInfo) : Dated (s.writeLog new) := by
  refine ⟨?_, ?_, ?_⟩
  · simpa [Recovery.writeLog, Function.comp_def] using dated.distinct
  · simpa [Recovery.writeLog] using dated.clock
  · simpa [Recovery.writeLog] using dated.inUse

theorem Kept.writeLog (kept : Kept s) {new : RequestInfo} (safe : Safe s (.write new)) :
    Kept (s.writeLog new) := by
  obtain ⟨bounded, latest⟩ := safe
  have exact' := toInt64_of_lt bounded
  obtain ⟨distinct, clock, named⟩ := kept.dated.writeLog new
  refine ⟨distinct, clock, named, ?_, ?_, ?_, ?_, ?_, ?_, ?_⟩
  · simpa [Recovery.writeLog] using kept.ckpt_le
  · simpa [Recovery.writeLog] using kept.ckpt
  · refine List.forall_mem_map.mpr (fun f inDir info inFile => ?_)
    rcases mem_append.mp inFile with before | ⟨-, rfl⟩
    · exact kept.small f inDir info before
    · exact bounded
  · refine List.forall_mem_map.mpr (fun f inDir inUse info inFile positive => ?_)
    simp only [Recovery.writeLog, exact']
    rw [append_time] at inUse
    rcases mem_append.mp inFile with before | ⟨-, rfl⟩
    · obtain ⟨low, high⟩ := kept.noted f inDir inUse info before positive
      rw [if_neg low]
      omega
    · split <;> omega
  · refine List.forall_mem_map.mpr (fun f inDir closed info inFile needed => ?_)
    rw [append_minSeq] at closed
    rw [append_minSeq, append_maxSeq]
    rcases mem_append.mp inFile with before | ⟨inUse, -⟩
    · exact kept.closed f inDir closed info before needed
    · exact absurd (kept.dated.named_inUse inDir inUse) closed
  · refine List.forall_mem_map.mpr (fun f inDir opened info inFile needed => ?_)
    refine List.forall_mem_map.mpr (fun g there opened' => ?_)
    rw [append_minSeq] at opened opened'
    rw [append_time, append_time]
    rcases mem_append.mp inFile with before | ⟨inUse, rfl⟩
    · exact kept.opened f inDir opened info before needed g there opened'
    · rw [inUse]
      exact latest.resolve_left (not_le_of_gt needed) g there opened'
  · intro info logged
    rcases List.mem_append.mp logged with before | new'
    · obtain ⟨f, inDir, inFile⟩ := kept.logged info before
      exact ⟨_, List.mem_map_of_mem inDir, mem_append.mpr (.inl inFile)⟩
    · obtain ⟨f, inDir, inUse, -⟩ := kept.inUse
      exact ⟨_, List.mem_map_of_mem inDir,
        mem_append.mpr (.inr ⟨inUse, List.mem_singleton.mp new'⟩)⟩

end Writing

section Finishing
variable {ckpt time time' : ℕ}

theorem rename_cases (s : Recovery) (ckpt time : ℕ) (f : LogFile) :
    f.time ≠ s.current ∧ s.rename ckpt time f = f ∨
      f.time = s.current ∧ s.rename ckpt time f =
        ⟨time, s.minSeq, s.maxSeq, ckpt, f.requests⟩ := by
  unfold rename
  split
  · exact .inr ⟨‹_›, rfl⟩
  · exact .inl ⟨‹_›, rfl⟩

theorem mem_finishFile {g : LogFile} (inDir : g ∈ (s.finishFile ckpt time time').dir) :
    (∃ f ∈ s.dir, f.time ≠ s.current ∧ g = f) ∨
      (∃ f ∈ s.dir, f.time = s.current ∧ g = ⟨time, s.minSeq, s.maxSeq, ckpt, f.requests⟩) ∨
      g = { time := time', ckpt := ckpt } := by
  rcases List.mem_append.mp inDir with renamed | new
  · obtain ⟨f, there, rfl⟩ := List.mem_map.mp renamed
    rcases rename_cases s ckpt time f with ⟨other, same⟩ | ⟨inUse, same⟩
    · exact .inl ⟨f, there, other, same⟩
    · exact .inr (.inl ⟨f, there, inUse, same⟩)
  · exact .inr (.inr (List.mem_singleton.mp new))

theorem new_mem_finishFile :
    ({ time := time', ckpt := ckpt } : LogFile) ∈ (s.finishFile ckpt time time').dir :=
  List.mem_append_right _ (List.mem_singleton_self _)

theorem Dated.times_finishFile (dated : Dated s) (later : s.clock < time) (next : time < time') :
    ((s.finishFile ckpt time time').dir.map (fun f => f.time)).Nodup := by
  have apart : ∀ f ∈ s.dir, (s.rename ckpt time f).time < time' := by
    intro f inDir
    have before := dated.clock f inDir
    rcases rename_cases s ckpt time f with ⟨-, same⟩ | ⟨-, same⟩
    · rw [same]
      omega
    · rw [same]
      exact next
  rw [finishFile, List.map_append, List.nodup_append']
  refine ⟨?_, List.nodup_singleton _, ?_⟩
  · rw [List.map_map]
    refine List.Nodup.map_on (fun f inF g inG same => ?_) (List.Nodup.of_map _ dated.distinct)
    refine dated.eq_of_time inF inG ?_
    have beforeF := dated.clock f inF
    have beforeG := dated.clock g inG
    simp only [Function.comp_apply] at same
    rcases rename_cases s ckpt time f with ⟨-, sameF⟩ | ⟨inUseF, sameF⟩ <;>
      rcases rename_cases s ckpt time g with ⟨-, sameG⟩ | ⟨inUseG, sameG⟩ <;>
      rw [sameF, sameG] at same
    · exact same
    · exact absurd same (ne_of_lt (by show f.time < time; omega))
    · exact absurd same (ne_of_gt (by show g.time < time; omega))
    · rw [inUseF, inUseG]
  · rw [List.map_map, List.map_singleton, List.disjoint_singleton]
    intro inMap
    obtain ⟨f, inDir, same⟩ := List.mem_map.mp inMap
    exact absurd same (ne_of_lt (apart f inDir))

theorem Dated.finishFile (dated : Dated s) (ckpt : ℕ) (later : s.clock < time)
    (next : time < time') : Dated (s.finishFile ckpt time time') := by
  refine ⟨dated.times_finishFile later next, ?_, ⟨_, new_mem_finishFile, rfl, rfl⟩⟩
  intro g inDir
  show g.time ≤ time'
  rcases mem_finishFile inDir with ⟨f, there, -, rfl⟩ | ⟨f, there, -, rfl⟩ | rfl
  · have before := dated.clock g there
    omega
  · exact next.le
  · exact le_rfl

theorem Dated.new_inUse (dated : Dated s) (later : s.clock < time) (next : time < time')
    {g : LogFile} (inDir : g ∈ (s.finishFile ckpt time time').dir) (current : g.time = time') :
    g = { time := time', ckpt := ckpt } := by
  exact (dated.finishFile ckpt later next).eq_of_time inDir new_mem_finishFile current

theorem Kept.finishFile (kept : Kept s) (safe : Safe s (.finish ckpt time time'))
    (grows : s.passed ≤ ckpt) (later : s.clock < time) (next : time < time') :
    Kept (s.finishFile ckpt time time') := by
  obtain ⟨distinct, clock, inUse⟩ := kept.dated.finishFile ckpt later next
  refine ⟨distinct, clock, inUse, ?_, ?_, ?_, ?_, ?_, ?_, ?_⟩
  · intro g inDir
    rcases mem_finishFile inDir with ⟨f, there, -, rfl⟩ | ⟨f, there, -, rfl⟩ | rfl
    · exact (kept.ckpt_le g there).trans grows
    · exact le_rfl
    · exact le_rfl
  · exact ⟨_, new_mem_finishFile, rfl⟩
  · intro g inDir info inFile
    rcases mem_finishFile inDir with ⟨f, there, -, rfl⟩ | ⟨f, there, -, rfl⟩ | rfl
    · exact kept.small g there info inFile
    · exact kept.small f there info inFile
    · exact absurd inFile List.not_mem_nil
  · intro g inDir current info inFile
    rw [kept.dated.new_inUse later next inDir current] at inFile
    exact absurd inFile List.not_mem_nil
  · intro g inDir closed info inFile needed
    have above : ckpt < info.request.seq := needed
    rcases mem_finishFile inDir with ⟨f, there, -, rfl⟩ | ⟨f, there, inUse, rfl⟩ | rfl
    · obtain ⟨low, high⟩ := kept.closed g there closed info inFile (grows.trans_lt above)
      exact ⟨low.trans (Int.ofNat_le.mpr grows), high⟩
    · have named := kept.dated.named_inUse there inUse
      refine ⟨(safe f there named info inFile above).2, ?_⟩
      exact (kept.noted f there inUse info inFile (by omega)).2
    · exact absurd inFile List.not_mem_nil
  · -- no file that still is named as in use holds a request above the checkpoint
    intro g inDir opened info inFile needed
    have above : ckpt < info.request.seq := needed
    rcases mem_finishFile inDir with ⟨f, there, other, rfl⟩ | ⟨f, there, inUse, rfl⟩ | rfl
    · exact absurd (safe g there opened info inFile above).1 other
    · exact absurd opened (kept.noted f there inUse info inFile (by omega)).1
    · exact absurd inFile List.not_mem_nil
  · intro info logged
    obtain ⟨f, inDir, inFile⟩ := kept.logged info logged
    refine ⟨s.rename ckpt time f, List.mem_append_left _ (List.mem_map_of_mem inDir), ?_⟩
    rcases rename_cases s ckpt time f with ⟨-, same⟩ | ⟨-, same⟩
    · rw [same]
      exact inFile
    · rw [same]
      exact inFile

end Finishing

section Restarting

theorem foldl_pickFile (listing : List LogFile) (picked : Int × Int × ℕ) :
    (listing.foldl pickFile picked = picked ∧
        (picked.1 = -1 → ∀ f ∈ listing, f.minSeq ≠ -1)) ∨
      ∃ f ∈ listing, f.minSeq = -1 ∧ (listing.foldl pickFile picked).1 ≠ -1 ∧
        (listing.foldl pickFile picked).2.2 = f.time := by
  induction listing generalizing picked with
  | nil => exact .inl ⟨rfl, fun _ f member => absurd member List.not_mem_nil⟩
  | cons f rest ih =>
      rw [List.foldl_cons]
      rcases ih (pickFile picked f) with ⟨same, none'⟩ | ⟨g, inside, opened, found⟩
      · rw [same]
        unfold pickFile at none' ⊢
        split at none'
        · rename_i taken
          rw [if_pos taken]
          have made : (f.ckpt : Int) ≠ -1 := by omega
          exact .inr ⟨f, List.mem_cons_self, taken.1, made, rfl⟩
        · rename_i left
          rw [if_neg left]
          refine .inl ⟨rfl, fun start => List.forall_mem_cons.mpr ⟨fun opened => ?_, none' start⟩⟩
          exact left ⟨opened, .inl start⟩
      · exact .inr ⟨g, List.mem_cons_of_mem _ inside, opened, found⟩

theorem foldl_range (requests : List RequestInfo) (range : Int × Int) :
    let out := requests.foldl (fun range info =>
      (if range.1 = -1 then toInt64 info.request.seq else range.1,
        max range.2 (toInt64 info.request.seq))) range
    (range.1 ≠ -1 → out.1 ≠ -1) ∧ range.2 ≤ out.2 ∧
      ∀ info ∈ requests, info.request.seq < 2 ^ 63 →
        out.1 ≠ -1 ∧ (info.request.seq : Int) ≤ out.2 := by
  induction requests generalizing range with
  | nil => exact ⟨id, le_rfl, fun info member => absurd member List.not_mem_nil⟩
  | cons first rest ih =>
      obtain ⟨kept, above, rest'⟩ := ih (if range.1 = -1 then toInt64 first.request.seq
        else range.1, max range.2 (toInt64 first.request.seq))
      refine ⟨fun started => kept ?_, (le_max_left _ _).trans above, ?_⟩
      · rw [if_neg started]
        exact started
      · refine List.forall_mem_cons.mpr ⟨fun bounded => ⟨kept ?_, ?_⟩, rest'⟩
        · have exact' := toInt64_of_lt bounded
          dsimp only
          split <;> omega
        · have exact' := toInt64_of_lt bounded
          exact exact'.ge.trans ((le_max_right _ _).trans above)

theorem Kept.switchFile (kept : Kept s) {f : LogFile} (inDir : f ∈ s.dir)
    (opened : f.minSeq = -1) : Kept (s.switchFile f.time) := by
  refine { kept with inUse := ⟨f, inDir, rfl, opened⟩, noted := ?_ }
  intro g there current info inFile positive
  refine (foldl_range _ (-1, -1)).2.2 info (List.mem_filter.mpr ⟨?_, decide_eq_true positive⟩)
    (kept.small g there info inFile)
  exact List.mem_flatMap.mpr ⟨g, List.mem_filter.mpr ⟨there, decide_eq_true current⟩, inFile⟩

theorem Dated.restart_eq (dated : Dated s) {listing : List LogFile} (listed : listing.Perm s.dir)
    (time : ℕ) : ∃ f ∈ s.dir, f.minSeq = -1 ∧
      (listing.foldl pickFile (-1, 0, 0)).2.2 = f.time ∧
      s.restart listing time = s.switchFile f.time := by
  rcases foldl_pickFile listing (-1, 0, 0) with ⟨-, none'⟩ | ⟨f, inside, opened, made, same⟩
  · obtain ⟨f, inDir, -, named⟩ := dated.inUse
    exact absurd named (none' rfl f (listed.mem_iff.mpr inDir))
  · refine ⟨f, listed.mem_iff.mp inside, opened, same, ?_⟩
    unfold Recovery.restart
    rw [if_neg made, same]

theorem Kept.restart (kept : Kept s) {listing : List LogFile} (listed : listing.Perm s.dir)
    (time : ℕ) : Kept (s.restart listing time) := by
  obtain ⟨f, inDir, opened, -, switched⟩ := kept.dated.restart_eq listed time
  rw [switched]
  exact kept.switchFile inDir opened

end Restarting

section Runs

theorem kept_initial (time : ℕ) : Kept (initial time) := by
  have only : ∀ f ∈ (initial time).dir, f = { time := time, ckpt := 0 } :=
    fun f inDir => List.mem_singleton.mp inDir
  have empty : ∀ f ∈ (initial time).dir, ∀ info, info ∉ f.requests := by
    intro f inDir info
    rw [only f inDir]
    exact List.not_mem_nil
  have first : ({ time := time, ckpt := 0 } : LogFile) ∈ (initial time).dir :=
    List.mem_singleton_self _
  refine ⟨List.nodup_singleton _, ?_, ⟨_, first, rfl, rfl⟩, ?_, ⟨_, first, rfl⟩, ?_, ?_, ?_, ?_, ?_⟩
  · intro f inDir
    rw [only f inDir]
    exact le_rfl
  · intro f inDir
    rw [only f inDir]
    exact le_rfl
  · exact fun f inDir info inFile => absurd inFile (empty f inDir info)
  · exact fun f inDir _ info inFile => absurd inFile (empty f inDir info)
  · exact fun f inDir _ info inFile => absurd inFile (empty f inDir info)
  · exact fun f inDir _ info inFile => absurd inFile (empty f inDir info)
  · exact fun info logged => absurd logged List.not_mem_nil

theorem Kept.step (kept : Kept s) {e : Event} (safe : Safe s e) (taken : s.step e = some s') :
    Kept s' := by
  cases e with
  | write info =>
      cases taken
      exact kept.writeLog safe
  | finish ckpt time time' =>
      obtain ⟨⟨grows, later, next⟩, done⟩ := Option.ite_none_right_eq_some.mp taken
      cases done
      exact kept.finishFile safe grows later next
  | restart listing time =>
      obtain ⟨⟨listed, -⟩, done⟩ := Option.ite_none_right_eq_some.mp taken
      cases done
      exact kept.restart listed time

/-- In a run of safe steps, what is read back has every logged request above the largest
checkpoint. -/
theorem logged_requests_read_back (time : ℕ) (events : List Event) (s : Recovery)
    (along : Run.Along step Safe (initial time) events)
    (ran : Run.exec step (initial time) events = some s) :
    ∃ out, s.readLogs = some out ∧ ∀ info ∈ s.logged, s.passed < info.request.seq →
      recovered info ∈ out :=
  (Run.exec_invariant (fun _ _ _ kept safe taken => Kept.step kept safe taken)
    (kept_initial time) along ran).readLogs_eq

def sampleRequest (seq : ℕ) : RequestInfo where
  request := { type := .commit, seq := seq }
  signature := { nodeId := 1, signature := [1] }

/-- A checkpoint in the middle of the requests so far, one more request, and a restart. -/
def sampleLogging : List Event :=
  [.write (sampleRequest 1), .write (sampleRequest 2), .write (sampleRequest 3),
    .finish 2 11 12, .write (sampleRequest 4),
    .restart [{ time := 12, ckpt := 2, requests := [sampleRequest 4] },
      ⟨11, 1, 3, 2, [sampleRequest 1, sampleRequest 2, sampleRequest 3]⟩] 13]

theorem sample_requests_read_back :
    ∃ s, Run.exec step (initial 10) sampleLogging = some s ∧ s.passed = 2 ∧
      s.logged = [sampleRequest 1, sampleRequest 2, sampleRequest 3, sampleRequest 4] ∧
      ∃ out, s.readLogs = some out ∧ ∀ info ∈ s.logged, s.passed < info.request.seq →
        recovered info ∈ out := by
  have ran : (Run.exec step (initial 10) sampleLogging).any (fun s =>
      decide (s.passed = 2 ∧
        s.logged =
          [sampleRequest 1, sampleRequest 2, sampleRequest 3, sampleRequest 4])) = true := by
    decide
  obtain ⟨s, done, facts⟩ := (Option.any_eq_true _ _).mp ran
  obtain ⟨passed, logged⟩ := of_decide_eq_true facts
  exact ⟨s, done, passed, logged,
    logged_requests_read_back 10 sampleLogging s (by decide) done⟩

/-- A file that was put away with requests above its checkpoint only is not read: after the
checkpoints 1 and 2 the request with number 4 is lost. -/
theorem request_above_checkpoint_lost :
    ∃ s, Run.exec step (initial 10)
        [.write (sampleRequest 1), .write (sampleRequest 2), .write (sampleRequest 3),
          .finish 1 11 12, .write (sampleRequest 4), .finish 2 13 14] = some s ∧
      sampleRequest 4 ∈ s.logged ∧ s.passed < (sampleRequest 4).request.seq ∧
      s.readLogs = some [recovered (sampleRequest 3)] ∧
      recovered (sampleRequest 4) ∉ [recovered (sampleRequest 3)] := by
  refine ⟨_, rfl, ?_, ?_, ?_, ?_⟩ <;> decide

end Runs
end Recovery
end ResDB
