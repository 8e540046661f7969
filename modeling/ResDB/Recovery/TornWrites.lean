import Mathlib.Tactic
import ResDB.Library.Run
import ResDB.Recovery.Bytes

/-! Crashes while the log is written. A crash leaves some of the bytes of the block that was
being written, and the next process appends behind them: `OpenFile` goes to the end of the file
and removes nothing. What is written there belongs to the incomplete block for a reader. -/
namespace ResDB.Wal
open Framing
open Recovery (recovered)

/-- A log file with the process that writes it, if there is one. The history has the calls of
`WriteLog` that returned. -/
structure Logging where
  writer : Writer := {}
  running : Bool := false
  completed : List Entry := []
  deriving DecidableEq

/-- A crash leaves some of the bytes of the block in the file, in the call that writes the system
information or in one of `WriteLog`. -/
inductive LogEvent where
  | start (info : SystemInfoData)
  | write (e : Entry)
  | stop
  | crashInStart (info : SystemInfoData) (kept : ℕ)
  | crashInWrite (e : Entry) (kept : ℕ)

/-- The file after a crash in a call that appends to it. The buffer is lost. -/
def Writer.crash (before behind : Writer) (kept : ℕ) : Writer where
  file := behind.file.take (before.file.length + kept)

/-- A start is `SwitchFile`, which reads the file and then opens it. -/
def Logging.step (format : LogFormat) (s : Logging) : LogEvent → Option Logging
  | .start info =>
      if s.running then none
      else (readLogsFromFiles format s.writer.file 0 0).map (fun _ =>
        { s with writer := s.writer.openFile format info, running := true })
  | .write e =>
      if s.running then
        some { s with
          writer := s.writer.writeLog format e.context e.request
          completed := s.completed ++ [e] }
      else none
  | .stop => if s.running then some { s with running := false } else none
  | .crashInStart info kept =>
      if s.running then none
      else (readLogsFromFiles format s.writer.file 0 0).map (fun _ =>
        { s with writer := s.writer.crash (s.writer.openFile format info) kept })
  | .crashInWrite e kept =>
      if s.running then
        some { s with
          writer := s.writer.crash (s.writer.writeLog format e.context e.request) kept
          running := false }
      else none

def Whole (file : Bytes) : Prop := (scan file.length file).2 = []

instance (file : Bytes) : Decidable (Whole file) :=
  inferInstanceAs (Decidable ((scan file.length file).2 = []))

/-- `WriteLog` is called on a file that does not end inside a block. With the block that is
written, the file has a length that an `int` can have. -/
def LogEvent.OnWhole (format : LogFormat) (s : Logging) : LogEvent → Prop
  | .start info | .crashInStart info _ =>
      s.writer.file.length + (frame (systemBody format info)).length < 2 ^ 31
  | .write e | .crashInWrite e _ =>
      Whole s.writer.file ∧ s.writer.file.length + (frame (e.body format)).length < 2 ^ 31
  | .stop => True

instance (format : LogFormat) (s : Logging) :
    ∀ event : LogEvent, Decidable (event.OnWhole format s)
  | .start _ => inferInstanceAs (Decidable (_ < _))
  | .write _ => inferInstanceAs (Decidable (_ ∧ _))
  | .stop => .isTrue trivial
  | .crashInStart _ _ => inferInstanceAs (Decidable (_ < _))
  | .crashInWrite _ _ => inferInstanceAs (Decidable (_ ∧ _))

def LogEvent.Typed (format : LogFormat) : LogEvent → Prop
  | .start info | .crashInStart info _ => format.TypedInfo info
  | .write e | .crashInWrite e _ => e.Typed format
  | .stop => True

section Steps
variable {format : LogFormat} {s s' : Logging}

/-- What a step does to the file: the block of a call is appended, or the first bytes of it. -/
inductive Effect (format : LogFormat) (s s' : Logging) : Prop where
  | opened (info : SystemInfoData) (n : ℕ) (known : format.TypedInfo info)
      (empty : s.writer.file.length % 2 ^ 32 = 0)
      (small : s.writer.file.length + (frame (systemBody format info)).length < 2 ^ 31)
      (writer : s'.writer =
        { file := s.writer.file ++ (frame (systemBody format info)).take n, buffer := [] })
      (whole : s'.running → (frame (systemBody format info)).length ≤ n)
      (completed : s'.completed = s.completed)
  | unchanged (writer : s'.writer = s.writer) (filled : s'.running → s.writer.file ≠ [])
      (completed : s'.completed = s.completed)
  | appended (e : Entry) (n : ℕ) (typed : e.Typed format) (running : s.running)
      (whole : Whole s.writer.file)
      (small : s.writer.file.length + (frame (e.body format)).length < 2 ^ 31)
      (writer : s'.writer =
        { file := s.writer.file ++ (frame (e.body format)).take n, buffer := [] })
      (completed : s'.completed = s.completed ∨
        s'.completed = s.completed ++ [e] ∧ (frame (e.body format)).length ≤ n)

theorem Writer.crash_eq {before behind : Writer} {block : Bytes}
    (appends : behind.file = before.file ++ block) (kept : ℕ) :
    before.crash behind kept = { file := before.file ++ block.take kept, buffer := [] } := by
  rw [crash, appends, List.take_length_add_append]

theorem Writer.crash_self (w : Writer) (kept : ℕ) (idle : w.buffer = []) :
    w.crash w kept = w := by
  obtain ⟨file, buffer⟩ := w
  obtain rfl : buffer = [] := idle
  rw [crash, List.take_of_length_le (Nat.le_add_right _ kept)]

theorem ne_nil_of_length_mod {file : Bytes} (filled : ¬file.length % 2 ^ 32 = 0) : file ≠ [] := by
  rintro rfl
  exact filled rfl

theorem effect_of_step {event : LogEvent} (typed : event.Typed format)
    (idle : s.writer.buffer = []) (onWhole : event.OnWhole format s)
    (taken : s.step format event = some s') :
    Effect format s s' := by
  cases event with
  | start info =>
      obtain ⟨-, read⟩ := Option.ite_none_left_eq_some.mp taken
      obtain ⟨-, -, rfl⟩ := Option.map_eq_some_iff.mp read
      by_cases empty : s.writer.file.length % 2 ^ 32 = 0
      · refine .opened info (frame (systemBody format info)).length typed empty onWhole ?_
          (fun _ => le_rfl) rfl
        rw [List.take_length]
        exact (if_pos empty).trans (s.writer.writeSystemInfo_eq idle info)
      · exact .unchanged (if_neg empty) (fun _ => ne_nil_of_length_mod empty) rfl
  | write e =>
      obtain ⟨running, done⟩ := Option.ite_none_right_eq_some.mp taken
      cases done
      refine .appended e (frame (e.body format)).length typed running onWhole.1 onWhole.2 ?_
        (.inr ⟨rfl, le_rfl⟩)
      rw [List.take_length]
      exact s.writer.writeLog_eq idle e
  | stop =>
      obtain ⟨-, done⟩ := Option.ite_none_right_eq_some.mp taken
      cases done
      exact .unchanged rfl (fun running => by cases running) rfl
  | crashInStart info kept =>
      obtain ⟨stopped, read⟩ := Option.ite_none_left_eq_some.mp taken
      obtain ⟨-, -, rfl⟩ := Option.map_eq_some_iff.mp read
      by_cases empty : s.writer.file.length % 2 ^ 32 = 0
      · refine .opened info kept typed empty onWhole ?_ (fun running => absurd running stopped) rfl
        apply Writer.crash_eq
        rw [Writer.openFile, if_pos empty, s.writer.writeSystemInfo_eq idle]
      · refine .unchanged ?_ (fun running => absurd running stopped) rfl
        change s.writer.crash (s.writer.openFile format info) kept = s.writer
        rw [Writer.openFile, if_neg empty, s.writer.crash_self kept idle]
  | crashInWrite e kept =>
      obtain ⟨running, done⟩ := Option.ite_none_right_eq_some.mp taken
      cases done
      refine .appended e kept typed running onWhole.1 onWhole.2 ?_ (.inl rfl)
      apply Writer.crash_eq
      rw [s.writer.writeLog_eq idle]

theorem Effect.idle (effect : Effect format s s') (idle : s.writer.buffer = []) :
    s'.writer.buffer = [] := by
  cases effect with
  | opened info n known empty small writer => rw [writer]
  | unchanged writer => rw [writer, idle]
  | appended e n typed running whole small writer => rw [writer]

theorem Effect.length_lt (effect : Effect format s s') (small : s.writer.file.length < 2 ^ 31) :
    s'.writer.file.length < 2 ^ 31 := by
  cases effect with
  | opened info n known empty smaller writer =>
      have part := List.length_take_le' n (frame (systemBody format info))
      rw [writer, List.length_append]
      omega
  | unchanged writer => rw [writer]; exact small
  | appended e n typed running whole smaller writer =>
      have part := List.length_take_le' n (frame (e.body format))
      rw [writer, List.length_append]
      omega

end Steps

section Runs
variable {format : LogFormat} {s s' : Logging}

/-- The file does not have the system information and nothing is read from it, or it has whole
blocks and a rest without one. Then the calls that returned have their records among the
blocks. -/
inductive Kept (format : LogFormat) (s : Logging) : Prop where
  | beginning (incomplete : readFrame s.writer.file = none)
      (read : ∀ ckpt fileIdx, readLogsFromFiles format s.writer.file ckpt fileIdx = some [])
      (filled : s.running → s.writer.file ≠ []) (completed : s.completed = [])
  | records (info : SystemInfoData) (entries : List Entry) (rest : Bytes)
      (known : format.TypedInfo info) (typed : ∀ e ∈ entries, e.Typed format)
      (incomplete : readFrame rest = none)
      (file : s.writer.file = frames (blocks format info entries) ++ rest)
      (completed : s.completed.Sublist entries)

theorem Kept.of_append {info : SystemInfoData} {entries : List Entry} {e : Entry} {n : ℕ}
    (known : format.TypedInfo info) (typed : ∀ e ∈ entries, e.Typed format)
    (own : e.Typed format) (small : (e.body format).length < 2 ^ 64)
    (file : s.writer.file =
      frames (blocks format info entries) ++ (frame (e.body format)).take n)
    (completed : s.completed.Sublist entries ∨
      s.completed.Sublist (entries ++ [e]) ∧ (frame (e.body format)).length ≤ n) :
    Kept format s := by
  by_cases whole : (frame (e.body format)).length ≤ n
  · have all : ∀ other ∈ entries ++ [e], other.Typed format :=
      List.forall_mem_append.mpr ⟨typed, List.forall_mem_singleton.mpr own⟩
    refine .records info (entries ++ [e]) [] known all rfl ?_ ?_
    · rw [file, List.take_of_length_le whole, List.append_nil, blocks, blocks, List.map_append,
        List.map_singleton, ← List.cons_append, frames_append, frames_singleton]
    · rcases completed with before | now
      · exact before.trans (List.sublist_append_left entries [e])
      · exact now.1
  · refine .records info entries _ known typed (readFrame_take small (not_le.mp whole)) file ?_
    rcases completed with before | now
    · exact before
    · exact absurd now.2 whole

theorem rest_eq_nil {info : SystemInfoData} {entries : List Entry} {rest : Bytes}
    (small : (frames (blocks format info entries) ++ rest).length < 2 ^ 31)
    (incomplete : readFrame rest = none)
    (whole : Whole (frames (blocks format info entries) ++ rest)) : rest = [] := by
  have fits : ∀ block ∈ blocks format info entries, block.length < 2 ^ 64 := by
    intro block listed
    rw [List.length_append] at small
    exact (length_block_lt (by omega) block listed).trans (by decide)
  rw [Whole, scan_frames_append fits incomplete le_rfl] at whole
  exact whole

theorem Kept.completed_of_empty (kept : Kept format s) (empty : s.writer.file = []) :
    s.completed = [] := by
  cases kept with
  | beginning incomplete read filled completed => exact completed
  | records info entries rest known typed incomplete file completed =>
      rw [empty, blocks, frames_cons] at file
      have lengths := congrArg List.length file
      rw [List.length_append, List.length_append, length_frame, List.length_nil] at lengths
      omega

theorem Kept.of_opened {info : SystemInfoData} {n : ℕ} (known : format.TypedInfo info)
    (small : (systemBody format info).length < 2 ^ 31)
    (file : s.writer.file = (frame (systemBody format info)).take n)
    (whole : s.running → (frame (systemBody format info)).length ≤ n)
    (completed : s.completed = []) : Kept format s := by
  by_cases all : (frame (systemBody format info)).length ≤ n
  · refine .records info [] [] known (List.forall_mem_nil _) rfl ?_ ?_
    · rw [file, List.take_of_length_le all, List.append_nil]
      exact (frames_singleton _).symm
    · rw [completed]
  · refine .beginning ?_ ?_ (fun running => absurd (whole running) all) completed
    · rw [file]
      exact readFrame_take (small.trans (by decide)) (not_le.mp all)
    · rw [file]
      exact readLogsFromFiles_of_cut small (not_le.mp all)

theorem Kept.exists_blocks (kept : Kept format s) (small : s.writer.file.length < 2 ^ 31)
    (running : s.running) (whole : Whole s.writer.file) :
    ∃ info entries, format.TypedInfo info ∧ (∀ e ∈ entries, e.Typed format) ∧
      s.writer.file = frames (blocks format info entries) ∧ s.completed.Sublist entries := by
  cases kept with
  | beginning incomplete read filled completed =>
      rw [Whole, scan_of_readFrame_none incomplete] at whole
      exact absurd whole (filled running)
  | records info entries rest known typed incomplete file completed =>
      rw [file] at whole small
      obtain rfl : rest = [] := rest_eq_nil small incomplete whole
      rw [List.append_nil] at file
      exact ⟨info, entries, known, typed, file, completed⟩

theorem Effect.kept (effect : Effect format s s') (small : s.writer.file.length < 2 ^ 31)
    (kept : Kept format s) : Kept format s' := by
  cases effect with
  | opened info n known empty smaller writer whole completed =>
      have nothing : s.writer.file = [] := List.length_eq_zero_iff.mp (by omega)
      rw [nothing, List.nil_append] at writer
      rw [length_frame] at smaller
      exact .of_opened known (by omega) (by rw [writer]) whole
        (completed.trans (kept.completed_of_empty nothing))
  | unchanged writer filled completed =>
      cases kept with
      | beginning incomplete read running before =>
          rw [← writer] at incomplete read filled
          exact .beginning incomplete read filled (completed.trans before)
      | records info entries rest known typed incomplete file before =>
          exact .records info entries rest known typed incomplete (by rw [writer, file])
            (completed ▸ before)
  | appended e n own running whole smaller writer completed =>
      obtain ⟨info, entries, known, typed, file, before⟩ := kept.exists_blocks small running whole
      have fits : (e.body format).length < 2 ^ 64 := by
        rw [length_frame] at smaller
        omega
      rw [file] at writer
      refine .of_append known typed own fits (by rw [writer]) ?_
      rcases completed with same | ⟨more, all⟩
      · exact .inl (same ▸ before)
      · exact .inr ⟨more ▸ before.append_right [e], all⟩

theorem Kept.read (kept : Kept format s) (small : s.writer.file.length < 2 ^ 31)
    (ckpt fileIdx : ℕ) :
    ∃ out, readLogsFromFiles format s.writer.file ckpt fileIdx = some out ∧
      ((s.completed.filter (fun e => ckpt < e.request.seq)).map (fun e =>
        Callback.callBack (recovered e.info))).Sublist out := by
  cases kept with
  | beginning incomplete read filled completed =>
      refine ⟨[], read ckpt fileIdx, ?_⟩
      rw [completed]
      exact List.Sublist.refl []
  | records info entries rest known typed incomplete file completed =>
      refine ⟨callbacks info entries ckpt fileIdx, ?_, ?_⟩
      · rw [file, List.length_append] at small
        rw [file]
        exact readLogsFromFiles_append known typed (by omega) incomplete ckpt fileIdx
      · exact ((completed.filter _).map _).trans (List.sublist_append_right _ _)

/-- If `WriteLog` is only called on files that do not end inside a block, what it has written
when it returns is read back after every crash and restart that follow. -/
theorem completed_requests_read_back (format : LogFormat) (events : List LogEvent) (s : Logging)
    (typed : ∀ event ∈ events, event.Typed format)
    (along : Run.Along (Logging.step format) (fun s event => event.OnWhole format s) {} events)
    (ran : Run.exec (Logging.step format) {} events = some s) (ckpt fileIdx : ℕ) :
    ∃ out, readLogsFromFiles format s.writer.file ckpt fileIdx = some out ∧
      ((s.completed.filter (fun e => ckpt < e.request.seq)).map (fun e =>
        Callback.callBack (recovered e.info))).Sublist out := by
  have step : ∀ t event t',
      t.writer.buffer = [] ∧ t.writer.file.length < 2 ^ 31 ∧ Kept format t →
      LogEvent.OnWhole format t event ∧ event.Typed format →
      Logging.step format t event = some t' →
      t'.writer.buffer = [] ∧ t'.writer.file.length < 2 ^ 31 ∧ Kept format t' := by
    rintro t event t' ⟨idle, small, kept⟩ ⟨onWhole, known⟩ taken
    have effect := effect_of_step known idle onWhole taken
    exact ⟨effect.idle idle, effect.length_lt small, effect.kept small kept⟩
  have first : Kept format {} :=
    .beginning rfl (fun _ _ => rfl) (fun running => by cases running) rfl
  have known : Run.Along (Logging.step format) (fun _ event => event.Typed format) {} events :=
    Run.along_of_mem (fun event listed _ => typed event listed) _
  obtain ⟨-, small, kept⟩ :=
    Run.exec_invariant step ⟨rfl, by decide, first⟩ (along.and known) ran
  exact kept.read small ckpt fileIdx

/-- One crash leaves nothing of its block and one leaves some bytes, after which nothing is
written. -/
def sampleCrashes : List LogEvent :=
  [.start sampleInfo, .write sampleFirst, .crashInWrite sampleSecond 0, .start sampleInfo,
    .write sampleSecond, .crashInWrite sampleFirst 20, .start sampleInfo]

theorem sampleCrashes_typed : ∀ event ∈ sampleCrashes, event.Typed sampleLog := by
  simp [sampleCrashes, LogEvent.Typed, sampleInfo_typed, sampleFirst_typed, sampleSecond_typed]

theorem sample_requests_survive :
    ∃ s, Run.exec (Logging.step sampleLog) {} sampleCrashes = some s ∧
      s.completed = [sampleFirst, sampleSecond] ∧
      ∃ out, readLogsFromFiles sampleLog s.writer.file 1 0 = some out ∧
        ((s.completed.filter (fun e => 1 < e.request.seq)).map (fun e =>
          Callback.callBack (recovered e.info))).Sublist out := by
  have ran : (Run.exec (Logging.step sampleLog) {} sampleCrashes).any (fun s =>
      decide (s.completed = [sampleFirst, sampleSecond])) = true := by decide +kernel
  obtain ⟨s, done, facts⟩ := (Option.any_eq_true _ _).mp ran
  refine ⟨s, done, of_decide_eq_true facts, ?_⟩
  exact completed_requests_read_back sampleLog sampleCrashes s sampleCrashes_typed
    (by decide +kernel) done 1 0

/-- A crash leaves one byte of a block, and the request that is logged after the restart is not
read: the byte and the length behind it are taken for a length that the file does not have. If a
crash leaves a part of the first block, nothing that is ever logged in the file is read. -/
theorem request_behind_torn_block_lost :
    (∃ s, Run.exec (Logging.step sampleLog) {}
        [.start sampleInfo, .crashInWrite sampleFirst 1, .start sampleInfo,
          .write sampleSecond] = some s ∧
      s.completed = [sampleSecond] ∧ 0 < sampleSecond.request.seq ∧
      readLogsFromFiles sampleLog s.writer.file 0 0 = some [.systemCallback sampleInfo]) ∧
    ∃ s, Run.exec (Logging.step sampleLog) {}
        [.crashInStart sampleInfo 3, .start sampleInfo, .write sampleFirst,
          .write sampleSecond] = some s ∧
      s.completed = [sampleFirst, sampleSecond] ∧
      readLogsFromFiles sampleLog s.writer.file 0 0 = some [] := by
  refine ⟨⟨_, rfl, ?_, ?_, ?_⟩, _, rfl, ?_, ?_⟩
  · decide +kernel
  · decide +kernel
  · decide +kernel
  · decide +kernel
  · decide +kernel

end Runs
end ResDB.Wal
