import Mathlib.Tactic
import ResDB.Library.Run
import ResDB.TdHotstuff.VoteCount

/-! `ReceiveCertificate` on several threads. A call first compares its vote with the floor
`(min_view_, min_slot_)` under `rec_mutex2_`, and later counts it under `rec_mutex_`, where it
may set the floor. Between the two sections other calls may run theirs. -/
namespace ResDB.TdHotstuff
open HotStuff

/-- The first section, with the signature check that follows it outside the locks. -/
def passesCheck (crypto : Crypto) (weights : List ℕ) (votes : Votes) (cert : Certificate) : Bool :=
  if ¬(1 ≤ cert.signer ∧ cert.signer ≤ weights.length) then false
  else if isStale votes.minView votes.minSlot cert then false
  else if Votes.doneKey cert.view cert.slot ∈ votes.qcDone then false
  else if !crypto.verifyMessage cert.hash cert.sign then false
  else true

/-- The second section. The floor is not compared again. -/
def countSection (weights : List ℕ) (votes : Votes) (cert : Certificate) : Votes × Option QC :=
  if weightThreshold weights ≤ votes.receivedWeight cert.view cert.hash then (votes, none)
  else if (votes.receive cert.view cert.hash).any (fun c => c.signer = cert.signer) then
    (votes, none)
  else
    let counted := votes.add cert (weightAt weights cert.signer)
    if weightThreshold weights ≤ counted.receivedWeight cert.view cert.hash then
      (counted.close cert, some (formQC counted.receive cert))
    else (counted, none)

theorem countVote_eq_sections (crypto : Crypto) (weights : List ℕ) (votes : Votes)
    (cert : Certificate) :
    countVote crypto weights votes cert =
      if passesCheck crypto weights votes cert then countSection weights votes cert
      else (votes, none) := by
  unfold countVote admits passesCheck countSection
  grind

/-- The shared members, and the votes of the calls between their two sections. -/
structure Threads where
  votes : Votes := {}
  waiting : List Certificate := []

inductive Section where
  | check (cert : Certificate)
  | count (i : ℕ)

def Threads.step (crypto : Crypto) (weights : List ℕ) (t : Threads) : Section → Threads
  | .check cert =>
      if passesCheck crypto weights t.votes cert then { t with waiting := t.waiting ++ [cert] }
      else t
  | .count i =>
      match t.waiting[i]? with
      | none => t
      | some cert =>
          { votes := (countSection weights t.votes cert).1, waiting := t.waiting.eraseIdx i }

/-- The vote lifts the tally of its view and hash over the threshold. -/
def Completes (weights : List ℕ) (votes : Votes) (cert : Certificate) : Prop :=
  votes.receivedWeight cert.view cert.hash < weightThreshold weights ∧
    (∀ c ∈ votes.receive cert.view cert.hash, c.signer ≠ cert.signer) ∧
    weightThreshold weights ≤
      votes.receivedWeight cert.view cert.hash + weightAt weights cert.signer

/-- A vote that completes a quorum is not below the floor that stands when it is counted. -/
def Threads.InOrder (weights : List ℕ) (t : Threads) : Section → Prop
  | .check _ => True
  | .count i => ∀ cert, t.waiting[i]? = some cert → Completes weights t.votes cert →
      t.votes.floor ≤ toLex (asUInt64 cert.view, asUInt64 cert.slot)

section Sections
variable {crypto : Crypto} {weights : List ℕ} {votes : Votes} {cert : Certificate}

theorem countSection_floor_of_completes (completes : Completes weights votes cert) :
    (countSection weights votes cert).1.floor = toLex (asUInt64 cert.view, asUInt64 cert.slot) := by
  obtain ⟨below, fresh, reached⟩ := completes
  have unseen := any_signer_eq_false.mpr fresh
  have sum : weightThreshold weights ≤
      (votes.add cert (weightAt weights cert.signer)).receivedWeight cert.view cert.hash := by
    simpa [Votes.add] using reached
  simp only [countSection, Nat.not_le_of_lt below, unseen, sum, if_false, if_true,
    Bool.false_eq_true]
  rfl

theorem countSection_floor_of_not (waits : ¬Completes weights votes cert) :
    (countSection weights votes cert).1.floor = votes.floor := by
  simp only [countSection]
  split_ifs with full seen reached
  · rfl
  · rfl
  · have fresh := any_signer_eq_false.mp (Bool.eq_false_of_not_eq_true seen)
    exact absurd ⟨Nat.lt_of_not_le full, fresh, by simpa [Votes.add] using reached⟩ waits
  · rfl

theorem Threads.floor_le_step_iff (t : Threads) (s : Section) :
    t.votes.floor ≤ (t.step crypto weights s).votes.floor ↔ t.InOrder weights s := by
  cases s with
  | check cert =>
      have same : (t.step crypto weights (.check cert)).votes = t.votes := by
        simp only [Threads.step]
        split_ifs <;> rfl
      simp [same, Threads.InOrder]
  | count i =>
      simp only [Threads.step, Threads.InOrder]
      cases found : t.waiting[i]? with
      | none => simp
      | some cert =>
          simp only [Option.some.injEq, forall_eq']
          by_cases completes : Completes weights t.votes cert
          · simp [countSection_floor_of_completes completes, completes]
          · simp [countSection_floor_of_not completes, completes]

end Sections

/-- In a run of sections of concurrent calls the floor never decreases exactly when every vote
that completes a quorum is still at or above the floor at the moment it is counted. -/
theorem watermark_rises_iff (crypto : Crypto) (weights : List ℕ) (sections : List Section) :
    Run.Rises (Threads.step crypto weights) {} (fun t => t.votes.floor) sections ↔
      ∀ earlier s, earlier ++ [s] <+: sections →
        Threads.InOrder weights (earlier.foldl (Threads.step crypto weights) {}) s := by
  rw [Run.rises_iff_steps]
  simp only [Threads.floor_le_step_iff]

/-- The votes of views 1 and 2 all pass the check before any is counted, and those of view 2
are counted first. -/
def racingSections : List Section :=
  ([1, 2, 3] : List Int).map (fun i => Section.check { voteOf i i with view := 1 }) ++
    ([1, 2, 3] : List Int).map (fun i => Section.check { voteOf i i with view := 2 }) ++
    [Section.count 3, .count 3, .count 3, .count 0, .count 0, .count 0]

/-- View 1 then takes the floor back from view 2. -/
theorem late_count_lowers_watermark :
    ((racingSections.take 9).foldl (Threads.step Crypto.sample (buildWeights 4)) {}).votes.floor =
        toLex (2, 0) ∧
      (racingSections.foldl (Threads.step Crypto.sample (buildWeights 4)) {}).votes.floor =
        toLex (1, 0) ∧
      ¬Run.Rises (Threads.step Crypto.sample (buildWeights 4)) {} (fun t => t.votes.floor)
        racingSections := by
  have high : ((racingSections.take 9).foldl (Threads.step Crypto.sample (buildWeights 4))
      {}).votes.floor = toLex (2, 0) := by decide
  have low : (racingSections.foldl (Threads.step Crypto.sample (buildWeights 4)) {}).votes.floor =
      toLex (1, 0) := by decide
  refine ⟨high, low, ?_⟩
  intro rises
  have between :=
    rises (racingSections.take 9) racingSections (List.take_prefix _ _) List.prefix_rfl
  simp only [high, low, position_le] at between
  omega

end ResDB.TdHotstuff
