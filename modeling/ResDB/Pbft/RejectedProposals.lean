import Mathlib.Tactic
import ResDB.Pbft.NewView
import ResDB.Pbft.System

/-! What is left of a PRE_PREPARE that `ProcessProposeMsg` rejects. The hash is recorded as
proposed before the message manager and the collector look at the message, and no rejection
of theirs takes it back. -/
namespace ResDB.Pbft

def Collector.Vacant (c : Collector) (info : RequestInfo) : Prop :=
  c.isCommitted = false ∧ c.status ≠ .executed ∧ c.seq = info.request.seq ∧
    (c.force info = true ∨ c.mainRequest = none)

instance (c : Collector) (info : RequestInfo) : Decidable (c.Vacant info) :=
  inferInstanceAs (Decidable (_ ∧ _ ∧ _ ∧ (_ ∨ _)))

theorem Collector.addMain_ret {quorum : ℕ} (c : Collector) (info : RequestInfo) :
    (c.addMain quorum info).2.ret =
      if c.force info = true ∨ c.mainRequest = none then 0 else -2 := by
  unfold addMain
  by_cases forced : c.force info = true
  · simp [forced]
  · cases main : c.mainRequest with
    | none => simp [forced]
    | some held => simp [forced]

theorem Collector.addRequest_ret (quorum : ℕ) (enableViewchange : Bool) (c : Collector)
    {info : RequestInfo} (pre : info.request.type = .prePrepare) :
    (c.addRequest quorum enableViewchange info).2.ret = if c.Vacant info then 0 else -2 := by
  unfold addRequest Vacant
  by_cases committed : c.isCommitted = true
  · simp [committed]
  by_cases executed : c.status = .executed
  · simp [committed, executed]
  by_cases seq : c.seq = info.request.seq
  · simp [committed, executed, seq, pre, addMain_ret]
  · simp [committed, executed, seq]

namespace Deployment
variable (D : Deployment) (id : Int) (r : Replica) (info : RequestInfo)

/-- The message passes all checks of `ProcessProposeMsg` itself at a replica that did not
send it. -/
def Checked : Prop :=
  info.signature.signature.isEmpty = false ∧ info.request.isRecovery = false ∧
    info.request.senderId = r.primary ∧ info.request.senderId ≠ id ∧
    D.checkProposal r info = true

instance : Decidable (D.Checked id r info) := inferInstanceAs (Decidable (_ ∧ _ ∧ _ ∧ _ ∧ _))

/-- The message manager accepts the message, and the collector has a place for it. -/
def Placed : Prop :=
  r.isValidMsg info.request = true ∧ (D.collector r info.request.seq).Vacant info

instance : Decidable (D.Placed r info) := inferInstanceAs (Decidable (_ ∧ _))

variable {D id r info}

theorem addConsensusMsg_invalid_iff (pre : info.request.type = .prePrepare) :
    (D.addConsensusMsg r info).2 = .invalid ↔ ¬ D.Placed r info := by
  unfold addConsensusMsg Placed
  by_cases valid : r.isValidMsg info.request = true
  · have ret := Collector.addRequest_ret D.quorum D.enableViewchange
      (D.collector r info.request.seq) pre
    by_cases vacant : (D.collector r info.request.seq).Vacant info
    · rw [if_pos vacant] at ret
      simp only [valid, if_true, ret, vacant, and_self, not_true_eq_false, iff_false]
      split_ifs <;> simp_all
    · rw [if_neg vacant] at ret
      simp [valid, ret, vacant]
  · simp [valid]

theorem addConsensusMsg_proposed : (D.addConsensusMsg r info).1.proposed = r.proposed := by
  unfold addConsensusMsg
  dsimp only
  split_ifs <;> rfl

theorem noteRecovered_proposed : (noteRecovered r info).proposed = r.proposed := by
  unfold noteRecovered
  split_ifs <;> rfl

theorem processProposeMsg_unchecked (unchecked : ¬ D.Checked id r info) :
    (D.processProposeMsg id r info).1.proposed = r.proposed := by
  unfold processProposeMsg
  dsimp only
  split_ifs with unsigned recovered other bad changed
  · rfl
  · rw [addConsensusMsg_proposed, noteRecovered_proposed]
  · rfl
  · rfl
  all_goals
    have own : info.request.senderId = id := by
      by_contra foreign
      refine unchecked ⟨Bool.not_eq_true _ ▸ unsigned, Bool.not_eq_true _ ▸ recovered,
        not_not.mp other, foreign, ?_⟩
      exact Bool.not_eq_false _ ▸ (fun failed => bad ⟨foreign, failed⟩)
    rw [addConsensusMsg_proposed, noteProposed, if_neg (not_not.mpr own)]

theorem processProposeMsg_checked (checked : D.Checked id r info) :
    (D.processProposeMsg id r info).1.proposed = info.request.hash :: r.proposed ∧
      (D.processProposeMsg id r info).2.1 =
        (D.addConsensusMsg (noteProposed id r info) info).2.reply := by
  obtain ⟨signed, fresh, primary, foreign, good⟩ := checked
  have noted : (noteProposed id r info).proposed = info.request.hash :: r.proposed := by
    rw [noteProposed, if_pos foreign]
  unfold processProposeMsg
  rw [if_neg (by simp [signed]), if_neg (by simp [fresh]), if_neg (not_not.mpr primary),
    if_neg (by simp [good])]
  dsimp only
  split_ifs
  · exact ⟨addConsensusMsg_proposed.trans noted, rfl⟩
  · exact ⟨addConsensusMsg_proposed.trans noted, rfl⟩

theorem placed_noteProposed : D.Placed (noteProposed id r info) info ↔ D.Placed r info := by
  unfold noteProposed
  split_ifs
  · exact Iff.rfl
  · exact Iff.rfl

theorem reply_eq_iff (code : CollectorResultCode) : code.reply = -2 ↔ code = .invalid := by
  cases code <;> decide

/-- In any state, a PRE_PREPARE that is rejected leaves the recorded hashes as they were
exactly if the message manager and the collector have no objection to one that has passed
the checks of the handler. -/
theorem rejection_traceless_iff (pre : info.request.type = .prePrepare) :
    ((D.processProposeMsg id r info).2.1 = -2 →
        ∀ hash, hash ∈ (D.processProposeMsg id r info).1.proposed ↔ hash ∈ r.proposed) ↔
      (D.Checked id r info → D.Placed r info) := by
  by_cases checked : D.Checked id r info
  · obtain ⟨recorded, reply⟩ := processProposeMsg_checked checked
    have new : info.request.hash ∉ r.proposed := (of_decide_eq_true checked.2.2.2.2).2.2
    rw [recorded, reply, reply_eq_iff, addConsensusMsg_invalid_iff pre, placed_noteProposed]
    constructor
    · intro traceless _
      by_contra unplaced
      exact new ((traceless unplaced info.request.hash).mp List.mem_cons_self)
    · intro placed unplaced
      exact absurd (placed checked) unplaced
  · rw [processProposeMsg_unchecked checked]
    exact ⟨fun _ passed => absurd passed checked, fun _ _ _ => Iff.rfl⟩

def sampleProposal (view : ℕ) : RequestInfo :=
  sampleDeployment.message 1
    { type := .prePrepare, senderId := 1, currentView := view, seq := 1, hash := [1], data := [1]
      dataSignature := some (Crypto.sample.signMessage 5 [1]) }

theorem sampleProposal_traceless :
    (sampleProposal 1).request.type = .prePrepare ∧
      ((sampleDeployment.processProposeMsg 2 {} (sampleProposal 1)).2.1 = -2 → ∀ hash,
        hash ∈ (sampleDeployment.processProposeMsg 2 {} (sampleProposal 1)).1.proposed ↔
          hash ∈ ({} : Replica).proposed) :=
  ⟨rfl, (rejection_traceless_iff rfl).mpr (fun _ => by decide +kernel)⟩

/-- Replica 1 proposes for view 5 what it should propose for view 1, and then for view 1. -/
def sampleRejection : List Action :=
  [.inject (.consensus (sampleProposal 5)), .inject (.consensus (sampleProposal 1)),
    .deliver 2 (.consensus (sampleProposal 5))]

/-- Replica 2 rejects the first and keeps its hash. It rejects the second for that hash. -/
theorem rejected_proposal_recorded :
    (sampleDeployment.processProposeMsg 2 {} (sampleProposal 5)).2.1 = -2 ∧
      (Run.exec (System.step sampleDeployment {1}) {} sampleRejection).map (fun s =>
          ((s.replica 2).proposed,
            (sampleDeployment.processProposeMsg 2 (s.replica 2) (sampleProposal 1)).2.1)) =
        some ([[1]], -2) ∧
      (sampleDeployment.processProposeMsg 2 {} (sampleProposal 1)).2.1 = 0 := by
  decide +kernel

end Deployment
end ResDB.Pbft
