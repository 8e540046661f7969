import Mathlib.Tactic
import ResDB.Library.MachineInt
import ResDB.Library.Run
import ResDB.TdHotstuff.Protocol

/-! `generic_qc_`, `lock_qc_` and `round_` under every interleaving of `AddQC` and
`AddProposal`. Both hold `txn_mutex_` from end to end, so each call is one step. The round is
an `int`, and one more than the view of a certificate. -/
namespace ResDB.TdHotstuff
open HotStuff

inductive ManagerCall where
  | addQC (qc : QC)
  | addProposal (p : Proposal)

namespace ManagerCall

/-- The certificates that `ReceiveCertificate` and the proposals of a run hand over, short of
the last view that an `int` can count. -/
def InDomain : ManagerCall → Prop
  | .addQC qc => 1 ≤ qc.view ∧ qc.view < 2 ^ 31 - 1 ∧ 0 ≤ qc.slot
  | .addProposal p => 0 ≤ p.header.qc.view ∧ 0 ≤ p.header.qc.slot

instance (call : ManagerCall) : Decidable call.InDomain :=
  match call with
  | .addQC qc => inferInstanceAs (Decidable (1 ≤ qc.view ∧ qc.view < 2 ^ 31 - 1 ∧ 0 ≤ qc.slot))
  | .addProposal p => inferInstanceAs (Decidable (0 ≤ p.header.qc.view ∧ 0 ≤ p.header.qc.slot))

/-- The calls as they leave the members, with the round wrapped around. -/
def apply (cfg : Config) (id : Int) (m : ProposalManager) : ManagerCall → ProposalManager
  | .addQC qc =>
      let m := (protocol cfg).addQC id m qc
      { m with round := MachineInt.wrap 32 m.round }
  | .addProposal p => (m.addProposal p).1

end ManagerCall

/-- The lock is never ahead of the highest certificate, and the round at most one view. -/
structure Paced (m : ProposalManager) : Prop where
  lock : m.lockQC.position ≤ m.genericQC.position
  round : m.round ≤ m.genericQC.view + 1
  range : MachineInt.IsInt 32 m.round

structure Advances (m m' : ProposalManager) : Prop where
  generic : m.genericQC.position ≤ m'.genericQC.position
  lock : m.lockQC.position ≤ m'.lockQC.position
  round : m.round ≤ m'.round

section Calls
variable {m : ProposalManager} {qc : QC}

theorem view_le_of_position_le {qc qc' : QC} (le : qc.position ≤ qc'.position) :
    qc.view ≤ qc'.view := by
  have order := position_le.mp le
  omega

theorem paced_addQC {cfg : Config} (calm : (protocol cfg).NoAttack) (id : Int) (paced : Paced m)
    (view : 1 ≤ qc.view) (countable : qc.view < 2 ^ 31 - 1) :
    Paced ((protocol cfg).addQC id m qc) ∧ Advances m ((protocol cfg).addQC id m qc) := by
  by_cases newer : m.genericQC.view = 0 ∨ m.genericQC.position < qc.position
  · have later : m.genericQC.position < qc.position := by
      rcases newer with initial | later
      · exact position_lt.mpr (.inl (by omega))
      · exact later
    have rises := view_le_of_position_le later.le
    have round := paced.round
    rw [SlotProtocol.addQC_of_newer calm id newer]
    refine ⟨⟨paced.lock.trans later.le, ?_, ?_⟩, ⟨later.le, le_rfl, ?_⟩⟩
    · dsimp only
      split_ifs <;> omega
    · dsimp only
      split_ifs
      · exact ⟨by omega, by omega⟩
      · exact paced.range
    · dsimp only
      split_ifs <;> omega
  · rw [SlotProtocol.addQC, calm.forkTail, calm.rollback,
      ProposalManager.addQC_older _ id newer]
    exact ⟨paced, le_rfl, le_rfl, le_rfl⟩

theorem paced_adoptQC (paced : Paced m) (qc : QC) :
    Paced (m.adoptQC qc) ∧ Advances m (m.adoptQC qc) := by
  rcases le_or_gt m.genericQC.position qc.position with newer | older
  · have rises := view_le_of_position_le newer
    have round := paced.round
    rw [ProposalManager.adoptQC_of_le newer]
    refine ⟨⟨le_rfl, ?_, paced.range⟩, ⟨newer, paced.lock.trans newer, le_rfl⟩⟩
    dsimp only
    omega
  · rw [ProposalManager.adoptQC_of_lt older]
    exact ⟨paced, le_rfl, le_rfl, le_rfl⟩

theorem paced_apply {cfg : Config} (calm : (protocol cfg).NoAttack) (id : Int) (paced : Paced m)
    {call : ManagerCall} (domain : call.InDomain) :
    Paced (call.apply cfg id m) ∧ Advances m (call.apply cfg id m) := by
  cases call with
  | addQC qc =>
      obtain ⟨paced, advances⟩ := paced_addQC calm id paced domain.1 domain.2.1
      have exact' := (MachineInt.wrap_eq_self_iff (by decide)).mpr paced.range
      rw [ManagerCall.apply, exact']
      exact ⟨paced, advances⟩
  | addProposal p =>
      obtain ⟨generic, lock, round, -⟩ := m.addProposal_manager p
      obtain ⟨⟨lockLe, roundLe, -⟩, ⟨genericRises, lockRises, -⟩⟩ :=
        paced_adoptQC paced p.header.qc
      rw [ProposalManager.adoptQC_round] at roundLe
      show Paced (m.addProposal p).1 ∧ Advances m (m.addProposal p).1
      refine ⟨⟨?_, ?_, ?_⟩, ⟨?_, ?_, ?_⟩⟩
      · rwa [generic, lock]
      · rwa [generic, round]
      · rw [round]
        exact paced.range
      · rwa [generic]
      · rwa [lock]
      · rw [round]

end Calls

def managed (cfg : Config) (id : Int) (calls : List ManagerCall) : ProposalManager :=
  calls.foldl (ManagerCall.apply cfg id) {}

theorem paced_managed {cfg : Config} (calm : (protocol cfg).NoAttack) (id : Int)
    {calls : List ManagerCall} (domain : ∀ call ∈ calls, call.InDomain) :
    Paced (managed cfg id calls) :=
  List.foldlRecOn calls _ ⟨le_rfl, le_rfl, by decide⟩
    (fun _ paced call member => (paced_apply calm id paced (domain call member)).1)

/-- With the attacks off, no sequence of calls takes the highest certificate, the lock or the
round back, the lock stays at or below the highest certificate, and the round at most one view
above it, up to the last view that has a next one. -/
theorem pacemaker_never_moves_back (cfg : Config)
    (calm : cfg.forkTailNum = 0 ∧ cfg.rollbackNum = 0) (id : Int) (calls : List ManagerCall)
    (domain : ∀ call ∈ calls, call.InDomain) :
    Run.Rises (ManagerCall.apply cfg id) {} (fun m => m.genericQC.position) calls ∧
      Run.Rises (ManagerCall.apply cfg id) {} (fun m => m.lockQC.position) calls ∧
      Run.Rises (ManagerCall.apply cfg id) {} (fun m => m.round) calls ∧
      ∀ made, made <+: calls →
        (managed cfg id made).lockQC.position ≤ (managed cfg id made).genericQC.position ∧
          (managed cfg id made).round ≤ (managed cfg id made).genericQC.view + 1 := by
  have quiet : (protocol cfg).NoAttack := ⟨calm.1, calm.2⟩
  have paced : ∀ made, made <+: calls → Paced (managed cfg id made) := fun made before =>
    paced_managed quiet id (fun call member => domain call (before.subset member))
  have step : ∀ made call, made ++ [call] <+: calls →
      Advances (managed cfg id made) (call.apply cfg id (managed cfg id made)) := by
    intro made call before
    exact (paced_apply quiet id (paced made ((List.prefix_append _ _).trans before))
      (domain call (before.subset (by simp)))).2
  refine ⟨?_, ?_, ?_, fun made before => ⟨(paced made before).lock, (paced made before).round⟩⟩
  · exact Run.rises_iff_steps.mpr (fun made call before => (step made call before).generic)
  · exact Run.rises_iff_steps.mpr (fun made call before => (step made call before).lock)
  · exact Run.rises_iff_steps.mpr (fun made call before => (step made call before).round)

def samplePacemaker : Config :=
  { crypto := Crypto.sample, codec := Codec.sample, weights := buildWeights 4
    positive := by decide, f := 1 }

theorem samplePacemaker_advances :
    (managed samplePacemaker 1 [.addQC { view := 1, isFinal := true }, .addQC { view := 3 },
        .addProposal { header := { qcField := some { view := 2 } } }]).round ≤
      (managed samplePacemaker 1 [.addQC { view := 1, isFinal := true }, .addQC { view := 3 },
        .addProposal { header := { qcField := some { view := 2 } } }]).genericQC.view + 1 :=
  ((pacemaker_never_moves_back samplePacemaker ⟨rfl, rfl⟩ 1 _ (by decide)).2.2.2 _
    List.prefix_rfl).2

/-- The round after the last view is the least `int`. -/
theorem last_view_takes_round_back :
    (managed samplePacemaker 1 [.addQC { view := 1, isFinal := true }]).round = 2 ∧
      (managed samplePacemaker 1 [.addQC { view := 1, isFinal := true },
        .addQC { view := 2147483647, isFinal := true }]).round = -2147483648 := by
  decide

end ResDB.TdHotstuff
