import Mathlib.Tactic
import ResDB.Library.Run
import ResDB.HotStuff.CertifiedCommit

/-! The lock of HotStuff, HotStuff-1 and HotStuff-2. `AddProposal` overwrites `lock_qc_` with
the certificate that the stored father carries. `SafeNode` compares the lock with the
certificate of the proposal itself, which may be newer although the father's is older. -/
namespace ResDB.HotStuff

inductive FatherLocked : ChainedProtocol → Prop
  | hs (cfg : Hs.Config) : FatherLocked (Hs.protocol cfg)
  | hs1 (cfg : Hs1.Config) : FatherLocked (Hs1.protocol cfg)
  | hs2 (cfg : Hs2.Config) : FatherLocked (Hs2.protocol cfg)

namespace ChainedProtocol
variable (P : ChainedProtocol)

/-- `AddProposal` for the state alone. -/
def keep (m : ProposalManager) (p : Proposal) : ProposalManager := (P.addProposal m p).1

def kept (ps : List Proposal) : ProposalManager := ps.foldl P.keep {}

/-- The father, if it is stored, carries a certificate no older than the lock. -/
def ExtendsLock (m : ProposalManager) (p : Proposal) : Prop :=
  ∀ father ∈ m.getProposal p.header.prehash, m.lockQC.view ≤ father.header.qc.view

instance (m : ProposalManager) (p : Proposal) : Decidable (ExtendsLock m p) :=
  inferInstanceAs (Decidable (∀ father ∈ m.getProposal p.header.prehash, _))

end ChainedProtocol

section Locks
variable {P : ChainedProtocol} {m : ProposalManager} {p : Proposal}

theorem FatherLocked.rule (locked : FatherLocked P) :
    ∃ commitFrom, P.addProposal = ProposalManager.addProposalWith commitFrom := by
  cases locked with
  | hs cfg => exact ⟨_, rfl⟩
  | hs1 cfg => exact ⟨_, rfl⟩
  | hs2 cfg => exact ⟨_, rfl⟩

theorem FatherLocked.lock_le_iff (locked : FatherLocked P) :
    m.lockQC.view ≤ (P.keep m p).lockQC.view ↔ ChainedProtocol.ExtendsLock m p := by
  obtain ⟨commitFrom, rule⟩ := locked.rule
  rw [ChainedProtocol.keep, rule, ProposalManager.addProposalWith_lock]
  cases found : m.getProposal p.header.prehash with
  | none => simp [ChainedProtocol.ExtendsLock, found]
  | some father => simp [ChainedProtocol.ExtendsLock, found]

end Locks

/-- Over a sequence of proposals the view of the lock never decreases exactly when each of
them whose father is stored extends a block with a certificate no older than the lock. -/
theorem lock_view_rises_iff (P : ChainedProtocol) (locked : FatherLocked P)
    (ps : List Proposal) :
    Run.Rises P.keep {} (fun m => m.lockQC.view) ps ↔
      ∀ earlier p, earlier ++ [p] <+: ps → ChainedProtocol.ExtendsLock (P.kept earlier) p := by
  rw [Run.rises_iff_steps]
  simp only [locked.lock_le_iff]
  rfl

theorem chain_raises_lock :
    FatherLocked (Hs.protocol ⟨.sample, .sample, 4, 1, 0⟩) ∧
      Run.Rises (Hs.protocol ⟨.sample, .sample, 4, 1, 0⟩).keep {} (fun m => m.lockQC.view)
        (rootBlock 1 :: laterViews (rootBlock 1)) :=
  ⟨.hs _, (lock_view_rises_iff _ (.hs _) _).mpr (Run.forall_prefix_iff.mpr (by decide))⟩

def fatherLockedSamples : List ChainedProtocol :=
  [Hs.protocol ⟨.sample, .sample, 4, 1, 0⟩, Hs1.protocol ⟨4, .sample, .sample, 4, 1, 0, 0⟩,
    Hs2.protocol ⟨.sample, .sample, 4, 1, 0⟩]

/-- A proposal of view 5 on the first block, which arrives before those of views 2 to 4. -/
def earlyBranch : Proposal := linkedProposal 5 (rootBlock 1).hash (quorumQC (rootBlock 1)) 6

/-- The chain of views 1 to 4, the early branch, and a proposal of view 6 on top of that. -/
def returningBranch : List Proposal :=
  rootBlock 1 :: earlyBranch :: laterViews (rootBlock 1) ++
    [linkedProposal 6 earlyBranch.hash (quorumQC earlyBranch) 7]

/-- Every proposal passes `Verify` where it arrives, and the last one takes the lock from
view 2 back to view 1. -/
theorem returning_branch_lowers_lock : fatherLockedSamples.Forall fun P => FatherLocked P ∧
    (∀ i : Fin returningBranch.length,
      P.verify (P.kept (returningBranch.take i)) (returningBranch.get i) = true) ∧
    (P.kept (returningBranch.take 5)).lockQC.view = 2 ∧ (P.kept returningBranch).lockQC.view = 1 ∧
    ¬Run.Rises P.keep {} (fun m => m.lockQC.view) returningBranch := by
  have result : ∀ P ∈ fatherLockedSamples,
      (∀ i : Fin returningBranch.length,
        P.verify (P.kept (returningBranch.take i)) (returningBranch.get i) = true) ∧
      (P.kept (returningBranch.take 5)).lockQC.view = 2 ∧
      (P.kept returningBranch).lockQC.view = 1 := by
    decide
  refine List.forall_iff_forall_mem.mpr ?_
  intro P member
  obtain ⟨accepted, high, low⟩ := result P member
  refine ⟨?_, accepted, high, low, ?_⟩
  · simp only [fatherLockedSamples, List.mem_cons, List.not_mem_nil, or_false] at member
    rcases member with rfl | rfl | rfl
    · exact .hs _
    · exact .hs1 _
    · exact .hs2 _
  · intro rises
    have between := rises (returningBranch.take 5) returningBranch (List.take_prefix _ _)
      List.prefix_rfl
    simp only [ChainedProtocol.kept] at high low
    simp only [high, low] at between
    omega

end ResDB.HotStuff
