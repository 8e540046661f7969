import Mathlib.Tactic
import ResDB.HotStuff.ViewFaultFree
import ResDB.Hs.ProposalManager
import ResDB.Hs1.ProposalManager
import ResDB.Hs2.ProposalManager

/-! How many proposals a leader of HotStuff, HotStuff-1 or HotStuff-2 makes in one view. A
certificate is formed whenever exactly a quorum of votes is stored, so a repeated vote forms
it again and starts a round that has been started before. -/
namespace ResDB.HotStuff

inductive Unslotted : ViewProtocol → Prop where
  | hs (cfg : Hs.Config) (calm : cfg.forkTailNum = 0) : Unslotted (Hs.viewProtocol cfg)
  | hs1 (cfg : Hs1.Config) (calm : cfg.forkTailNum = 0 ∧ cfg.rollbackNum = 0) :
      Unslotted (Hs1.viewProtocol cfg)
  | hs2 (cfg : Hs2.Config) (calm : cfg.forkTailNum = 0) : Unslotted (Hs2.viewProtocol cfg)

theorem Unslotted.calm {P : ViewProtocol} (unslotted : Unslotted P) : P.Calm := by
  cases unslotted with
  | hs cfg calm => exact Hs.viewProtocol_calm calm
  | hs1 cfg calm => exact Hs1.viewProtocol_calm calm
  | hs2 cfg calm => exact Hs2.viewProtocol_calm calm

theorem ViewLine.nodup_views {P : ViewProtocol} {ps : List Proposal} (line : ViewLine P ps) :
    (ps.map (fun p => (p.sender, p.header.view))).Nodup := by
  rw [List.nodup_iff_pairwise_ne, List.pairwise_iff_getElem]
  intro i j hi hj below same
  rw [List.length_map] at hi hj
  rw [List.getElem_map, List.getElem_map, Prod.mk.injEq, line.views i hi, line.views j hj] at same
  omega

/-- In a fault-free run without such repeated votes every replica broadcasts at most one
proposal for each view. -/
theorem one_proposal_per_view (P : ViewProtocol) (unslotted : Unslotted P)
    (acts : List ViewAction) (s : ViewSystem)
    (ran : Run.exec (ViewSystem.step P ∅) {} acts = some s)
    (fresh : Run.Along (ViewSystem.step P ∅) (FreshVote P) {} acts) :
    (s.broadcasts.map (fun p => (p.sender, p.header.view))).Nodup :=
  (run_oneLeader unslotted.calm ran fresh).line.nodup_views

/-! ### Sample runs, with four replicas of which three make a quorum -/

def sampleUnslotted : List ViewProtocol :=
  [Hs.viewProtocol ⟨.sample, .sample, 4, 1, 0⟩,
    Hs1.viewProtocol ⟨0, .sample, .sample, 4, 1, 0, 0⟩,
    Hs2.viewProtocol ⟨.sample, .sample, 4, 1, 0⟩]

theorem sampleUnslotted_unslotted : ∀ P ∈ sampleUnslotted, Unslotted P := by
  intro P member
  simp only [sampleUnslotted, List.mem_cons, List.not_mem_nil, or_false] at member
  rcases member with rfl | rfl | rfl
  · exact .hs _ rfl
  · exact .hs1 _ ⟨rfl, rfl⟩
  · exact .hs2 _ rfl

def viewProposal (id view : Int) (qc : QC) (n : UInt8) : Proposal :=
  generateWith .sample .sample id view qc [{ data := [n], proposer := id }] 0 false 0

def viewVote (id : Int) (p : Proposal) : Certificate :=
  { hash := p.hash
    view := p.header.view
    signer := id
    sign := Crypto.sample.signMessage id p.hash }

def viewQC (p : Proposal) : QC :=
  { hash := p.hash
    view := p.header.view
    signatures := [1, 2, 3].map (fun id => Crypto.sample.signMessage id p.hash) }

/-- The proposal of view 1 by its leader, which is replica 2. -/
def firstBlock : Proposal := viewProposal 2 1 {} 1

/-- Replica 2 proposes, replicas 1, 2 and 3 vote, and replica 3 forms the certificate. -/
def firstView : List ViewAction :=
  [.transaction 2 0 { data := [1] }, .transaction 3 0 { data := [2] },
    .transaction 3 0 { data := [3] }, .send 2 0,
    .deliver ⟨1, .newProposal firstBlock⟩, .deliver ⟨2, .newProposal firstBlock⟩,
    .deliver ⟨3, .newProposal firstBlock⟩,
    .deliver ⟨3, .vote (viewVote 1 firstBlock)⟩, .deliver ⟨3, .vote (viewVote 2 firstBlock)⟩,
    .deliver ⟨3, .vote (viewVote 3 firstBlock)⟩]

theorem one_proposal_per_view_sample : sampleUnslotted.Forall fun P => ∃ s,
    Run.exec (ViewSystem.step P ∅) {} (firstView ++ [.send 3 0]) = some s ∧
      s.broadcasts = [firstBlock, viewProposal 3 2 (viewQC firstBlock) 2] ∧
      (s.broadcasts.map (fun p => (p.sender, p.header.view))).Nodup := by
  refine List.forall_iff_forall_mem.mpr ?_
  intro P member
  have result : ∀ P ∈ sampleUnslotted,
      Run.Along (ViewSystem.step P ∅) (FreshVote P) {} (firstView ++ [.send 3 0]) ∧
        (Run.exec (ViewSystem.step P ∅) {} (firstView ++ [.send 3 0])).map
          ViewSystem.broadcasts = some [firstBlock, viewProposal 3 2 (viewQC firstBlock) 2] := by
    decide
  obtain ⟨fresh, outcome⟩ := result P member
  obtain ⟨s, ran, made⟩ := Option.map_eq_some_iff.mp outcome
  exact ⟨s, ran, made, one_proposal_per_view P (sampleUnslotted_unslotted P member) _ s ran fresh⟩

/-- The vote of replica 1 arrives once more. The certificate that it forms again waits for a
proposal, which is the leader's own, and the leader proposes a second time in view 2. -/
theorem repeated_vote_repeats_view : sampleUnslotted.Forall fun P => Unslotted P ∧ ∃ s,
    Run.exec (ViewSystem.step P ∅) {} (firstView ++
      [.deliver ⟨3, .vote (viewVote 1 firstBlock)⟩, .send 3 0,
        .deliver ⟨3, .newProposal (viewProposal 3 2 (viewQC firstBlock) 2)⟩, .send 3 0]) = some s ∧
      s.broadcasts = [firstBlock, viewProposal 3 2 (viewQC firstBlock) 2,
        viewProposal 3 2 (viewQC firstBlock) 3] ∧
      ¬ (s.broadcasts.map (fun p => (p.sender, p.header.view))).Nodup := by
  refine List.forall_iff_forall_mem.mpr ?_
  intro P member
  have result : ∀ P ∈ sampleUnslotted,
      (Run.exec (ViewSystem.step P ∅) {} (firstView ++
        [.deliver ⟨3, .vote (viewVote 1 firstBlock)⟩, .send 3 0,
          .deliver ⟨3, .newProposal (viewProposal 3 2 (viewQC firstBlock) 2)⟩,
          .send 3 0])).map ViewSystem.broadcasts =
        some [firstBlock, viewProposal 3 2 (viewQC firstBlock) 2,
          viewProposal 3 2 (viewQC firstBlock) 3] := by
    decide
  obtain ⟨s, ran, made⟩ := Option.map_eq_some_iff.mp (result P member)
  refine ⟨sampleUnslotted_unslotted P member, s, ran, made, ?_⟩
  rw [made]
  decide

end ResDB.HotStuff
