import Mathlib.Tactic
import ResDB.HotStuff.CommitLog
import ResDB.HotStuff.FaultFree
import ResDB.SlotHs1.Protocol
import ResDB.TdHotstuff.Chain

/-! Commits of the slotted protocols when nobody is faulty. They are gap-free as long as
each replica accepts the proposals of the chain in order. Late proposals break this: the
view-1 shortcut and the lock let a replica accept a block whose father it has not seen, and
that father is then never committed there. -/
namespace ResDB.HotStuff
open LinkedLog

section FaultFreeCommits
variable {P : SlotProtocol} {floor : P.Votes → Position} {s : System P}

theorem SingleChain.linked_hash {leader : Int → Int} {formed : List QC} {ps : List Proposal}
    (chain : SingleChain leader formed ps) :
    Linked Proposal.hash (fun p => p.header.prehash) [] ps :=
  linked_of_isChain (fun p first => (chain.root p first).1)
    (chain.linked.imp (fun _ _ follows => follows.prehash))

theorem commits_repeat_chain (inv : FaultFree P floor s) (archive : Archive s)
    (collisionFree : CollisionFree P.crypto P.codec s.broadcasts) {j : Int}
    (linked : Linked Proposal.hash (fun p => p.header.prehash) [] (s.replica j).commitQ) :
    (s.replica j).commitQ.map Proposal.block <+: s.broadcasts.map Proposal.block := by
  have origin : ∀ q ∈ (s.replica j).commitQ, ∃ p ∈ s.broadcasts, q.block = p.block := by
    intro q pushed
    obtain ⟨p, cast, same⟩ := archive.committed j q pushed
    exact ⟨p, inv.voted _ cast, same⟩
  have named : ∀ q ∈ (s.replica j).commitQ, q.hash ≠ [] := by
    intro q pushed
    obtain ⟨p, listed, same⟩ := origin q pushed
    rw [Proposal.hash_of_block same]
    exact (inv.wellFormed p listed).hash_ne
  have bound : ∀ q ∈ (s.replica j).commitQ, ∀ b ∈ s.broadcasts, q.hash = b.hash →
      q.header.prehash = b.header.prehash := by
    intro q pushed b listed sameHash
    obtain ⟨p, listed', same⟩ := origin q pushed
    have digest : getHash P.crypto P.codec p = getHash P.crypto P.codec b := by
      rw [← (inv.wellFormed p listed').hash, ← (inv.wellFormed b listed).hash, ← sameHash,
        Proposal.hash_of_block same]
    rw [Proposal.header_of_block same, (collisionFree p listed' b listed digest).1]
  have place : ∀ k (h : k < (s.replica j).commitQ.length), ∃ h' : k < s.broadcasts.length,
      (s.replica j).commitQ[k].block = s.broadcasts[k].block := by
    intro k h
    obtain ⟨p, listed, same⟩ := origin _ (List.getElem_mem h)
    obtain ⟨m, hm, rfl⟩ := List.getElem_of_mem listed
    have index : k = m := index_unique linked inv.chain.linked_hash named
      (fun b listed => (inv.wellFormed b listed).hash_ne) bound h hm (Proposal.hash_of_block same)
    subst index
    exact ⟨hm, same⟩
  apply prefix_of_agree
  · rw [List.length_map, List.length_map]
    by_contra longer
    obtain ⟨impossible, -⟩ := place s.broadcasts.length (by omega)
    exact absurd impossible (Nat.lt_irrefl _)
  · intro k h h'
    rw [List.length_map] at h
    rw [List.getElem_map, List.getElem_map]
    exact (place k h).2

end FaultFreeCommits

inductive Slotted : SlotProtocol → Prop where
  | tdHotstuff (cfg : TdHotstuff.Config) : Slotted (TdHotstuff.protocol cfg)
  | slotHs1 (cfg : SlotHs1.Config) : Slotted (SlotHs1.protocol cfg)

theorem Slotted.lawful {P : SlotProtocol} (slotted : Slotted P) :
    ∃ floor : P.Votes → Position, P.Lawful floor := by
  cases slotted with
  | tdHotstuff cfg => exact ⟨_, TdHotstuff.protocol_lawful cfg⟩
  | slotHs1 cfg => exact ⟨_, SlotHs1.protocol_lawful cfg⟩

/-- In a run without faults in which every accepted proposal extends the block its
replica stores, each commit links to the one before it and the first has no predecessor.
Without hash collisions among the proposals, all replicas then number the same transactions
alike. -/
theorem commits_gap_free (P : SlotProtocol) (slotted : Slotted P) (calm : P.NoAttack)
    (acts : List Action) (s : System P)
    (ran : Run.exec (System.step ∅) P.initial acts = some s)
    (orderly : Run.Along (System.step ∅) Orderly P.initial acts) :
    (∀ j, Linked Proposal.hash (fun p => p.header.prehash) [] (s.replica j).commitQ) ∧
    (CollisionFree P.crypto P.codec s.broadcasts → ∀ i j,
      (asyncCommit (s.replica i).commitQ).map Transaction.unstamped <+:
          (asyncCommit (s.replica j).commitQ).map Transaction.unstamped ∨
        (asyncCommit (s.replica j).commitQ).map Transaction.unstamped <+:
          (asyncCommit (s.replica i).commitQ).map Transaction.unstamped) := by
  obtain ⟨floor, law⟩ := slotted.lawful
  have linked : ∀ j, Linked Proposal.hash (fun p => p.header.prehash) []
      (s.replica j).commitQ := by
    intro j
    obtain ⟨log, logged⟩ := run_logged orderly ran j
    exact logged.order.linked_commitQ logged.linked
  refine ⟨linked, ?_⟩
  intro collisionFree i j
  have along := fun j => commits_repeat_chain (run_faultFree calm law ran) (run_archive ran)
    collisionFree (linked j)
  rcases List.prefix_or_prefix_of_prefix (along i) (along j) with shorter | shorter
  · exact .inl (asyncCommit_mono shorter)
  · exact .inr (asyncCommit_mono shorter)

/-- The sample deployment with every proposal delivered in order. -/
def timelyProposals : List Action :=
  [1, 2, 3].map (fun n => Action.transaction 1 0 (TdHotstuff.sampleTransaction n)) ++
    TdHotstuff.proposeAndCertify TdHotstuff.firstProposal ++
    TdHotstuff.proposeAndCertify TdHotstuff.secondProposal ++
    Action.send 1 false 0 :: [TdHotstuff.firstProposal, TdHotstuff.secondProposal,
      TdHotstuff.thirdProposal].map (fun p => Action.deliver ⟨2, .newProposal p⟩)

theorem commits_gap_free_two :
    ∃ s, Run.exec (System.step ∅) (TdHotstuff.protocol TdHotstuff.sampleConfig).initial
        timelyProposals = some s ∧
      (s.replica 2).commitQ = [TdHotstuff.firstProposal, TdHotstuff.secondProposal] ∧
      ∀ j, Linked Proposal.hash (fun p => p.header.prehash) [] (s.replica j).commitQ := by
  have result : (Run.exec (System.step ∅) (TdHotstuff.protocol TdHotstuff.sampleConfig).initial
      timelyProposals).map (fun s => (s.replica 2).commitQ) =
      some [TdHotstuff.firstProposal, TdHotstuff.secondProposal] := by decide
  obtain ⟨s, ran, committed⟩ := Option.map_eq_some_iff.mp result
  exact ⟨s, ran, committed, (commits_gap_free _ (.tdHotstuff TdHotstuff.sampleConfig) ⟨rfl, rfl⟩
    timelyProposals s ran (by decide)).1⟩

/-- Replica 2 gets the second and third proposal only. It commits the second one first,
and its transaction 1 is not that of replica 1. -/
theorem late_proposal_leaves_gap :
    ∃ s, Run.exec (System.step ∅) (TdHotstuff.protocol TdHotstuff.sampleConfig).initial
        TdHotstuff.lateFirstProposal = some s ∧
      ¬ Linked Proposal.hash (fun p => p.header.prehash) [] (s.replica 2).commitQ ∧
      (asyncCommit (s.replica 1).commitQ).map (fun t => (t.id, t.data)) = [(1, [1])] ∧
      (asyncCommit (s.replica 2).commitQ).map (fun t => (t.id, t.data)) = [(1, [2])] := by
  have result : (Run.exec (System.step ∅) (TdHotstuff.protocol TdHotstuff.sampleConfig).initial
      TdHotstuff.lateFirstProposal).map
        (fun s => ((s.replica 1).commitQ, (s.replica 2).commitQ)) =
      some ([TdHotstuff.firstProposal], [TdHotstuff.secondProposal]) := by decide
  obtain ⟨s, ran, committed⟩ := Option.map_eq_some_iff.mp result
  obtain ⟨first, second⟩ := Prod.mk.inj committed
  refine ⟨s, ran, ?_, ?_, ?_⟩
  · rw [second]
    decide
  · rw [first]
    decide
  · rw [second]
    decide

end ResDB.HotStuff
