import Mathlib.Tactic
import ResDB.HotStuff.FaultFree
import ResDB.TdHotstuff.Protocol

/-! Which proposals TD-HotStuff makes and votes for, in runs of the whole system. -/
namespace ResDB.TdHotstuff
open HotStuff

/-- In every run without faults the broadcast proposals form one chain: the first has
no predecessor, each later one carries hash and certificate of the one before it at a higher
position, no two share a position, and each comes from the leader of its view. -/
theorem single_chain (cfg : Config) (calm : (protocol cfg).NoAttack) (acts : List Action)
    (s : System (protocol cfg))
    (ran : Run.exec (System.step ∅) (protocol cfg).initial acts = some s) :
    SingleChain (vrfLeader cfg.crypto cfg.weights) s.formed s.broadcasts ∧
      s.broadcasts.Pairwise (fun p q => p.header.position < q.header.position) ∧
      ∀ p ∈ s.broadcasts, ∀ q ∈ s.broadcasts, p.header.position = q.header.position → p = q := by
  have chain := (run_faultFree calm (protocol_lawful cfg) ran).chain
  exact ⟨chain, chain.ordered, fun p hp q hq same => chain.unique hp hq same⟩

/-! A small deployment to run: replica 1 of weight 3 leads every view shown here and
reaches the threshold alone; replica 2 has weight 1. -/

theorem sampleWeights_positive : ∀ w ∈ [3, 1], 0 < w := by decide

def sampleConfig : Config where
  crypto := .sample
  codec := .sample
  weights := [3, 1]
  positive := sampleWeights_positive
  f := 0

def sampleTransaction (n : UInt8) : Transaction := { data := [n] }

def sampleProposal (qc : QC) (slot : Int) (n : UInt8) : Proposal :=
  generateWith .sample .sample 1 1 qc [{ sampleTransaction n with proposer := 1 }] slot false 0

def sampleQC (p : Proposal) : QC :=
  { hash := p.hash
    view := p.header.view
    slot := p.header.slot
    isFinal := p.header.isFinal
    signatures := [Crypto.sample.signMessage 1 p.hash] }

def firstProposal : Proposal := sampleProposal {} 0 1
def secondProposal : Proposal := sampleProposal (sampleQC firstProposal) 1 2
def thirdProposal : Proposal := sampleProposal (sampleQC secondProposal) 2 3

/-- Replica 1 proposes, accepts its own proposal and counts its own vote. -/
def proposeAndCertify (p : Proposal) : List Action :=
  [.send 1 false 0, .deliver ⟨1, .newProposal p⟩,
    .deliver ⟨1, .vote ((protocol sampleConfig).generateCertificate 1 p)⟩]

/-- Three proposals are made. Replica 2 gets the second and the third only. -/
def lateFirstProposal : List Action :=
  [1, 2, 3].map (fun n => Action.transaction 1 0 (sampleTransaction n)) ++
    proposeAndCertify firstProposal ++ proposeAndCertify secondProposal ++
    [Action.send 1 false 0, .deliver ⟨2, .newProposal secondProposal⟩,
      .deliver ⟨2, .newProposal thirdProposal⟩]

theorem single_chain_three :
    ∃ s, Run.exec (System.step ∅) (protocol sampleConfig).initial lateFirstProposal = some s ∧
      s.broadcasts = [firstProposal, secondProposal, thirdProposal] ∧
      SingleChain (vrfLeader Crypto.sample [3, 1]) s.formed s.broadcasts := by
  have result : (Run.exec (System.step ∅) (protocol sampleConfig).initial lateFirstProposal).map
      System.broadcasts = some [firstProposal, secondProposal, thirdProposal] := by decide
  obtain ⟨s, ran, made⟩ := Option.map_eq_some_iff.mp result
  exact ⟨s, ran, made, (single_chain sampleConfig ⟨rfl, rfl⟩ lateFirstProposal s ran).1⟩

/-! ### Votes -/

/-- Honest replicas vote for at most one hash at a position, and only for proposals
that name the leader of their view as sender. -/
def SafeVoting (cfg : Config) (s : System (protocol cfg)) : Prop :=
  (∀ vote ∈ s.voted, vote.2.sender = vrfLeader cfg.crypto cfg.weights vote.2.header.view) ∧
    ∀ vote ∈ s.voted, ∀ other ∈ s.voted, vote.1 = other.1 →
      vote.2.header.position = other.2.header.position → vote.2.hash = other.2.hash

instance (cfg : Config) (s : System (protocol cfg)) : Decidable (SafeVoting cfg s) :=
  inferInstanceAs (Decidable (_ ∧ _))

theorem safeVoting_of_faultFree {cfg : Config} {s : System (protocol cfg)}
    (inv : FaultFree (protocol cfg) Votes.floor s) : SafeVoting cfg s := by
  refine ⟨fun vote cast => inv.chain.leaders vote.2 (inv.voted vote cast), ?_⟩
  intro vote cast other castToo _ same
  rw [inv.chain.unique (inv.voted vote cast) (inv.voted other castToo) same]

def strayProposal (cfg : Config) : Proposal :=
  let p : Proposal :=
    { header := { view := 1 }, sender := vrfLeader cfg.crypto cfg.weights 1 + 1 }
  { p with hash := getHash cfg.crypto cfg.codec p }

theorem stray_vote (cfg : Config) {byz : Finset Int} (faulty : byz.Nonempty) {id : Int}
    (honest : System.Honest (protocol cfg) byz id) :
    ∃ s, Run.exec (System.step byz) (protocol cfg).initial
        [.inject ⟨id, .newProposal (strayProposal cfg)⟩,
          .deliver ⟨id, .newProposal (strayProposal cfg)⟩] = some s ∧
      (id, strayProposal cfg) ∈ s.voted := by
  let e : Envelope := ⟨id, .newProposal (strayProposal cfg)⟩
  let sent : System (protocol cfg) := { (protocol cfg).initial with network := [e] }
  have first : (protocol cfg).initial.step byz (.inject e) = some sent := by
    refine if_pos ⟨faulty, ?_⟩
    intro sign member
    exact absurd member List.not_mem_nil
  have second : sent.step byz (.deliver e) = some (sent.deliver e) :=
    if_pos ⟨honest, List.mem_singleton_self e⟩
  have accept : (protocol cfg).verify (sent.replica id).manager (strayProposal cfg) = true :=
    verifyWith_view_one rfl rfl
  refine ⟨sent.deliver e, ?_, ?_⟩
  · rw [Run.exec_cons_of_step _ first, Run.exec_cons_of_step _ second]
    rfl
  · rw [System.deliver_accepted sent accept]
    exact List.mem_append_right _ (List.mem_singleton_self _)

theorem safe_voting_iff_fault_free (cfg : Config) (calm : (protocol cfg).NoAttack)
    (byz : Finset Int) (honest : ∃ id, System.Honest (protocol cfg) byz id) :
    (∀ acts s, Run.exec (System.step byz) (protocol cfg).initial acts = some s →
      SafeVoting cfg s) ↔ byz = ∅ := by
  constructor
  · intro safe
    by_contra faulty
    obtain ⟨id, honest⟩ := honest
    obtain ⟨s, ran, cast⟩ := stray_vote cfg (Finset.nonempty_iff_ne_empty.mpr faulty) honest
    have leader := (safe _ s ran).1 _ cast
    exact absurd leader (Int.ne_of_gt (Int.lt_succ _))
  · rintro rfl acts s ran
    exact safeVoting_of_faultFree (run_faultFree calm (protocol_lawful cfg) ran)

theorem safe_voting_iff_fault_free_sample :
    (∀ acts s, Run.exec (System.step ∅) (protocol sampleConfig).initial acts = some s →
      SafeVoting sampleConfig s) ∧
    ¬ ∀ acts s, Run.exec (System.step {2}) (protocol sampleConfig).initial acts = some s →
      SafeVoting sampleConfig s :=
  ⟨(safe_voting_iff_fault_free sampleConfig ⟨rfl, rfl⟩ ∅ ⟨1, by decide⟩).mpr rfl,
    fun safe => absurd ((safe_voting_iff_fault_free sampleConfig ⟨rfl, rfl⟩ {2}
      ⟨1, by decide⟩).mp safe) (by decide)⟩

/-- Replica 2 sends two proposals of its own for view 1 and slot 0. -/
def rivalProposal (n : UInt8) : Proposal :=
  { sampleProposal {} 0 n with sender := 2 }

/-- Replica 1 votes for both, although the leader of the view is replica 1 itself. -/
theorem votes_for_two_rivals :
    ∃ s, Run.exec (System.step {2}) (protocol sampleConfig).initial
        [.inject ⟨1, .newProposal (rivalProposal 1)⟩, .inject ⟨1, .newProposal (rivalProposal 2)⟩,
          .deliver ⟨1, .newProposal (rivalProposal 1)⟩,
          .deliver ⟨1, .newProposal (rivalProposal 2)⟩] = some s ∧
      s.voted = [(1, rivalProposal 1), (1, rivalProposal 2)] ∧
      (rivalProposal 1).hash ≠ (rivalProposal 2).hash ∧ ¬ SafeVoting sampleConfig s := by
  have result : (Run.exec (System.step {2}) (protocol sampleConfig).initial
      [.inject ⟨1, .newProposal (rivalProposal 1)⟩, .inject ⟨1, .newProposal (rivalProposal 2)⟩,
        .deliver ⟨1, .newProposal (rivalProposal 1)⟩,
        .deliver ⟨1, .newProposal (rivalProposal 2)⟩]).map System.voted =
      some [(1, rivalProposal 1), (1, rivalProposal 2)] := by decide
  obtain ⟨s, ran, voted⟩ := Option.map_eq_some_iff.mp result
  refine ⟨s, ran, voted, by decide, ?_⟩
  rintro ⟨-, once⟩
  rw [voted] at once
  exact absurd once (by decide)

end ResDB.TdHotstuff
