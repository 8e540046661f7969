import Mathlib.Tactic
import ResDB.HotStuff.ViewGapFree
import ResDB.HotStuff.ViewVoting

/-! Agreement of HotStuff under Byzantine replicas. `VerifyQC` counts signatures and not
signers, so that one Byzantine replica can certify what it likes. In runs in which the
accepted proposals are properly certified, and no replica votes twice in a view, three
consecutive views protect what is committed. -/
namespace ResDB.Hs
open HotStuff
open HotStuff.ViewSystem (Honest Authentic Accepts)

def Link (s : ViewSystem) (child father : Bytes) : Prop :=
  ∃ vote ∈ s.voted, vote.2.hash = child ∧ vote.2.header.prehash = father

def Descends (s : ViewSystem) : Bytes → Bytes → Prop := Relation.ReflTransGen (Link s)

/-- What HotStuff commits on: three voted blocks in consecutive views, the topmost of them
certified. -/
structure Triple (P : ViewProtocol) (byz : Finset Int) (s : ViewSystem) (id : Int)
    (low middle top : Proposal) : Prop where
  votedLow : (id, low) ∈ s.voted
  votedMiddle : (id, middle) ∈ s.voted
  votedTop : (id, top) ∈ s.voted
  lower : middle.header.prehash = low.hash
  upper : top.header.prehash = middle.hash
  lowerView : middle.header.view = low.header.view + 1
  upperView : top.header.view = middle.header.view + 1
  quorum : Quorum P byz s top.hash

def Decided (P : ViewProtocol) (byz : Finset Int) (s : ViewSystem) (id : Int) (q : Proposal) :
    Prop :=
  ∃ low middle top, Triple P byz s id low middle top ∧ Descends s low.hash q.hash

section Commits
variable {P : ViewProtocol} {byz : Finset Int} {s s' : ViewSystem}

theorem Descends.mono (more : s.voted ⊆ s'.voted) {child ancestor : Bytes}
    (path : Descends s child ancestor) : Descends s' child ancestor := by
  refine Relation.ReflTransGen.mono ?_ _ _ path
  rintro a b ⟨vote, cast, facts⟩
  exact ⟨vote, more cast, facts⟩

theorem Decided.mono (more : s.voted ⊆ s'.voted) {id : Int} {q : Proposal}
    (decided : Decided P byz s id q) : Decided P byz s' id q := by
  obtain ⟨low, middle, top, chain, path⟩ := decided
  exact ⟨low, middle, top,
    { chain with
      votedLow := more chain.votedLow
      votedMiddle := more chain.votedMiddle
      votedTop := more chain.votedTop
      quorum := chain.quorum.mono more }, path.mono more⟩

theorem commitFrom_triple {find : Bytes → Option Proposal} {p father : Proposal} {hash : Bytes}
    (choice : commitFrom 0 find p father = some hash) :
    ∃ fafather fafafather, find father.header.prehash = some fafather ∧
      find fafather.header.prehash = some fafafather ∧
      fafather.header.view = father.header.view - 1 ∧
      fafafather.header.view = fafather.header.view - 1 ∧ hash = fafather.header.prehash := by
  unfold commitFrom at choice
  split at choice
  · cases choice
  · rename_i fafather second
    split_ifs at choice with near
    split at choice
    · cases choice
    · rename_i fafafather third
      split_ifs at choice with nearer
      cases choice
      exact ⟨fafather, fafafather, second, third, near.resolve_right (lt_irrefl _), nearer, rfl⟩

theorem descends_of_reaches (record : VoteRecord P byz s) {id : Int} {start key : Bytes}
    (path : ProposalManager.Reaches (s.replica id).manager.getProposal start key) :
    Descends s start key := by
  refine Relation.ReflTransGen.mono ?_ _ _ path
  rintro a b ⟨c, found, rfl⟩
  obtain ⟨hash, cast⟩ := record.stored id a c found
  exact ⟨(id, c), cast, hash, rfl⟩

theorem decided_new (rule : P.commitFrom = commitFrom 0) (record : VoteRecord P byz s)
    (after : VoteRecord P byz s') {id : Int} {p q : Proposal}
    (accepts : Accepts P byz s id p s')
    (committed : q ∈ ((s.replica id).manager.addProposalWith P.commitFrom p).2) :
    Decided P byz s' id q := by
  obtain ⟨left, -, ⟨-, nothing, -⟩ | ⟨father, hash, found, choice, walk⟩⟩ :=
    ProposalManager.addProposalWith_walk P.commitFrom (s.replica id).manager p
  · rw [nothing] at committed
    cases committed
  · rw [rule] at choice
    obtain ⟨fafather, fafafather, second, third, near, nearer, rfl⟩ := commitFrom_triple choice
    obtain ⟨hash, cast⟩ := record.stored id _ _ found
    obtain ⟨hash', cast'⟩ := record.stored id _ _ second
    obtain ⟨hash'', cast''⟩ := record.stored id _ _ third
    have keyed : ProposalManager.Keyed (s.replica id).manager.localBlock :=
      fun key q stored => (record.stored id key q stored).1.symm
    have path := descends_of_reaches record (walk.reached keyed q committed).2
    -- The father is certified by the proposal that triggers the commit.
    have quorum : Quorum P byz s' father.hash := by
      rcases after.founded id p accepts.cast with first | ⟨b, back⟩
      · rw [first.2] at hash
        exact absurd hash (record.hash_ne cast)
      · rw [hash, ← back.hash]
        exact back.quorum
    refine ⟨fafafather, fafather, father, ?_, ?_⟩
    · refine ⟨accepts.more cast'', accepts.more cast', accepts.more cast, hash''.symm, hash'.symm,
        ?_, ?_, quorum⟩
      · omega
      · omega
    · rw [hash'']
      exact path.mono accepts.more

theorem decided_step (calm : P.Calm) (rule : P.commitFrom = commitFrom 0)
    (record : VoteRecord P byz s) (after : VoteRecord P byz s')
    (decided : ∀ j, ∀ q ∈ (s.replica j).commitQ, Decided P byz s j q) {a : ViewAction}
    (taken : s.step P byz a = some s') :
    ∀ j, ∀ q ∈ (s'.replica j).commitQ, Decided P byz s' j q := by
  intro j q member
  rcases ViewSystem.step_accepts_or_keeps calm taken with ⟨id, p, rfl, accepts⟩ | kept
  · by_cases here : j = id
    · subst here
      rw [accepts.own.commits] at member
      cases List.mem_append.mp member with
      | inl old => exact (decided j q old).mono accepts.more
      | inr new => exact decided_new rule record after accepts (List.mem_reverse.mp new)
    · rw [accepts.others j here] at member
      exact (decided j q member).mono accepts.more
  · rw [(kept.replica j).commits] at member
    refine (decided j q member).mono ?_
    rw [kept.voted]
    exact List.Subset.refl _

theorem voted_grows (calm : P.Calm) {a : ViewAction} (taken : s.step P byz a = some s') :
    s.voted ⊆ s'.voted := by
  rcases ViewSystem.step_accepts_or_keeps calm taken with ⟨id, p, rfl, accepts⟩ | kept
  · exact accepts.more
  · rw [kept.voted]
    exact List.Subset.refl _

theorem run_decided (calm : P.Calm) (rule : P.commitFrom = commitFrom 0) {acts : List ViewAction}
    (ran : Run.exec (ViewSystem.step P byz) {} acts = some s)
    (careful : Run.Along (ViewSystem.step P byz) (Careful P) {} acts)
    (free : CollisionFree P.crypto P.codec s.proposals) :
    VoteRecord P byz s ∧ ∀ j, ∀ q ∈ (s.replica j).commitQ, Decided P byz s j q := by
  have inv : Authentic P byz s ∧ (CollisionFree P.crypto P.codec s.proposals →
      VoteRecord P byz s ∧ ∀ j, ∀ q ∈ (s.replica j).commitQ, Decided P byz s j q) := by
    refine Run.exec_invariant (fun s a s' (inv : Authentic P byz s ∧
      (CollisionFree P.crypto P.codec s.proposals →
        VoteRecord P byz s ∧ ∀ j, ∀ q ∈ (s.replica j).commitQ, Decided P byz s j q))
      careful taken => ?_) ⟨ViewSystem.initial_authentic P byz, ?_⟩ careful ran
    · refine ⟨inv.1.step calm taken, ?_⟩
      intro free
      have before : CollisionFree P.crypto P.codec s.proposals := by
        have more := List.map_subset Prod.snd (voted_grows calm taken)
        exact fun p hp q hq => free p (more hp) q (more hq)
      obtain ⟨record, decided⟩ := inv.2 before
      have after := record.step calm inv.1 free careful taken
      exact ⟨after, decided_step calm rule record after decided taken⟩
    · intro _
      refine ⟨initial_voteRecord P byz, ?_⟩
      intro j q member
      cases member
  exact inv.2 free

end Commits

/-! ### Agreement -/

section Agreement
variable {P : ViewProtocol} {byz : Finset Int} {s : ViewSystem} (record : VoteRecord P byz s)
  (free : CollisionFree P.crypto P.codec s.proposals)

include record free in
theorem Triple.descends (size : P.totalNum = 3 * P.f + 1) (few : byz.card ≤ P.f) {i j : Int}
    {low middle top low' middle' top' : Proposal} (chain : Triple P byz s i low middle top)
    (chain' : Triple P byz s j low' middle' top') (below : low.header.view ≤ low'.header.view) :
    Descends s low'.hash low.hash := by
  have headTop := headerOf_voted record free chain.votedTop
  have headMiddle := headerOf_voted record free chain.votedMiddle
  have headLow := headerOf_voted record free chain.votedLow
  have headLow' := headerOf_voted record free chain'.votedLow
  have certifiedMiddle := record.father_certified chain.votedTop chain.votedMiddle chain.upper
  have certifiedLow := record.father_certified chain.votedMiddle chain.votedLow chain.lower
  have certifiedLow' := record.father_certified chain'.votedMiddle chain'.votedLow chain'.lower
  have path := (record.guarded free size few).descends chain.quorum
    (by simpa only [headTop, chain.upper] using certifiedMiddle)
    (by simpa only [headTop, chain.upper, headMiddle, chain.lower] using certifiedLow)
    (by simpa only [headTop, chain.upper, headMiddle] using chain.upperView)
    (by simpa only [headTop, chain.upper, headMiddle, chain.lower, headLow] using chain.lowerView)
    certifiedLow'
    (by simpa only [headTop, chain.upper, headMiddle, chain.lower, headLow, headLow'] using below)
  simp only [headTop, chain.upper, headMiddle, chain.lower] at path
  refine Relation.ReflTransGen.mono ?_ _ _ path
  rintro a b ⟨certified, rfl, -⟩
  obtain ⟨k, p, cast, rfl⟩ := certified.voter few
  exact ⟨(k, p), cast, rfl, (congrArg Header.prehash (headerOf_voted record free cast)).symm⟩

include record free in
theorem link_rightUnique : Relator.RightUnique (Link s) := by
  rintro a b c ⟨vote, cast, rfl, rfl⟩ ⟨vote', cast', same, rfl⟩
  rw [header_eq free record.hashed cast' cast same]

end Agreement

/-- Agreement. With `3 f + 1` replicas of which at most `f` are Byzantine, in a run in which
every proposal that an honest replica accepts was voted for before, or is of a higher view
than all these and starts a chain or carries a certificate of `2 f + 1` distinct replicas for
its stored father, any two committed blocks lie on one chain. -/
theorem commits_on_one_chain (cfg : Config) (calm : cfg.forkTailNum = 0)
    (size : cfg.totalNum = 3 * cfg.f + 1) (byz : Finset Int) (few : byz.card ≤ cfg.f)
    (acts : List ViewAction) (s : ViewSystem)
    (ran : Run.exec (ViewSystem.step (viewProtocol cfg) byz) {} acts = some s)
    (careful : Run.Along (ViewSystem.step (viewProtocol cfg) byz) (Careful (viewProtocol cfg)) {}
      acts)
    (free : CollisionFree cfg.crypto cfg.codec s.proposals) (i j : Int) :
    ∀ p ∈ (s.replica i).commitQ, ∀ q ∈ (s.replica j).commitQ,
      Descends s p.hash q.hash ∨ Descends s q.hash p.hash := by
  have rule : (viewProtocol cfg).commitFrom = commitFrom 0 := congrArg commitFrom calm
  obtain ⟨record, decided⟩ := run_decided (viewProtocol_calm calm) rule ran careful free
  intro p committed q committed'
  obtain ⟨low, middle, top, chain, path⟩ := decided i p committed
  obtain ⟨low', middle', top', chain', path'⟩ := decided j q committed'
  have unique := link_rightUnique record free
  -- Both are ancestors of the higher one of the two blocks they were committed with.
  rcases le_total low.header.view low'.header.view with below | below
  · have whole := (chain.descends record free size few chain' below).trans path
    exact (Relation.ReflTransGen.total_of_right_unique unique whole path')
  · have whole := (chain'.descends record free size few chain below).trans path'
    exact Relation.ReflTransGen.total_of_right_unique unique path whole

/-! ### Sample runs with replica 4 as the Byzantine one -/

def sampleConfig : Config := ⟨.sample, .sample, 4, 1, 0⟩

/-- Replica 4 leads view 3 and proposes as it should. -/
def faultyLeader : List ViewAction :=
  wholeView 1 firstBlock [1, 2, 3] ++
    [ViewAction.transaction 3 0 { data := [2] }, .send 3 0] ++
    [1, 2, 3].map (fun id => ViewAction.deliver ⟨id, .newProposal secondBlock⟩) ++
    [1, 2, 3].map (fun id => ViewAction.inject ⟨id, .newProposal thirdBlock⟩) ++
    [1, 2, 3].map (fun id => ViewAction.deliver ⟨id, .newProposal thirdBlock⟩) ++
    [1, 2, 3].map (fun id => ViewAction.deliver ⟨1, .vote (viewVote id thirdBlock)⟩) ++
    wholeView 4 fourthBlock [1, 2, 3] ++
    [ViewAction.transaction 2 0 { data := [5] }, .send 2 0, .deliver ⟨1, .newProposal fifthBlock⟩]

theorem commits_on_one_chain_sample : ∃ s,
    Run.exec (ViewSystem.step (viewProtocol sampleConfig) {4}) {} faultyLeader = some s ∧
      (s.replica 1).commitQ = [firstBlock, secondBlock] ∧ (s.replica 2).commitQ = [firstBlock] ∧
      ∀ p ∈ (s.replica 1).commitQ, ∀ q ∈ (s.replica 2).commitQ,
        Descends s p.hash q.hash ∨ Descends s q.hash p.hash := by
  have careful : Run.Along (ViewSystem.step (viewProtocol sampleConfig) {4})
      (Careful (viewProtocol sampleConfig)) {} faultyLeader := by decide +kernel
  have result : (Run.exec (ViewSystem.step (viewProtocol sampleConfig) {4}) {} faultyLeader).any
      (fun s => decide ((s.replica 1).commitQ = [firstBlock, secondBlock] ∧
        (s.replica 2).commitQ = [firstBlock] ∧
        CollisionFree sampleConfig.crypto sampleConfig.codec s.proposals)) = true := by
    decide +kernel
  obtain ⟨s, ran, facts⟩ := (Option.any_eq_true _ _).mp result
  obtain ⟨first, second, free⟩ := of_decide_eq_true facts
  exact ⟨s, ran, first, second, commits_on_one_chain sampleConfig rfl rfl {4} (by decide)
    faultyLeader s ran careful free 1 2⟩

def forgedQC (p : Proposal) : QC :=
  { hash := p.hash
    view := p.header.view
    signatures := List.replicate 3 (Crypto.sample.signMessage 4 p.hash) }

/-- Four blocks that nobody but replica 4 has signed. -/
def forgedChain (n : UInt8) : List Proposal :=
  let first := viewProposal 4 1 {} n
  let second := viewProposal 4 2 (forgedQC first) n
  let third := viewProposal 4 3 (forgedQC second) n
  [first, second, third, viewProposal 4 4 (forgedQC third) n]

def sendForged (id : Int) (n : UInt8) : List ViewAction :=
  (forgedChain n).map (fun p => ViewAction.inject ⟨id, .newProposal p⟩) ++
    (forgedChain n).map (fun p => ViewAction.deliver ⟨id, .newProposal p⟩)

theorem not_descends {s : ViewSystem} {child ancestor : Bytes}
    (roots : ∀ vote ∈ s.voted, vote.2.hash = child → vote.2.header.prehash = [])
    (named : ∀ vote ∈ s.voted, vote.2.hash ≠ []) (other : child ≠ ancestor)
    (real : ancestor ≠ []) : ¬ Descends s child ancestor := by
  intro path
  obtain same | ⟨b, ⟨vote, cast, hash, rfl⟩, rest⟩ := path.cases_head
  · exact other same
  · rw [roots vote cast hash] at rest
    obtain same | ⟨c, ⟨vote', cast', hash', -⟩, -⟩ := rest.cases_head
    · exact real same.symm
    · exact named vote' cast' hash'

/-- Replica 4 repeats its own signature in all certificates and leads replicas 1 and 2 to
commit blocks of different chains. -/
theorem repeated_signature_splits : ∃ s p q,
    Run.exec (ViewSystem.step (viewProtocol sampleConfig) {4}) {}
        (sendForged 1 1 ++ sendForged 2 2) = some s ∧
      CollisionFree sampleConfig.crypto sampleConfig.codec s.proposals ∧
      p ∈ (s.replica 1).commitQ ∧ q ∈ (s.replica 2).commitQ ∧
      ¬ (Descends s p.hash q.hash ∨ Descends s q.hash p.hash) := by
  have result : (Run.exec (ViewSystem.step (viewProtocol sampleConfig) {4}) {}
      (sendForged 1 1 ++ sendForged 2 2)).any (fun s => decide (
        CollisionFree sampleConfig.crypto sampleConfig.codec s.proposals ∧
        viewProposal 4 1 {} 1 ∈ (s.replica 1).commitQ ∧
        viewProposal 4 1 {} 2 ∈ (s.replica 2).commitQ ∧
        (∀ vote ∈ s.voted, vote.2.hash = (viewProposal 4 1 {} 1).hash →
          vote.2.header.prehash = []) ∧
        (∀ vote ∈ s.voted, vote.2.hash = (viewProposal 4 1 {} 2).hash →
          vote.2.header.prehash = []) ∧
        ∀ vote ∈ s.voted, vote.2.hash ≠ [])) = true := by
    decide +kernel
  obtain ⟨s, ran, facts⟩ := (Option.any_eq_true _ _).mp result
  obtain ⟨free, first, second, rootsFirst, rootsSecond, named⟩ := of_decide_eq_true facts
  refine ⟨s, _, _, ran, free, first, second, ?_⟩
  rintro (path | path)
  · exact not_descends rootsFirst named (by decide) (by decide) path
  · exact not_descends rootsSecond named (by decide) (by decide) path

end ResDB.Hs
