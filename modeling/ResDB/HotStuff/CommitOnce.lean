import Mathlib.Tactic
import ResDB.HotStuff.CertifiedCommit

/-! How often a block is committed. `FetchProposal` forgets what it hands out, and nothing
else remembers it: a block that is stored again is committed again. -/
namespace ResDB.HotStuff
open ProposalManager (Keyed Fetched Reaches)

/-- What a call of `AddProposal` hands out is stored below the proposal, without repetition,
and is not stored any more afterwards. -/
structure ChainedProtocol.Spends (P : ChainedProtocol) : Prop where
  reached : ∀ m p, Keyed m.localBlock → ∀ b ∈ (P.addProposal m p).2,
    (m.localBlock.find b.hash).isSome = true ∧ Reaches m.localBlock.find p.header.prehash b.hash
  distinct : ∀ m p, Keyed m.localBlock → ((P.addProposal m p).2.map Proposal.hash).Nodup
  kept : ∀ m p key q, Keyed m.localBlock → (P.addProposal m p).1.localBlock.find key = some q →
    (key = p.hash ∧ q = p) ∨
      m.localBlock.find key = some q ∧ key ∉ (P.addProposal m p).2.map Proposal.hash
  certificate : ∀ m qc, (P.addQC m qc).localBlock = m.localBlock

theorem ChainedProtocol.Spends.ofRule {P : ChainedProtocol}
    {commitFrom : (Bytes → Option Proposal) → Proposal → Proposal → Option Bytes}
    (same : P.addProposal = ProposalManager.addProposalWith commitFrom)
    (rule : ∀ find p father hash, find p.header.prehash = some father →
      commitFrom find p father = some hash → Reaches find p.header.prehash hash)
    (law : P.Lawful) : P.Spends where
  reached m p keyed b member := by
    rw [same] at member
    obtain ⟨left, -, ⟨-, nothing, -⟩ | ⟨father, hash, found, choice, walk⟩⟩ :=
      ProposalManager.addProposalWith_walk commitFrom m p
    · rw [nothing] at member
      cases member
    · obtain ⟨stored, path⟩ := walk.reached keyed b member
      exact ⟨by rw [stored]; rfl, (rule _ p father hash found choice).trans path⟩
  distinct m p keyed := by
    rw [same]
    obtain ⟨left, -, ⟨-, nothing, -⟩ | ⟨father, hash, -, -, walk⟩⟩ :=
      ProposalManager.addProposalWith_walk commitFrom m p
    · rw [nothing]
      exact List.nodup_nil
    · exact walk.nodup keyed
  kept m p key q keyed found := by
    rw [same] at found ⊢
    obtain ⟨left, blocks, outcome⟩ := ProposalManager.addProposalWith_walk commitFrom m p
    rw [blocks, AssocMap.find_set] at found
    split_ifs at found with own
    · cases found
      exact .inl ⟨own, rfl⟩
    · right
      rcases outcome with ⟨-, nothing, rfl⟩ | ⟨father, hash, -, -, walk⟩
      · rw [nothing]
        exact ⟨found, List.not_mem_nil⟩
      · rw [walk.find keyed] at found
        split_ifs at found with spent
        exact ⟨found, spent⟩
  certificate := law.certificate

theorem chained_spends (P : SlotProtocol) (id : Int) : (P.chained id).Spends where
  reached m p keyed b member := by
    change b ∈ ((m.addProposal p).2.map (P.stampPrimary p)).toList at member
    rw [ProposalManager.addProposal_commit] at member
    obtain ⟨father, found, rfl⟩ := Option.map_eq_some_iff.mp (Option.mem_toList.mp member)
    rw [stampPrimary_hash, ← keyed _ father found]
    exact ⟨by rw [ProposalManager.getProposal] at found; rw [found]; rfl, .refl⟩
  distinct m p _ := by
    change (((m.addProposal p).2.map (P.stampPrimary p)).toList.map Proposal.hash).Nodup
    cases (m.addProposal p).2 with
    | none => exact List.nodup_nil
    | some father => exact List.nodup_singleton _
  kept m p key q keyed found := by
    change (m.addProposal p).1.getProposal key = some q at found
    rw [ProposalManager.addProposal_find] at found
    split_ifs at found with own father
    · cases found
      exact .inl ⟨own, rfl⟩
    · refine .inr ⟨found, ?_⟩
      change key ∉ ((m.addProposal p).2.map (P.stampPrimary p)).toList.map Proposal.hash
      rw [ProposalManager.addProposal_commit]
      intro spent
      obtain ⟨b, member, rfl⟩ := List.mem_map.mp spent
      obtain ⟨a, hit, rfl⟩ := Option.map_eq_some_iff.mp (Option.mem_toList.mp member)
      exact father (by rw [stampPrimary_hash, ← keyed _ a hit])
  certificate := addQC_localBlock id

theorem Chained.spends {P : ChainedProtocol} (chained : Chained P) : P.Spends := by
  cases chained with
  | tdHotstuff cfg id => exact chained_spends (TdHotstuff.protocol cfg) id
  | slotHs1 cfg id => exact chained_spends (SlotHs1.protocol cfg) id
  | hs cfg => exact .ofRule rfl (fun _ _ _ _ => Hs.commitFrom_reaches) (Hs.protocol_lawful cfg)
  | hs1 cfg => exact .ofRule rfl (fun _ _ _ _ => Hs1.commitFrom_reaches) (Hs1.protocol_lawful cfg)
  | hs2 cfg => exact .ofRule rfl (fun _ _ _ _ => Hs2.commitFrom_reaches) (Hs2.protocol_lawful cfg)

/-- The hashes in the order in which they were pushed to `commit_q_`. -/
def ChainedReplica.committedHashes (r : ChainedReplica) : List Bytes :=
  r.commits.map (fun commit => commit.2.hash)

/-- The rank grows along the links, so that no block is its own ancestor. -/
def Ranked (rank : Bytes → ℕ) (ps : List Proposal) : Prop :=
  ∀ p ∈ ps, p.header.prehash ≠ [] → rank p.header.prehash < rank p.hash

instance (rank : Bytes → ℕ) (ps : List Proposal) : Decidable (Ranked rank ps) :=
  inferInstanceAs (Decidable (∀ p ∈ ps, _))

/-- The hash links have no cycle, as a digest function without one guarantees. -/
def Acyclic (ps : List Proposal) : Prop := ∃ rank, Ranked rank ps

/-- An accepted proposal is none that has been committed before. -/
def Fresh (P : ChainedProtocol) (r : ChainedReplica) : ChainedEvent → Prop
  | .proposal p => P.verify r.manager p = true → p.hash ∉ r.committedHashes
  | .certificate _ => True

instance (P : ChainedProtocol) (r : ChainedReplica) : (e : ChainedEvent) → Decidable (Fresh P r e)
  | .proposal p => inferInstanceAs (Decidable (P.verify r.manager p = true → _))
  | .certificate _ => .isTrue trivial

/-- A committed block is not stored, and none is committed twice. -/
structure Spent (r : ChainedReplica) : Prop where
  stored : ∀ key q, r.manager.localBlock.find key = some q → key = q.hash ∧ q ∈ r.accepted
  named : ∀ a ∈ r.accepted, a.hash ≠ []
  apart : ∀ key q, r.manager.localBlock.find key = some q → key ∉ r.committedHashes
  once : r.committedHashes.Nodup

theorem initial_spent : Spent {} := by
  constructor
  · intro key q found
    cases found
  · intro a member
    cases member
  · intro key q found
    cases found
  · exact List.nodup_nil

section Runs
variable {P : ChainedProtocol} {r r' : ChainedReplica} {rank : Bytes → ℕ}

theorem Spent.keyed (inv : Spent r) : Keyed r.manager.localBlock :=
  fun key q found => (inv.stored key q found).1

theorem Spent.rank_le (inv : Spent r) (ranked : Ranked rank r.accepted) {start key : Bytes}
    (path : Reaches r.manager.localBlock.find start key) : key = [] ∨ rank key ≤ rank start := by
  induction path with
  | refl => exact .inr le_rfl
  | @tail key below _ last ih =>
      obtain ⟨c, found, rfl⟩ := last
      obtain ⟨same, known⟩ := inv.stored key c found
      by_cases root : c.header.prehash = []
      · exact .inl root
      · right
        have link := ranked c known root
        have above := ih.resolve_left (same ▸ inv.named c known)
        rw [← same] at link
        exact (link.trans_le above).le

theorem Spent.not_own (law : P.Spends) (inv : Spent r) {p : Proposal}
    (ranked : Ranked rank (r.accepted ++ [p])) (named : p.hash ≠ []) :
    p.hash ∉ (P.addProposal r.manager p).2.map Proposal.hash := by
  intro own
  obtain ⟨b, member, same⟩ := List.mem_map.mp own
  obtain ⟨-, path⟩ := law.reached r.manager p inv.keyed b member
  rw [same] at path
  have older : Ranked rank r.accepted := fun a known => ranked a (List.mem_append_left _ known)
  have link := ranked p (List.mem_append_right _ (List.mem_singleton_self p))
  rcases inv.rank_le older path with nothing | below
  · exact named nothing
  · by_cases root : p.header.prehash = []
    · -- Nothing is stored under the empty hash, so the walk ends where it starts.
      rw [root] at path
      rcases path.cases_head with stay | ⟨_, ⟨c, found, -⟩, -⟩
      · exact named stay.symm
      · obtain ⟨empty, known⟩ := inv.stored [] c found
        exact inv.named c known empty.symm
    · exact absurd below (Nat.not_le_of_lt (link root))

theorem Spent.accept (law : P.Spends) (inv : Spent r) {p : Proposal}
    (accept : P.verify r.manager p = true) (fresh : p.hash ∉ r.committedHashes)
    (ranked : Ranked rank (r.accepted ++ [p])) :
    Spent
      { manager := (P.addProposal r.manager p).1
        accepted := r.accepted ++ [p]
        commits := r.commits ++
          (P.addProposal r.manager p).2.reverse.map (fun b => (p, b)) } := by
  have named : p.hash ≠ [] := by
    rw [verifyWith_hash accept]
    exact getHash_ne_nil P.crypto P.codec p
  have pushed : ChainedReplica.committedHashes
      { manager := (P.addProposal r.manager p).1
        accepted := r.accepted ++ [p]
        commits := r.commits ++
          (P.addProposal r.manager p).2.reverse.map (fun b => (p, b)) } =
      r.committedHashes ++ ((P.addProposal r.manager p).2.map Proposal.hash).reverse := by
    simp [ChainedReplica.committedHashes, Function.comp_def]
  constructor
  · intro key q found
    rcases law.kept _ _ _ _ inv.keyed found with ⟨rfl, rfl⟩ | ⟨old, -⟩
    · exact ⟨rfl, List.mem_append_right _ (List.mem_singleton_self _)⟩
    · obtain ⟨same, known⟩ := inv.stored key q old
      exact ⟨same, List.mem_append_left _ known⟩
  · intro a member
    rcases List.mem_append.mp member with old | new
    · exact inv.named a old
    · rw [List.mem_singleton.mp new]
      exact named
  · intro key q found
    rw [pushed, List.mem_append, List.mem_reverse, not_or]
    rcases law.kept _ _ _ _ inv.keyed found with ⟨rfl, rfl⟩ | ⟨old, unspent⟩
    · exact ⟨fresh, inv.not_own law ranked named⟩
    · exact ⟨inv.apart key q old, unspent⟩
  · rw [pushed]
    refine List.Nodup.append inv.once (List.nodup_reverse.mpr (law.distinct _ _ inv.keyed)) ?_
    intro hash before now
    obtain ⟨b, member, rfl⟩ := List.mem_map.mp (List.mem_reverse.mp now)
    obtain ⟨q, stored⟩ := Option.isSome_iff_exists.mp (law.reached _ _ inv.keyed b member).1
    exact inv.apart b.hash q stored before

theorem accepted_mono {e : ChainedEvent} (taken : P.step r e = some r') :
    ∀ a ∈ r.accepted, a ∈ r'.accepted := by
  intro a known
  cases e with
  | proposal p =>
      simp only [ChainedProtocol.step] at taken
      split_ifs at taken
      · cases taken
        exact List.mem_append_left _ known
      · cases taken
        exact known
  | certificate qc =>
      cases taken
      exact known

theorem Spent.step (law : P.Spends) (inv : Spent r) {e : ChainedEvent} (fresh : Fresh P r e)
    (ranked : Ranked rank r'.accepted) (taken : P.step r e = some r') : Spent r' := by
  cases e with
  | proposal p =>
      cases accept : P.verify r.manager p with
      | false =>
          simp only [ChainedProtocol.step, accept] at taken
          cases taken
          exact inv
      | true =>
          simp only [ChainedProtocol.step, accept, if_true] at taken
          cases taken
          exact inv.accept law accept (fresh accept) ranked
  | certificate qc =>
      cases taken
      refine ⟨?_, inv.named, ?_, inv.once⟩
      · intro key q found
        rw [law.certificate] at found
        exact inv.stored key q found
      · intro key q found
        rw [law.certificate] at found
        exact inv.apart key q found

theorem run_spent (law : P.Spends) {events : List ChainedEvent}
    (ran : Run.exec P.step {} events = some r) (fresh : Run.Along P.step (Fresh P) {} events)
    (ranked : Ranked rank r.accepted) : Spent r := by
  refine Run.exec_invariant (fun s e s' (inv : Ranked rank s.accepted → Spent s) fresh taken
    ranked => ?_) (fun _ => initial_spent) fresh ran ranked
  have older : Ranked rank s.accepted := fun a known => ranked a (accepted_mono taken a known)
  exact (inv older).step law fresh ranked taken

end Runs

/-- A replica that never accepts a proposal it has committed commits every hash at most
once. -/
theorem commits_once (P : ChainedProtocol) (chained : Chained P) (events : List ChainedEvent)
    (r : ChainedReplica) (ran : Run.exec P.step {} events = some r)
    (fresh : Run.Along P.step (Fresh P) {} events) (acyclic : Acyclic r.accepted) :
    r.committedHashes.Nodup := by
  obtain ⟨rank, ranked⟩ := acyclic
  exact (run_spent chained.spends ran fresh ranked).once

/-- The four blocks of one chain, each delivered once. -/
theorem commits_once_sample : sampleProtocols.Forall fun P => ∃ r,
    Run.exec P.step {} ((rootBlock 1 :: laterViews (rootBlock 1)).map .proposal) = some r ∧
      (rootBlock 1).hash ∈ r.committedHashes ∧ r.committedHashes.Nodup := by
  refine List.forall_iff_forall_mem.mpr ?_
  intro P member
  have result : ∀ P ∈ sampleProtocols,
      Run.Along P.step (Fresh P) {} ((rootBlock 1 :: laterViews (rootBlock 1)).map .proposal) ∧
        (Run.exec P.step {} ((rootBlock 1 :: laterViews (rootBlock 1)).map .proposal)).any
          (fun r => (rootBlock 1).hash ∈ r.committedHashes ∧
            Ranked (fun hash => (hash.getD 1 0).toNat) r.accepted) = true := by
    decide
  obtain ⟨fresh, outcome⟩ := result P member
  obtain ⟨r, ran, here⟩ := (Option.any_eq_true _ _).mp outcome
  obtain ⟨committed, ranked⟩ := of_decide_eq_true here
  exact ⟨r, ran, committed, commits_once P (sampleProtocols_chained P member) _ r ran fresh
    ⟨_, ranked⟩⟩

/-- The first `depth` blocks of a chain, then the first and the last of them once more. -/
def redelivery (depth : ℕ) : List ChainedEvent :=
  let chain := (rootBlock 1 :: laterViews (rootBlock 1)).take depth
  (chain ++ chain.take 1 ++ chain.drop (depth - 1)).map .proposal

/-- A proposal of view 1 is always accepted, so its second delivery stores it again after
its commit, and the second delivery of the block that committed it commits it again. -/
theorem redelivery_commits_twice : (sampleProtocols.zip [2, 2, 4, 2, 3]).Forall fun sample =>
    Chained sample.1 ∧ ∃ r, Run.exec sample.1.step {} (redelivery sample.2) = some r ∧
      r.committedHashes = [(rootBlock 1).hash, (rootBlock 1).hash] := by
  refine List.forall_iff_forall_mem.mpr ?_
  intro sample member
  have result : ∀ sample ∈ sampleProtocols.zip [2, 2, 4, 2, 3],
      (Run.exec sample.1.step {} (redelivery sample.2)).map ChainedReplica.committedHashes =
        some [(rootBlock 1).hash, (rootBlock 1).hash] := by
    decide
  exact ⟨sampleProtocols_chained sample.1 (List.of_mem_zip member).1,
    Option.map_eq_some_iff.mp (result sample member)⟩

end ResDB.HotStuff
