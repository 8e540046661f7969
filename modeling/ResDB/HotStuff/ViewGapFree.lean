import Mathlib.Tactic
import ResDB.HotStuff.CommitLog
import ResDB.HotStuff.OneProposal

/-! Commits of the protocols without slots when nobody is faulty. The walk of `AddProposal`
stops at the first block that is not stored, be it committed already or still on its way, so
a replica that accepts a block before its father skips the father for good. -/
namespace ResDB.HotStuff
open LinkedLog (Linked)

theorem ViewLine.viewChain {P : ViewProtocol} {ps : List Proposal} (line : ViewLine P ps)
    (free : CollisionFree P.crypto P.codec ps) : ViewChain ps where
  linked := line.linked
  views := line.views
  named p member := by
    rw [line.hashed p member]
    exact getHash_ne_nil _ _ _
  distinct := nodup_hash_of_views free line.hashed line.views

/-- The rule looks `k` blocks back: with fewer stored blocks it commits nothing. -/
structure ViewProtocol.Commits (P : ViewProtocol) (k : ℕ) : Prop where
  depth : Depth k P.commitFrom
  sparing : Sparing k P.commitFrom

theorem Unslotted.commits {P : ViewProtocol} (unslotted : Unslotted P) : ∃ k, P.Commits k := by
  cases unslotted with
  | hs cfg _ => exact ⟨3, Hs.commitFrom_depth _, Hs.commitFrom_sparing _⟩
  | hs1 cfg _ => exact ⟨1, Hs1.commitFrom_depth, Hs1.commitFrom_sparing⟩
  | hs2 cfg _ => exact ⟨2, Hs2.commitFrom_depth, Hs2.commitFrom_sparing⟩

/-- The replica has accepted the first blocks of the chain, keeps the last `k` of them and
has committed the others. -/
def Tracks (k : ℕ) (chain : List Proposal) (r : ViewReplica) : Prop :=
  ∃ m ≤ chain.length, Window chain (m - k) m r.manager.localBlock ∧ r.commitQ = chain.take (m - k)

def InPlace (P : ViewProtocol) (s : ViewSystem) : ViewAction → Prop
  | .deliver ⟨id, .newProposal p⟩ =>
      P.verify (s.replica id).manager p = true → Extends (s.replica id).manager p
  | _ => True

instance (P : ViewProtocol) (s : ViewSystem) : (a : ViewAction) → Decidable (InPlace P s a)
  | .deliver ⟨id, .newProposal p⟩ =>
      inferInstanceAs (Decidable (P.verify (s.replica id).manager p = true → _))
  | .deliver ⟨_, .vote _⟩ => .isTrue trivial
  | .transaction _ _ _ => .isTrue trivial
  | .send _ _ => .isTrue trivial
  | .inject _ => .isTrue trivial

section Chain
variable {k : ℕ} {chain : List Proposal} {r r' : ViewReplica}

theorem initial_tracks (k : ℕ) (chain : List Proposal) : Tracks k chain {} := by
  refine ⟨0, Nat.zero_le _, ?_, by simp⟩
  intro hash q
  constructor
  · intro found
    cases found
  · rintro ⟨j, -, below, -⟩
    omega

theorem Tracks.congr (tracks : Tracks k chain r)
    (blocks : r'.manager.localBlock = r.manager.localBlock) (commits : r'.commitQ = r.commitQ) :
    Tracks k chain r' := by
  unfold Tracks
  rw [blocks, commits]
  exact tracks

theorem Tracks.extend (tracks : Tracks k chain r) (p : Proposal) :
    Tracks k (chain ++ [p]) r := by
  obtain ⟨m, inside, window, commits⟩ := tracks
  refine ⟨m, ?_, window.extend inside p, ?_⟩
  · rw [List.length_append]
    omega
  · rw [commits, List.take_append_of_le_length (by omega)]

theorem Window.place_of_extends (line : ViewChain chain) {m i : ℕ} {manager : ProposalManager}
    (window : Window chain (m - k) m manager.localBlock) (positive : 1 ≤ k)
    (short : m ≤ chain.length) (inside : i < chain.length)
    (next : Extends manager chain[i]) : m - k ≤ i ∧ i ≤ m := by
  rcases next with father | ⟨empty, root⟩ | stored
  · obtain ⟨q, found⟩ := Option.isSome_iff_exists.mp father
    obtain ⟨j, rfl, low, below, -⟩ := window.father_place line inside found
    omega
  · have first : i = 0 := by
      cases i with
      | zero => rfl
      | succ i =>
          rw [line.father inside] at root
          exact absurd root (line.named _ (List.getElem_mem _))
    have bare : m = 0 := by
      by_contra some
      have hit := window.hit le_rfl (by omega) (show m - k < chain.length by omega)
      rw [(AssocMap.isEmpty_iff _).mp empty] at hit
      cases hit
    omega
  · obtain ⟨q, found, -⟩ := Option.map_eq_some_iff.mp stored
    obtain ⟨j, low, below, place, same⟩ := (window _ q).mp found
    obtain ⟨known, rfl⟩ := List.getElem?_eq_some_iff.mp place
    obtain rfl := line.index_eq known inside same
    omega

theorem Tracks.accept {P : ViewProtocol} (commits : P.Commits k) (line : ViewChain chain)
    (tracks : Tracks k chain r) {p : Proposal} (member : p ∈ chain)
    (next : Extends r.manager p)
    (blocks : r'.manager.localBlock = (r.manager.addProposalWith P.commitFrom p).1.localBlock)
    (pushed : r'.commitQ = r.commitQ ++ (r.manager.addProposalWith P.commitFrom p).2.reverse) :
    Tracks k chain r' := by
  obtain ⟨m, short, window, committed⟩ := tracks
  obtain ⟨i, inside, rfl⟩ := List.getElem_of_mem member
  have positive := commits.depth.positive
  obtain ⟨low, high⟩ := window.place_of_extends line positive short inside next
  by_cases new : i = m
  · subst new
    obtain ⟨kept, taken⟩ := commits.depth.accept line window inside
    refine ⟨i + 1, inside, ?_, ?_⟩
    · rw [blocks]
      exact kept
    · rw [pushed, committed]
      exact taken
  · obtain ⟨kept, nothing⟩ :=
      commits.sparing.repeated line window low (by omega) (by omega) inside
    refine ⟨m, short, ?_, ?_⟩
    · rw [blocks]
      exact kept
    · rw [pushed, nothing, committed, List.reverse_nil, List.append_nil]

end Chain

section Runs
variable {P : ViewProtocol} {k : ℕ} {s s' : ViewSystem}

theorem tracks_step (calm : P.Calm) (commits : P.Commits k) (inv : OneLeader P s)
    (free : CollisionFree P.crypto P.codec s.broadcasts)
    (tracks : ∀ j, Tracks k s.broadcasts (s.replica j)) {a : ViewAction} (next : InPlace P s a)
    (taken : s.step P ∅ a = some s') : ∀ j, Tracks k s.broadcasts (s'.replica j) := by
  intro j
  rcases ViewSystem.step_accepts_or_keeps calm taken with ⟨id, p, rfl, accepts⟩ | kept
  · by_cases here : j = id
    · subst here
      exact (tracks j).accept commits (inv.line.viewChain free) (inv.sent _ accepts.member)
        (next accepts.accept) accepts.own.blocks accepts.own.commits
    · rw [accepts.others j here]
      exact tracks j
  · exact (tracks j).congr (kept.replica j).blocks (kept.replica j).commits

theorem broadcasts_grow (calm : P.Calm) {byz : Finset Int} {a : ViewAction}
    (taken : s.step P byz a = some s') :
    s'.broadcasts = s.broadcasts ∨ ∃ p, s'.broadcasts = s.broadcasts ++ [p] := by
  cases ViewSystem.step_effect calm taken with
  | send honest ready => exact .inr ⟨_, rfl⟩
  | transaction _ => exact .inl rfl
  | refused _ => exact .inl rfl
  | accepted _ _ _ => exact .inl rfl
  | vote _ _ _ => exact .inl rfl
  | inject _ _ => exact .inl rfl

theorem run_tracks (calm : P.Calm) (commits : P.Commits k) {acts : List ViewAction}
    (ran : Run.exec (ViewSystem.step P ∅) {} acts = some s)
    (orderly : Run.Along (ViewSystem.step P ∅) (fun s a => FreshVote P s a ∧ InPlace P s a) {} acts)
    (free : CollisionFree P.crypto P.codec s.broadcasts) :
    ∀ j, Tracks k s.broadcasts (s.replica j) := by
  have inv : OneLeader P s ∧ (CollisionFree P.crypto P.codec s.broadcasts →
      ∀ j, Tracks k s.broadcasts (s.replica j)) := by
    refine Run.exec_invariant (fun s a s' (inv : OneLeader P s ∧
      (CollisionFree P.crypto P.codec s.broadcasts → ∀ j, Tracks k s.broadcasts (s.replica j)))
      (cond : FreshVote P s a ∧ InPlace P s a) taken => ?_)
      ⟨initial_oneLeader P, fun _ _ => initial_tracks k []⟩ orderly ran
    refine ⟨inv.1.step calm cond.1 taken, ?_⟩
    intro free j
    rcases broadcasts_grow calm taken with same | ⟨p, grown⟩
    · rw [same] at free ⊢
      exact tracks_step calm commits inv.1 free (inv.2 free) cond.2 taken j
    · rw [grown] at free ⊢
      have before : CollisionFree P.crypto P.codec s.broadcasts := fun p hp q hq =>
        free p (List.mem_append_left _ hp) q (List.mem_append_left _ hq)
      exact (tracks_step calm commits inv.1 before (inv.2 before) cond.2 taken j).extend p
  exact inv.2 free

end Runs

/-- In a fault-free run without repeated votes in which every accepted proposal extends what
its replica stores, each commit links to the one before it and the first has no predecessor,
and all replicas number the same transactions alike. -/
theorem commits_follow_chain (P : ViewProtocol) (unslotted : Unslotted P) (acts : List ViewAction)
    (s : ViewSystem) (ran : Run.exec (ViewSystem.step P ∅) {} acts = some s)
    (orderly : Run.Along (ViewSystem.step P ∅) (fun s a => FreshVote P s a ∧ InPlace P s a) {} acts)
    (free : CollisionFree P.crypto P.codec s.broadcasts) :
    (∀ j, Linked Proposal.hash (fun p => p.header.prehash) [] (s.replica j).commitQ) ∧
    ∀ i j, asyncCommit (s.replica i).commitQ <+: asyncCommit (s.replica j).commitQ ∨
      asyncCommit (s.replica j).commitQ <+: asyncCommit (s.replica i).commitQ := by
  obtain ⟨k, commits⟩ := unslotted.commits
  have tracks := run_tracks unslotted.calm commits ran orderly free
  have along : ∀ j, (s.replica j).commitQ <+: s.broadcasts := by
    intro j
    obtain ⟨m, -, -, committed⟩ := tracks j
    rw [committed]
    exact List.take_prefix _ _
  have fresh := orderly.imp (fun _ _ both => both.1)
  have linked := (run_oneLeader unslotted.calm ran fresh).line.linked
  constructor
  · intro j
    obtain ⟨more, whole⟩ := along j
    rw [← whole] at linked
    exact (LinkedLog.linked_append.mp linked).1
  · intro i j
    exact (List.prefix_or_prefix_of_prefix (along i) (along j)).imp asyncCommit_prefix
      asyncCommit_prefix

/-! ### Sample runs -/

/-- The proposal on top of another one, by the leader of the next view. -/
def nextBlock (p : Proposal) (n : UInt8) : Proposal :=
  viewProposal (roundRobin 4 (p.header.view + 1)) (p.header.view + 1) (viewQC p) n

/-- A leader proposes, the proposal reaches some replicas, and the votes of replicas 1, 2
and 3 reach the next leader. -/
def wholeView (n : UInt8) (p : Proposal) (receivers : List Int) : List ViewAction :=
  .transaction p.sender 0 { data := [n] } :: .send p.sender 0 ::
    receivers.map (fun id => .deliver ⟨id, .newProposal p⟩) ++
    [1, 2, 3].map (fun id => .deliver
      ⟨roundRobin 4 (p.header.view + 1), .vote (viewVote id p)⟩)

def secondBlock : Proposal := nextBlock firstBlock 2
def thirdBlock : Proposal := nextBlock secondBlock 3
def fourthBlock : Proposal := nextBlock thirdBlock 4
def fifthBlock : Proposal := nextBlock fourthBlock 5

/-- Five views. The first proposal reaches the replicas listed. -/
def fiveViews (first : List Int) : List ViewAction :=
  wholeView 1 firstBlock first ++ wholeView 2 secondBlock [1, 2, 3, 4] ++
    wholeView 3 thirdBlock [1, 2, 3, 4] ++ wholeView 4 fourthBlock [1, 2, 3, 4] ++
    [.transaction 2 0 { data := [5] }, .send 2 0, .deliver ⟨1, .newProposal fifthBlock⟩,
      .deliver ⟨4, .newProposal fifthBlock⟩]

theorem commits_follow_chain_five : sampleUnslotted.Forall fun P => ∃ s,
    Run.exec (ViewSystem.step P ∅) {} (fiveViews [1, 2, 3, 4]) = some s ∧
      (s.replica 4).commitQ.take 2 = [firstBlock, secondBlock] ∧
      ((∀ j, Linked Proposal.hash (fun p => p.header.prehash) [] (s.replica j).commitQ) ∧
      ∀ i j, asyncCommit (s.replica i).commitQ <+: asyncCommit (s.replica j).commitQ ∨
        asyncCommit (s.replica j).commitQ <+: asyncCommit (s.replica i).commitQ) := by
  refine List.forall_iff_forall_mem.mpr ?_
  intro P member
  have result : ∀ P ∈ sampleUnslotted,
      Run.Along (ViewSystem.step P ∅) (fun s a => FreshVote P s a ∧ InPlace P s a) {}
        (fiveViews [1, 2, 3, 4]) ∧
      (Run.exec (ViewSystem.step P ∅) {} (fiveViews [1, 2, 3, 4])).any (fun s => decide (
        (s.replica 4).commitQ.take 2 = [firstBlock, secondBlock] ∧
          CollisionFree P.crypto P.codec s.broadcasts)) = true := by
    decide +kernel
  obtain ⟨orderly, outcome⟩ := result P member
  obtain ⟨s, ran, facts⟩ := (Option.any_eq_true _ _).mp outcome
  obtain ⟨committed, free⟩ := of_decide_eq_true facts
  exact ⟨s, ran, committed, commits_follow_chain P (sampleUnslotted_unslotted P member) _ s ran
    orderly free⟩

/-- The first proposal reaches replica 4 too late. With the second one as its first block
it commits this one first and numbers its transaction 1. -/
theorem late_first_block_skipped : sampleUnslotted.Forall fun P => Unslotted P ∧ ∃ s,
    Run.exec (ViewSystem.step P ∅) {} (fiveViews [1, 2, 3]) = some s ∧
      Run.Along (ViewSystem.step P ∅) (FreshVote P) {} (fiveViews [1, 2, 3]) ∧
      ¬ Linked Proposal.hash (fun p => p.header.prehash) [] (s.replica 4).commitQ ∧
      (asyncCommit (s.replica 1).commitQ).head?.map (fun t => (t.id, t.data)) = some (1, [1]) ∧
      (asyncCommit (s.replica 4).commitQ).head?.map (fun t => (t.id, t.data)) = some (1, [2]) := by
  refine List.forall_iff_forall_mem.mpr ?_
  intro P member
  have result : ∀ P ∈ sampleUnslotted,
      Run.Along (ViewSystem.step P ∅) (FreshVote P) {} (fiveViews [1, 2, 3]) ∧
      (Run.exec (ViewSystem.step P ∅) {} (fiveViews [1, 2, 3])).any (fun s => decide (
        ¬ Linked Proposal.hash (fun p => p.header.prehash) [] (s.replica 4).commitQ ∧
        (asyncCommit (s.replica 1).commitQ).head?.map (fun t => (t.id, t.data)) = some (1, [1]) ∧
        (asyncCommit (s.replica 4).commitQ).head?.map (fun t => (t.id, t.data)) =
          some (1, [2]))) = true := by
    decide +kernel
  obtain ⟨fresh, outcome⟩ := result P member
  obtain ⟨s, ran, facts⟩ := (Option.any_eq_true _ _).mp outcome
  exact ⟨sampleUnslotted_unslotted P member, s, ran, fresh, of_decide_eq_true facts⟩

end ResDB.HotStuff
