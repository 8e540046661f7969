import Mathlib.Tactic
import ResDB.HotStuff.CommitOnce

/-! Speculation of HotStuff-1 and the ancestors of what it commits. The rule takes a
grandfather that is not stored for one that has been committed; it may as well never have
arrived. -/
namespace ResDB.HotStuff
open ProposalManager (Keyed)
open LinkedLog (ParentsFirst Linked)

/-- An accepted proposal starts a chain, or its father has been accepted before. -/
def FatherKnown (P : ChainedProtocol) (r : ChainedReplica) : ChainedEvent → Prop
  | .proposal p => P.verify r.manager p = true →
      p.header.prehash = [] ∨ ∃ a ∈ r.accepted, a.hash = p.header.prehash
  | .certificate _ => True

instance (P : ChainedProtocol) (r : ChainedReplica) : (e : ChainedEvent) →
    Decidable (FatherKnown P r e)
  | .proposal p => inferInstanceAs (Decidable (P.verify r.manager p = true → _))
  | .certificate _ => .isTrue trivial

/-- The proper ancestors of a block among the blocks of `world`. -/
def Ancestor (world : List Proposal) : Proposal → Proposal → Prop :=
  Relation.TransGen (fun a b => a ∈ world ∧ b.header.prehash = a.hash)

/-- Every proper ancestor of a committed block was pushed to `commit_q_` before it. -/
def PrefixCommitted (world : List Proposal) (r : ChainedReplica) : Prop :=
  ∀ before commit after, r.commits = before ++ commit :: after →
    ∀ a, Ancestor world a commit.2 → a.hash ∈ before.map (fun earlier => earlier.2.hash)

/-- Where a hash first appears among the accepted proposals; the empty hash comes first. -/
def place (ps : List Proposal) (hash : Bytes) : ℕ :=
  if hash = [] then 0 else (ps.map Proposal.hash).idxOf hash + 1

theorem place_append {ps : List Proposal} (more : List Proposal) {hash : Bytes}
    (known : hash = [] ∨ hash ∈ ps.map Proposal.hash) :
    place (ps ++ more) hash = place ps hash := by
  unfold place
  split_ifs with empty
  · rfl
  · rw [List.map_append, List.idxOf_append_of_mem (known.resolve_left empty)]

theorem place_le {ps : List Proposal} {hash : Bytes}
    (known : hash = [] ∨ hash ∈ ps.map Proposal.hash) : place ps hash ≤ ps.length := by
  unfold place
  split_ifs with empty
  · exact Nat.zero_le _
  · have inside := List.idxOf_lt_length_of_mem (known.resolve_left empty)
    rw [List.length_map] at inside
    exact inside

theorem place_concat_new {ps : List Proposal} {p : Proposal} (named : p.hash ≠ [])
    (new : p.hash ∉ ps.map Proposal.hash) : place (ps ++ [p]) p.hash = ps.length + 1 := by
  rw [place, if_neg named, List.map_append, List.idxOf_append_of_notMem new]
  simp

/-- What a replica keeps that accepts no proposal before its father: an accepted block is
stored or committed, and the commits respect the links. -/
structure Grounded (r : ChainedReplica) : Prop where
  stored : ∀ key q, r.manager.localBlock.find key = some q → key = q.hash ∧ q ∈ r.accepted
  named : ∀ a ∈ r.accepted, a.hash ≠ []
  fathers : ∀ a ∈ r.accepted, a.header.prehash = [] ∨
    a.header.prehash ∈ r.accepted.map Proposal.hash
  climbs : ∀ a ∈ r.accepted, place r.accepted a.header.prehash < place r.accepted a.hash
  held : ∀ a ∈ r.accepted, (r.manager.localBlock.find a.hash).isSome = true ∨
    a.hash ∈ r.committedHashes
  known : ∀ commit ∈ r.commits, commit.2 ∈ r.accepted
  ordered : ParentsFirst Proposal.hash (fun p => p.header.prehash) [] (r.commits.map Prod.snd)

theorem initial_grounded : Grounded {} := by
  constructor
  · intro key q found
    cases found
  · intro a member
    cases member
  · intro a member
    cases member
  · intro a member
    cases member
  · intro a member
    cases member
  · intro commit member
    cases member
  · intro before a after split
    cases before <;> cases split

section Runs
variable {P : ChainedProtocol} {r r' : ChainedReplica}
  {commitFrom : (Bytes → Option Proposal) → Proposal → Proposal → Option Bytes}

theorem Grounded.keyed (inv : Grounded r) : Keyed r.manager.localBlock :=
  fun key q found => (inv.stored key q found).1

theorem Grounded.climbs_concat (inv : Grounded r) {p : Proposal} (named : p.hash ≠ [])
    (father : p.header.prehash = [] ∨ p.header.prehash ∈ r.accepted.map Proposal.hash)
    (twin : ∀ a ∈ r.accepted, a.hash = p.hash → a.header = p.header) :
    ∀ a ∈ r.accepted ++ [p],
      place (r.accepted ++ [p]) a.header.prehash < place (r.accepted ++ [p]) a.hash := by
  have old : ∀ a ∈ r.accepted,
      place (r.accepted ++ [p]) a.header.prehash < place (r.accepted ++ [p]) a.hash := by
    intro a known
    rw [place_append [p] (inv.fathers a known),
      place_append [p] (.inr (List.mem_map_of_mem known))]
    exact inv.climbs a known
  intro a member
  rcases List.mem_append.mp member with known | own
  · exact old a known
  · rw [List.mem_singleton.mp own]
    by_cases again : p.hash ∈ r.accepted.map Proposal.hash
    · obtain ⟨b, known, same⟩ := List.mem_map.mp again
      rw [← same, ← twin b known same]
      exact old b known
    · rw [place_append [p] father, place_concat_new named again]
      exact Nat.lt_succ_of_le (place_le father)

theorem Grounded.bottom (inv : Grounded r) {hash bottom : Bytes}
    {left : AssocMap Bytes Proposal} {taken : List Proposal}
    (walk : ProposalManager.Fetched r.manager.localBlock hash left taken)
    (absent : left.find bottom = none)
    (linked : Linked Proposal.hash (fun p => p.header.prehash) bottom taken.reverse)
    (some : taken.reverse ≠ []) : bottom = [] ∨ bottom ∈ r.committedHashes := by
  have known : ∀ b ∈ taken.reverse, b ∈ r.accepted := by
    intro b member
    have stored := (walk.reached inv.keyed b (List.mem_reverse.mp member)).1
    exact (inv.stored _ b stored).2
  obtain ⟨first, rest, shape⟩ := List.exists_cons_of_ne_nil some
  have start : first.header.prehash = bottom := by
    rw [shape] at linked
    exact linked.1
  have inside : first ∈ r.accepted := known first (shape ▸ List.mem_cons_self)
  rcases inv.fathers first inside with root | father
  · exact .inl (start ▸ root)
  · right
    rw [start] at father
    -- The walk climbs from its bottom, so it does not come back to it.
    have outside : bottom ∉ taken.map Proposal.hash := by
      intro again
      obtain ⟨b, member, same⟩ := List.mem_map.mp again
      have above := linked.rank_lt (fun a inside => inv.climbs a (known a inside)) b
        (List.mem_reverse.mpr member)
      rw [same] at above
      exact absurd above (Nat.lt_irrefl _)
    obtain ⟨a, accepted, same⟩ := List.mem_map.mp father
    rw [walk.find inv.keyed, if_neg outside] at absent
    have gone := (inv.held a accepted).resolve_left (by rw [same, absent]; exact Bool.false_ne_true)
    exact same ▸ gone

theorem Grounded.taken (inv : Grounded r)
    (commitFrom : (Bytes → Option Proposal) → Proposal → Proposal → Option Bytes) (p : Proposal) :
    (∀ key, ((r.manager.addProposalWith commitFrom p).1.localBlock.find key) =
      if key = p.hash then some p
      else if key ∈ (r.manager.addProposalWith commitFrom p).2.map Proposal.hash then none
      else r.manager.localBlock.find key) ∧
    (∀ b ∈ (r.manager.addProposalWith commitFrom p).2, b ∈ r.accepted) ∧
    ∃ bottom, Linked Proposal.hash (fun p => p.header.prehash) bottom
        (r.manager.addProposalWith commitFrom p).2.reverse ∧
      ((r.manager.addProposalWith commitFrom p).2.reverse ≠ [] →
        bottom = [] ∨ bottom ∈ r.committedHashes) := by
  obtain ⟨left, blocks, outcome⟩ := ProposalManager.addProposalWith_walk commitFrom r.manager p
  cases outcome with
  | inl nothing =>
      obtain ⟨-, empty, rfl⟩ := nothing
      rw [empty, blocks]
      refine ⟨?_, ?_, [], trivial, fun some => absurd rfl some⟩
      · intro key
        simp [AssocMap.find_set]
      · intro b member
        cases member
  | inr fetched =>
      obtain ⟨father, hash, -, -, walk⟩ := fetched
      obtain ⟨bottom, absent, linked, -⟩ := walk.linked inv.keyed
      refine ⟨?_, ?_, bottom, linked, inv.bottom walk absent linked⟩
      · intro key
        rw [blocks, AssocMap.find_set, walk.find inv.keyed]
      · intro b member
        exact (inv.stored _ b (walk.reached inv.keyed b member).1).2

theorem Grounded.accept (same : P.addProposal = ProposalManager.addProposalWith commitFrom)
    (inv : Grounded r) {p : Proposal} (accept : P.verify r.manager p = true)
    (father : p.header.prehash = [] ∨ p.header.prehash ∈ r.accepted.map Proposal.hash)
    (twin : ∀ a ∈ r.accepted, a.hash = p.hash → a.header = p.header) :
    Grounded
      { manager := (P.addProposal r.manager p).1
        accepted := r.accepted ++ [p]
        commits := r.commits ++
          (P.addProposal r.manager p).2.reverse.map (fun b => (p, b)) } := by
  have named : p.hash ≠ [] := by
    rw [verifyWith_hash accept]
    exact getHash_ne_nil P.crypto P.codec p
  rw [same]
  obtain ⟨finds, taken, bottom, linked, grounded⟩ := inv.taken commitFrom p
  have own : p ∈ r.accepted ++ [p] := List.mem_append_right _ (List.mem_singleton_self p)
  constructor
  · intro key q found
    rw [finds] at found
    split_ifs at found with here
    · cases found
      exact ⟨here, own⟩
    · obtain ⟨key_eq, old⟩ := inv.stored key q found
      exact ⟨key_eq, List.mem_append_left _ old⟩
  · intro a member
    cases List.mem_append.mp member with
    | inl old => exact inv.named a old
    | inr new => exact List.mem_singleton.mp new ▸ named
  · intro a member
    rw [List.map_append, List.mem_append]
    cases List.mem_append.mp member with
    | inl old => exact (inv.fathers a old).imp_right .inl
    | inr new => exact (List.mem_singleton.mp new ▸ father).imp_right .inl
  · exact inv.climbs_concat named father twin
  · intro a member
    rw [finds, ChainedReplica.committedHashes, List.map_append, List.mem_append]
    by_cases here : a.hash = p.hash
    · left
      rw [if_pos here]
      rfl
    · have old : a ∈ r.accepted := by
        refine (List.mem_append.mp member).resolve_right ?_
        intro new
        exact here (congrArg Proposal.hash (List.mem_singleton.mp new))
      rw [if_neg here]
      split_ifs with spent
      · right
        right
        obtain ⟨b, inside, hash⟩ := List.mem_map.mp spent
        rw [List.map_map, List.mem_map]
        exact ⟨b, List.mem_reverse.mpr inside, hash⟩
      · exact (inv.held a old).imp_right .inl
  · intro commit member
    cases List.mem_append.mp member with
    | inl old => exact List.mem_append_left _ (inv.known commit old)
    | inr new =>
        obtain ⟨b, inside, rfl⟩ := List.mem_map.mp new
        exact List.mem_append_left _ (taken b (List.mem_reverse.mp inside))
  · have pushed : ∀ pushed : List Proposal,
        (r.commits ++ pushed.map (fun b => (p, b))).map Prod.snd =
        r.commits.map Prod.snd ++ pushed := by
      intro pushed
      simp [Function.comp_def]
    rw [pushed]
    refine inv.ordered.append linked (fun some => ?_)
    rw [List.map_map]
    exact grounded some

theorem Grounded.step (same : P.addProposal = ProposalManager.addProposalWith commitFrom)
    (law : P.Lawful) {world : List Proposal} (free : CollisionFree P.crypto P.codec world)
    (inv : Grounded r) {e : ChainedEvent} (known : FatherKnown P r e)
    (hashed : ∀ a ∈ r'.accepted, a ∈ world ∧ a.hash = getHash P.crypto P.codec a)
    (taken : P.step r e = some r') : Grounded r' := by
  cases e with
  | proposal p =>
      cases accept : P.verify r.manager p with
      | false =>
          simp only [ChainedProtocol.step, accept] at taken
          cases taken
          exact inv
      | true =>
          simp only [ChainedProtocol.step, accept, if_true] at taken
          cases taken
          have own := hashed p (List.mem_append_right _ (List.mem_singleton_self p))
          refine inv.accept same accept ((known accept).imp_right ?_) ?_
          · rintro ⟨a, accepted, hash⟩
            exact hash ▸ List.mem_map_of_mem accepted
          · intro a accepted hash
            have old := hashed a (List.mem_append_left _ accepted)
            exact (free a old.1 p own.1 (by rw [← old.2, ← own.2, hash])).1
  | certificate qc =>
      cases taken
      have blocks := law.certificate r.manager qc
      refine ⟨?_, inv.named, inv.fathers, inv.climbs, ?_, inv.known, inv.ordered⟩
      · rw [blocks]
        exact inv.stored
      · rw [blocks]
        exact inv.held

end Runs
end ResDB.HotStuff

namespace ResDB.Hs1
open HotStuff

/-- When no proposal is accepted before its father, HotStuff-1 speculates on whole
prefixes. -/
theorem speculation_extends_prefix (cfg : Config) (events : List ChainedEvent) (r : ChainedReplica)
    (ran : Run.exec (protocol cfg).step {} events = some r)
    (known : Run.Along (protocol cfg).step (FatherKnown (protocol cfg)) {} events)
    (world : List Proposal) (includes : ∀ a ∈ r.accepted, a ∈ world)
    (hashed : ∀ a ∈ world, a.hash = getHash cfg.crypto cfg.codec a)
    (free : CollisionFree cfg.crypto cfg.codec world) : PrefixCommitted world r := by
  have grounded : Grounded r := by
    refine Run.exec_invariant (fun s e s' (inv : (∀ a ∈ s.accepted, a ∈ world) → Grounded s) known
      taken inside => ?_) (fun _ => initial_grounded) known ran includes
    have older := inv (fun a accepted => inside a (accepted_mono taken a accepted))
    exact older.step rfl (protocol_lawful cfg) free known
      (fun a accepted => ⟨inside a accepted, hashed a (inside a accepted)⟩) taken
  intro before commit after split a ancestor
  have shape : r.commits.map Prod.snd = before.map Prod.snd ++ commit.2 :: after.map Prod.snd := by
    rw [split]
    simp
  have found := grounded.ordered.ancestor_before
    (fun a member => by rw [hashed a member]; exact getHash_ne_nil _ _ a)
    (fun a member b committed same => ?_) ancestor rfl shape
  · rwa [List.map_map] at found
  · obtain ⟨entry, inside, rfl⟩ := List.mem_map.mp committed
    have accepted := includes _ (grounded.known entry inside)
    exact congrArg Header.prehash
      (free a member entry.2 accepted (by rw [← hashed a member, ← hashed _ accepted, same])).1

def sampleConfig : Config := ⟨4, .sample, .sample, 4, 1, 0, 0⟩

def sampleChain : List Proposal := rootBlock 1 :: laterViews (rootBlock 1)

theorem speculation_extends_prefix_sample : ∃ r,
    Run.exec (protocol sampleConfig).step {} (sampleChain.map .proposal) = some r ∧
      r.commits.map Prod.snd = sampleChain.take 3 ∧ PrefixCommitted sampleChain r := by
  have known : Run.Along (protocol sampleConfig).step (FatherKnown (protocol sampleConfig)) {}
      (sampleChain.map .proposal) := by
    decide
  have outcome : (Run.exec (protocol sampleConfig).step {} (sampleChain.map .proposal)).any
      (fun r => r.commits.map Prod.snd = sampleChain.take 3 ∧
        ∀ a ∈ r.accepted, a ∈ sampleChain) = true := by
    decide
  obtain ⟨r, ran, here⟩ := (Option.any_eq_true _ _).mp outcome
  obtain ⟨committed, includes⟩ := of_decide_eq_true here
  exact ⟨r, ran, committed, speculation_extends_prefix sampleConfig _ r ran known sampleChain
    includes (by decide) (by decide)⟩

/-- The proposal of view 1 is late. That of view 3 commits that of view 2, whose father has
not been committed and does not come before it. -/
theorem late_father_skipped : ∃ r,
    Run.exec (protocol sampleConfig).step {}
        ((sampleChain.drop 1).take 2 |>.map .proposal) = some r ∧
      r.commits.map Prod.snd = (sampleChain.drop 1).take 1 ∧ ¬ PrefixCommitted sampleChain r := by
  have outcome : (Run.exec (protocol sampleConfig).step {}
      ((sampleChain.drop 1).take 2 |>.map .proposal)).map (fun r => r.commits.map Prod.snd) =
        some ((sampleChain.drop 1).take 1) := by
    decide
  obtain ⟨r, ran, committed⟩ := Option.map_eq_some_iff.mp outcome
  refine ⟨r, ran, committed, ?_⟩
  intro closed
  cases commits : r.commits with
  | nil =>
      rw [commits] at committed
      exact absurd committed (by decide)
  | cons commit rest =>
      have second : commit.2.header.prehash = (rootBlock 1).hash := by
        rw [commits] at committed
        have first : commit.2 = (laterViews (rootBlock 1)).head (by decide) :=
          (List.cons.inj committed).1
        rw [first]
        decide
      have missing := closed [] commit rest commits (rootBlock 1)
        (.single ⟨List.mem_cons_self, second⟩)
      cases missing

end ResDB.Hs1
