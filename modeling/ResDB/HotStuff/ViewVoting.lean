import Mathlib.Tactic
import ResDB.Config.ReplicaCounts
import ResDB.Library.ThreeChain
import ResDB.HotStuff.ViewSignatures

/-! The votes of careful replicas. `Verify` neither counts distinct signers, nor ties the
certificate to the father, nor remembers the views a replica has voted in. Where the accepted
proposals happen to satisfy all of that, the votes are those of a protocol with locks. -/
namespace ResDB.HotStuff
open ViewSystem (Honest Authentic Accepts Quiet)
open TdHotstuff (replicas mem_replicas)

def QC.signers (n : ℕ) (qc : QC) : Finset Int :=
  (qc.signatures.map SignatureInfo.nodeId).toFinset ∩ replicas n

def StartsChain (p : Proposal) : Prop := p.header.view = 1 ∧ p.header.prehash = []

instance (p : Proposal) : Decidable (StartsChain p) := inferInstanceAs (Decidable (_ ∧ _))

/-- The father is stored, the certificate has its hash and its view, and a quorum of
distinct replicas signed it. -/
def Backed (P : ViewProtocol) (m : ProposalManager) (p : Proposal) : Prop :=
  p.header.qc.hash = p.header.prehash ∧
    (m.getProposal p.header.prehash).map (fun b => b.header.view) = some p.header.qc.view ∧
    2 * P.f + 1 ≤ (p.header.qc.signers P.totalNum).card

instance (P : ViewProtocol) (m : ProposalManager) (p : Proposal) : Decidable (Backed P m p) :=
  inferInstanceAs (Decidable (_ ∧ _ ∧ _))

/-- An accepted proposal is one the replica has voted for before, or it has a higher view
than all these and starts a chain or is backed. -/
def Careful (P : ViewProtocol) (s : ViewSystem) : ViewAction → Prop
  | .deliver ⟨id, .newProposal p⟩ => P.verify (s.replica id).manager p = true →
      s.Signed id p.hash ∨
        (∀ vote ∈ s.voted, vote.1 = id → vote.2.header.view < p.header.view) ∧
          (StartsChain p ∨ Backed P (s.replica id).manager p)
  | _ => True

instance (P : ViewProtocol) (s : ViewSystem) : (a : ViewAction) → Decidable (Careful P s a)
  | .deliver ⟨id, .newProposal p⟩ =>
      inferInstanceAs (Decidable (P.verify (s.replica id).manager p = true → _))
  | .deliver ⟨_, .vote _⟩ => .isTrue trivial
  | .transaction _ _ _ => .isTrue trivial
  | .send _ _ => .isTrue trivial
  | .inject _ => .isTrue trivial

/-- A quorum of replicas, the honest ones among which voted for the hash. -/
def Quorum (P : ViewProtocol) (byz : Finset Int) (s : ViewSystem) (hash : Bytes) : Prop :=
  ∃ Q ⊆ replicas P.totalNum, 2 * P.f + 1 ≤ Q.card ∧ ∀ i ∈ Q, i ∉ byz → s.Signed i hash

/-- A certified block above the locked view with a certificate below it: it lets a replica
fall back. -/
structure Overtakes (P : ViewProtocol) (byz : Finset Int) (s : ViewSystem) (lock : Int)
    (x : Proposal) : Prop where
  voted : ∃ i, (i, x) ∈ s.voted
  quorum : Quorum P byz s x.hash
  above : lock < x.header.view
  older : x.header.qc.view < lock

/-- The replica voted for the father of a block with this header, which is certified. -/
structure Fathered (P : ViewProtocol) (byz : Finset Int) (s : ViewSystem) (id : Int) (h : Header)
    (b : Proposal) : Prop where
  voted : (id, b) ∈ s.voted
  hash : b.hash = h.prehash
  view : b.header.view = h.qc.view
  below : b.header.view < h.view
  quorum : Quorum P byz s b.hash

/-- The lock that a vote left behind holds or was overtaken, and later votes respected
it. -/
structure Backing (P : ViewProtocol) (byz : Finset Int) (s : ViewSystem) (id : Int) (h : Header)
    (b : Proposal) : Prop extends Fathered P byz s id h b where
  held : b.header.qc.view ≤ (s.replica id).manager.lockQC.view ∨
    ∃ x y, Overtakes P byz s b.header.qc.view x ∧ (id, y) ∈ s.voted ∧
      x.header.view < y.header.view
  guard : ∀ c, (id, c) ∈ s.voted → h.view < c.header.view →
    b.header.qc.view < c.header.qc.view ∨
      ∃ x, Overtakes P byz s b.header.qc.view x ∧ x.header.view < c.header.view

structure VoteRecord (P : ViewProtocol) (byz : Finset Int) (s : ViewSystem) : Prop where
  hashed : ∀ vote ∈ s.voted, vote.2.hash = getHash P.crypto P.codec vote.2
  positive : ∀ vote ∈ s.voted, 1 ≤ vote.2.header.view
  single : ∀ id p q, (id, p) ∈ s.voted → (id, q) ∈ s.voted → p.header.view = q.header.view →
    p.hash = q.hash
  founded : ∀ id p, (id, p) ∈ s.voted → StartsChain p ∨ ∃ b, Backing P byz s id p.header b
  stored : ∀ j h q, (s.replica j).manager.getProposal h = some q → q.hash = h ∧ (j, q) ∈ s.voted

def ViewSystem.proposals (s : ViewSystem) : List Proposal := s.voted.map Prod.snd

section Votes
variable {P : ViewProtocol} {byz : Finset Int} {s s' : ViewSystem}

theorem Quorum.mono {hash : Bytes} (more : s.voted ⊆ s'.voted) (quorum : Quorum P byz s hash) :
    Quorum P byz s' hash := by
  obtain ⟨Q, known, large, signed⟩ := quorum
  exact ⟨Q, known, large, fun i member honest => (signed i member honest).mono more⟩

theorem Overtakes.mono {lock : Int} {x : Proposal} (more : s.voted ⊆ s'.voted)
    (passed : Overtakes P byz s lock x) : Overtakes P byz s' lock x := by
  obtain ⟨i, cast⟩ := passed.voted
  exact ⟨⟨i, more cast⟩, passed.quorum.mono more, passed.above, passed.older⟩

theorem Fathered.mono {id : Int} {h : Header} {b : Proposal} (more : s.voted ⊆ s'.voted)
    (father : Fathered P byz s id h b) : Fathered P byz s' id h b :=
  ⟨more father.voted, father.hash, father.view, father.below, father.quorum.mono more⟩

theorem VoteRecord.hash_ne (record : VoteRecord P byz s) {id : Int} {p : Proposal}
    (cast : (id, p) ∈ s.voted) : p.hash ≠ [] := by
  rw [record.hashed _ cast]
  exact getHash_ne_nil _ _ _

theorem header_eq (free : CollisionFree P.crypto P.codec s.proposals)
    (hashed : ∀ vote ∈ s.voted, vote.2.hash = getHash P.crypto P.codec vote.2) {i j : Int}
    {p q : Proposal} (castP : (i, p) ∈ s.voted) (castQ : (j, q) ∈ s.voted)
    (same : p.hash = q.hash) : p.header = q.header := by
  refine (free p (List.mem_map_of_mem castP) q (List.mem_map_of_mem castQ) ?_).1
  exact (hashed _ castP).symm.trans (same.trans (hashed _ castQ))

theorem Backing.keep {id : Int} {h : Header} {b : Proposal} (back : Backing P byz s id h b)
    (voted : s'.voted = s.voted)
    (lock : (s'.replica id).manager.lockQC = (s.replica id).manager.lockQC) :
    Backing P byz s' id h b := by
  have more : s.voted ⊆ s'.voted := by
    rw [voted]
    exact List.Subset.refl _
  refine ⟨back.toFathered.mono more, ?_, ?_⟩
  · rw [lock]
    refine back.held.imp_right ?_
    rintro ⟨x, y, passed, cast, less⟩
    exact ⟨x, y, passed.mono more, more cast, less⟩
  · intro c cast less
    rw [voted] at cast
    refine (back.guard c cast less).imp_right ?_
    rintro ⟨x, passed, below⟩
    exact ⟨x, passed.mono more, below⟩

theorem VoteRecord.keep (record : VoteRecord P byz s) (kept : Quiet s s') :
    VoteRecord P byz s' where
  hashed := by
    rw [kept.voted]
    exact record.hashed
  positive := by
    rw [kept.voted]
    exact record.positive
  single := by
    rw [kept.voted]
    exact record.single
  founded id p cast := by
    rw [kept.voted] at cast
    refine (record.founded id p cast).imp_right ?_
    rintro ⟨b, back⟩
    exact ⟨b, back.keep kept.voted (kept.replica id).lock⟩
  stored j h q found := by
    rw [ProposalManager.getProposal, (kept.replica j).blocks] at found
    rw [kept.voted]
    exact record.stored j h q found

/-! ### An acceptance -/

theorem verifyCount_valid {crypto : Crypto} {limit : ℕ} {qc : QC}
    (ok : verifyCount crypto limit qc = true) :
    ∀ sign ∈ qc.signatures, crypto.verifyMessage qc.hash sign = true := by
  unfold verifyCount at ok
  split_ifs at ok
  exact List.all_eq_true.mp ok

theorem Backed.quorum (authentic : Authentic P byz s) {id : Int} {p : Proposal}
    (accepts : Accepts P byz s id p s') (backed : Backed P (s.replica id).manager p)
    (later : p.header.view ≠ 1) : Quorum P byz s p.header.prehash := by
  obtain ⟨named, -, many⟩ := backed
  refine ⟨p.header.qc.signers P.totalNum, Finset.inter_subset_right, many, ?_⟩
  intro i member good
  obtain ⟨inside, known⟩ := Finset.mem_inter.mp member
  obtain ⟨sign, signed, rfl⟩ := List.mem_map.mp (List.mem_toFinset.mp inside)
  rw [mem_replicas] at known
  have valid := verifyCount_valid (verifyWith_qc accepts.accept later).2 sign signed
  have genuine := authentic.network _ accepts.member sign signed valid ⟨known.1, known.2, good⟩
  rw [← named]
  exact genuine

section Accept
variable {id : Int} {p : Proposal} (accepts : Accepts P byz s id p s')
  (record : VoteRecord P byz s) (free : CollisionFree P.crypto P.codec s'.proposals)

include accepts in
theorem ViewSystem.Accepts.more : s.voted ⊆ s'.voted := by
  rw [accepts.voted]
  exact List.subset_append_left _ _

include accepts in
theorem ViewSystem.Accepts.cast : (id, p) ∈ s'.voted := by
  rw [accepts.voted]
  exact List.mem_append_right _ (List.mem_singleton_self _)

include accepts record in
theorem VoteRecord.hashed_after :
    ∀ vote ∈ s'.voted, vote.2.hash = getHash P.crypto P.codec vote.2 := by
  rw [accepts.voted]
  intro vote cast
  cases List.mem_append.mp cast with
  | inl old => exact record.hashed vote old
  | inr new =>
      rw [List.mem_singleton.mp new]
      exact verifyWith_hash accepts.accept

include accepts in
theorem ViewSystem.Accepts.newer (later : p.header.view ≠ 1) :
    (s.replica id).manager.lockQC.view < p.header.qc.view :=
  of_decide_eq_true (verifyWith_qc accepts.accept later).1

include accepts record free in
theorem VoteRecord.repeated (signed : s.Signed id p.hash) :
    ∃ q, (id, q) ∈ s.voted ∧ q.header = p.header ∧ q.hash = p.hash := by
  obtain ⟨⟨_, q⟩, cast, rfl, same⟩ := signed
  exact ⟨q, cast, header_eq free (record.hashed_after accepts) (accepts.more cast) accepts.cast
    same, same⟩

include accepts record free in
theorem VoteRecord.fathered (authentic : Authentic P byz s)
    (careful : Careful P s (.deliver ⟨id, .newProposal p⟩)) :
    StartsChain p ∨ ∃ b, Fathered P byz s id p.header b := by
  rcases careful accepts.accept with signed | ⟨fresh, first | backed⟩
  · obtain ⟨q, cast, header, -⟩ := record.repeated accepts free signed
    rcases record.founded id q cast with first | ⟨b, back⟩
    · left
      rw [StartsChain, header] at first
      exact first
    · rw [header] at back
      exact .inr ⟨b, back.toFathered⟩
  · exact .inl first
  · right
    obtain ⟨b, found, view⟩ := Option.map_eq_some_iff.mp backed.2.1
    obtain ⟨hash, cast⟩ := record.stored id _ b found
    have below : b.header.view < p.header.view := fresh _ cast rfl
    have positive : 1 ≤ b.header.view := record.positive _ cast
    refine ⟨b, cast, hash, view, below, ?_⟩
    rw [hash]
    exact backed.quorum authentic accepts (by omega)

include accepts record free in
theorem VoteRecord.lock_after (fathered : StartsChain p ∨ ∃ b, Fathered P byz s id p.header b) :
    (s'.replica id).manager.lockQC = (s.replica id).manager.lockQC ∨
      ∃ b, Fathered P byz s id p.header b ∧ (s'.replica id).manager.lockQC = b.header.qc := by
  rw [accepts.own.lock, ProposalManager.addProposalWith_lock]
  cases found : (s.replica id).manager.getProposal p.header.prehash with
  | none => exact .inl rfl
  | some stored =>
      obtain ⟨hash, cast⟩ := record.stored id _ stored found
      rcases fathered with first | ⟨b, father⟩
      · rw [first.2] at hash
        exact absurd hash (record.hash_ne cast)
      · have same := header_eq free (record.hashed_after accepts) (accepts.more cast)
          (accepts.more father.voted) (hash.trans father.hash.symm)
        refine .inr ⟨b, father, ?_⟩
        simp only [same]

include accepts record free in
theorem VoteRecord.held_after (fathered : StartsChain p ∨ ∃ b, Fathered P byz s id p.header b)
    {lock : Int}
    (held : lock ≤ (s.replica id).manager.lockQC.view ∨
      ∃ x y, Overtakes P byz s lock x ∧ (id, y) ∈ s.voted ∧ x.header.view < y.header.view) :
    lock ≤ (s'.replica id).manager.lockQC.view ∨
      ∃ x y, Overtakes P byz s' lock x ∧ (id, y) ∈ s'.voted ∧
        x.header.view < y.header.view := by
  rcases held with low | ⟨x, y, passed, cast, less⟩
  · rcases record.lock_after accepts free fathered with same | ⟨b, father, new⟩
    · rw [same]
      exact .inl low
    · rw [new]
      by_cases kept : lock ≤ b.header.qc.view
      · exact .inl kept
      · have positive : 1 ≤ b.header.view := record.positive _ father.voted
        have below := father.below
        have newer := accepts.newer (by omega)
        rw [← father.view] at newer
        refine .inr
          ⟨b, p, ⟨⟨id, accepts.more father.voted⟩, father.quorum.mono accepts.more, ?_, ?_⟩,
          accepts.cast, below⟩
        · exact low.trans_lt newer
        · exact not_le.mp kept
  · exact .inr ⟨x, y, passed.mono accepts.more, accepts.more cast, less⟩

include accepts record free in
theorem Backing.accept (fathered : StartsChain p ∨ ∃ b, Fathered P byz s id p.header b)
    (careful : Careful P s (.deliver ⟨id, .newProposal p⟩)) {h : Header} {b : Proposal}
    (back : Backing P byz s id h b) : Backing P byz s' id h b := by
  refine ⟨back.toFathered.mono accepts.more, record.held_after accepts free fathered back.held, ?_⟩
  have old : ∀ c, (id, c) ∈ s.voted → h.view < c.header.view →
      b.header.qc.view < c.header.qc.view ∨
        ∃ x, Overtakes P byz s' b.header.qc.view x ∧ x.header.view < c.header.view := by
    intro c cast less
    refine (back.guard c cast less).imp_right ?_
    rintro ⟨x, passed, below⟩
    exact ⟨x, passed.mono accepts.more, below⟩
  intro c cast less
  rw [accepts.voted] at cast
  cases List.mem_append.mp cast with
  | inl before => exact old c before less
  | inr new =>
      obtain ⟨-, rfl⟩ := Prod.mk.inj (List.mem_singleton.mp new)
      rcases careful accepts.accept with signed | ⟨fresh, -⟩
      · obtain ⟨q, before, header, -⟩ := record.repeated accepts free signed
        rw [← header] at less ⊢
        exact old q before less
      · rcases back.held with low | ⟨x, y, passed, before, above⟩
        · have positive : 1 ≤ b.header.view := record.positive _ back.voted
          have below := back.below
          exact .inl (low.trans_lt (accepts.newer (by omega)))
        · exact .inr ⟨x, passed.mono accepts.more, above.trans (fresh _ before rfl)⟩

include accepts in
theorem Backing.other {j : Int} (other : j ≠ id) {h : Header} {b : Proposal}
    (back : Backing P byz s j h b) : Backing P byz s' j h b := by
  refine ⟨back.toFathered.mono accepts.more, ?_, ?_⟩
  · rw [accepts.others j other]
    refine back.held.imp_right ?_
    rintro ⟨x, y, passed, cast, less⟩
    exact ⟨x, y, passed.mono accepts.more, accepts.more cast, less⟩
  · intro c cast less
    rw [accepts.voted] at cast
    cases List.mem_append.mp cast with
    | inl before =>
        refine (back.guard c before less).imp_right ?_
        rintro ⟨x, passed, below⟩
        exact ⟨x, passed.mono accepts.more, below⟩
    | inr new =>
        obtain ⟨own, -⟩ := Prod.mk.inj (List.mem_singleton.mp new)
        exact absurd own other

include accepts record free in
theorem VoteRecord.founded_new (authentic : Authentic P byz s)
    (careful : Careful P s (.deliver ⟨id, .newProposal p⟩)) :
    StartsChain p ∨ ∃ b, Backing P byz s' id p.header b := by
  have fathered := record.fathered accepts free authentic careful
  rcases careful accepts.accept with signed | ⟨fresh, first | backed⟩
  · obtain ⟨q, cast, header, -⟩ := record.repeated accepts free signed
    rcases record.founded id q cast with first | ⟨b, back⟩
    · left
      rw [StartsChain, header] at first
      exact first
    · rw [header] at back
      exact .inr ⟨b, back.accept accepts record free fathered careful⟩
  · exact .inl first
  · -- The father is stored, so the vote locks its certificate.
    obtain ⟨stored, found, -⟩ := Option.map_eq_some_iff.mp backed.2.1
    refine fathered.imp_right ?_
    rintro ⟨b, father⟩
    obtain ⟨hash, cast⟩ := record.stored id _ stored found
    have same := header_eq free (record.hashed_after accepts) (accepts.more cast)
      (accepts.more father.voted) (hash.trans father.hash.symm)
    refine ⟨b, father.mono accepts.more, .inl ?_, ?_⟩
    · rw [accepts.own.lock, ProposalManager.addProposalWith_lock, found, ← same]
    · intro c cast above
      rw [accepts.voted] at cast
      cases List.mem_append.mp cast with
      | inl before =>
          have less : c.header.view < p.header.view := fresh _ before rfl
          omega
      | inr new =>
          obtain ⟨-, rfl⟩ := Prod.mk.inj (List.mem_singleton.mp new)
          exact absurd above (lt_irrefl _)

include accepts record free in
theorem VoteRecord.single_new (careful : Careful P s (.deliver ⟨id, .newProposal p⟩))
    {q : Proposal} (cast : (id, q) ∈ s.voted) (same : q.header.view = p.header.view) :
    q.hash = p.hash := by
  rcases careful accepts.accept with signed | ⟨fresh, -⟩
  · obtain ⟨old, before, header, hash⟩ := record.repeated accepts free signed
    rw [← header] at same
    rw [← hash]
    exact record.single id q old cast before same
  · have less : q.header.view < p.header.view := fresh _ cast rfl
    omega

include accepts record free in
theorem VoteRecord.accept (authentic : Authentic P byz s)
    (careful : Careful P s (.deliver ⟨id, .newProposal p⟩)) : VoteRecord P byz s' where
  hashed := record.hashed_after accepts
  positive := by
    rw [accepts.voted]
    intro vote cast
    cases List.mem_append.mp cast with
    | inl old => exact record.positive vote old
    | inr new =>
        rw [List.mem_singleton.mp new]
        rcases record.fathered accepts free authentic careful with first | ⟨b, father⟩
        · exact first.1.ge
        · have low := record.positive _ father.voted
          exact low.trans father.below.le
  single j q q' cast cast' same := by
    rw [accepts.voted] at cast cast'
    cases List.mem_append.mp cast with
    | inl old =>
        cases List.mem_append.mp cast' with
        | inl old' => exact record.single j q q' old old' same
        | inr new' =>
            obtain ⟨rfl, rfl⟩ := Prod.mk.inj (List.mem_singleton.mp new')
            exact record.single_new accepts free careful old same
    | inr new =>
        obtain ⟨rfl, rfl⟩ := Prod.mk.inj (List.mem_singleton.mp new)
        cases List.mem_append.mp cast' with
        | inl old' => exact (record.single_new accepts free careful old' same.symm).symm
        | inr new' =>
            obtain ⟨-, rfl⟩ := Prod.mk.inj (List.mem_singleton.mp new')
            rfl
  founded j q cast := by
    rw [accepts.voted] at cast
    cases List.mem_append.mp cast with
    | inl old =>
        refine (record.founded j q old).imp_right ?_
        rintro ⟨b, back⟩
        by_cases here : j = id
        · subst here
          exact ⟨b, back.accept accepts record free
            (record.fathered accepts free authentic careful) careful⟩
        · exact ⟨b, back.other accepts here⟩
    | inr new =>
        obtain ⟨rfl, rfl⟩ := Prod.mk.inj (List.mem_singleton.mp new)
        exact record.founded_new accepts free authentic careful
  stored j h q found := by
    by_cases here : j = id
    · subst here
      rw [ProposalManager.getProposal, accepts.own.blocks] at found
      rcases ProposalManager.addProposalWith_stored found with ⟨rfl, rfl⟩ | old
      · exact ⟨rfl, accepts.cast⟩
      · obtain ⟨hash, cast⟩ := record.stored j h q old
        exact ⟨hash, accepts.more cast⟩
    · rw [accepts.others j here] at found
      obtain ⟨hash, cast⟩ := record.stored j h q found
      exact ⟨hash, accepts.more cast⟩

end Accept

theorem initial_voteRecord (P : ViewProtocol) (byz : Finset Int) : VoteRecord P byz {} where
  hashed vote cast := by cases cast
  positive vote cast := by cases cast
  single id p q cast := by cases cast
  founded id p cast := by cases cast
  stored j h q found := by cases found

theorem VoteRecord.step (calm : P.Calm) (authentic : Authentic P byz s)
    (record : VoteRecord P byz s) (free : CollisionFree P.crypto P.codec s'.proposals)
    {a : ViewAction} (careful : Careful P s a) (taken : s.step P byz a = some s') :
    VoteRecord P byz s' := by
  rcases ViewSystem.step_accepts_or_keeps calm taken with ⟨id, p, rfl, accepts⟩ | kept
  · exact record.accept accepts free authentic careful
  · exact record.keep kept

end Votes

/-! ### What is certified -/

def headerOf (s : ViewSystem) (hash : Bytes) : Header :=
  ((s.voted.find? (fun vote => vote.2.hash = hash)).map (fun vote => vote.2.header)).getD {}

section Certified
variable {P : ViewProtocol} {byz : Finset Int} {s : ViewSystem} (record : VoteRecord P byz s)
  (free : CollisionFree P.crypto P.codec s.proposals)

include record free in
theorem headerOf_voted {i : Int} {p : Proposal} (cast : (i, p) ∈ s.voted) :
    headerOf s p.hash = p.header := by
  unfold headerOf
  cases found : s.voted.find? (fun vote => vote.2.hash = p.hash) with
  | none => exact absurd (decide_eq_true rfl) (List.find?_eq_none.mp found _ cast)
  | some vote =>
      have same : vote.2.hash = p.hash := by simpa using List.find?_some found
      exact header_eq free record.hashed (List.mem_of_find?_eq_some found) cast same

theorem Quorum.voter (few : byz.card ≤ P.f) {hash : Bytes} (quorum : Quorum P byz s hash) :
    ∃ i p, (i, p) ∈ s.voted ∧ p.hash = hash := by
  obtain ⟨Q, -, large, signed⟩ := quorum
  obtain ⟨i, member, good⟩ := Finset.exists_mem_notMem_of_card_lt_card (show byz.card < Q.card by
    omega)
  obtain ⟨⟨_, p⟩, cast, rfl, same⟩ := signed i member good
  exact ⟨_, p, cast, same⟩

theorem Quorum.common_voter (size : P.totalNum = 3 * P.f + 1) (few : byz.card ≤ P.f)
    {hash hash' : Bytes} (quorum : Quorum P byz s hash) (quorum' : Quorum P byz s hash') :
    ∃ i p q, (i, p) ∈ s.voted ∧ p.hash = hash ∧ (i, q) ∈ s.voted ∧ q.hash = hash' := by
  obtain ⟨Q, known, large, signed⟩ := quorum
  obtain ⟨Q', known', large', signed'⟩ := quorum'
  rw [size] at known known'
  obtain ⟨i, member, member', good⟩ :=
    Config.exists_common_honest known known' large large' few
  obtain ⟨⟨k, p⟩, cast, own, same⟩ := signed i member good
  obtain ⟨⟨l, q⟩, cast', own', same'⟩ := signed' i member' good
  cases own
  cases own'
  exact ⟨_, p, q, cast, same, cast', same'⟩

include record free in
theorem VoteRecord.guarded (size : P.totalNum = 3 * P.f + 1) (few : byz.card ≤ P.f) :
    ThreeChain.Guarded (fun hash => (headerOf s hash).prehash) (fun hash => (headerOf s hash).view)
      (fun hash => (headerOf s hash).qc.view) (Quorum P byz s) where
  unique {a b} certified certified' same := by
    obtain ⟨i, p, q, castP, rfl, castQ, rfl⟩ := certified.common_voter size few certified'
    rw [headerOf_voted record free castP, headerOf_voted record free castQ] at same
    exact record.single i p q castP castQ same
  link {b c} certified certified' less := by
    obtain ⟨i, q, castQ, rfl⟩ := certified.voter few
    obtain ⟨j, p, castP, rfl⟩ := certified'.voter few
    rw [headerOf_voted record free castQ, headerOf_voted record free castP] at less
    rw [headerOf_voted record free castP]
    have positive : 1 ≤ q.header.view := record.positive _ castQ
    rcases record.founded j p castP with first | ⟨father, back⟩
    · rw [first.1] at less
      omega
    · rw [← back.hash, headerOf_voted record free back.voted]
      exact ⟨back.quorum, back.view, back.view ▸ back.below⟩
  guard {a c} certified lower certified' less := by
    obtain ⟨i, p, q, castP, rfl, castQ, rfl⟩ := certified.common_voter size few certified'
    rw [headerOf_voted record free castP] at lower
    rw [headerOf_voted record free castP, headerOf_voted record free castQ] at less
    rw [headerOf_voted record free castP, headerOf_voted record free castQ]
    rcases record.founded i p castP with first | ⟨father, back⟩
    · rw [first.2] at lower
      obtain ⟨j, root, castR, none⟩ := lower.voter few
      exact absurd none (record.hash_ne castR)
    · rw [← back.hash, headerOf_voted record free back.voted]
      refine (back.guard q castQ less).imp_right ?_
      rintro ⟨x, passed, below⟩
      obtain ⟨j, castX⟩ := passed.voted
      refine ⟨x.hash, passed.quorum, ?_⟩
      rw [headerOf_voted record free castX]
      exact ⟨passed.above, below, passed.older⟩

include record in
theorem VoteRecord.father_certified {i : Int} {p b : Proposal} (cast : (i, p) ∈ s.voted)
    (castB : (i, b) ∈ s.voted) (link : p.header.prehash = b.hash) : Quorum P byz s b.hash := by
  rcases record.founded i p cast with first | ⟨father, back⟩
  · rw [first.2] at link
    exact absurd link.symm (record.hash_ne castB)
  · rw [← link, ← back.hash]
    exact back.quorum

end Certified
end ResDB.HotStuff
