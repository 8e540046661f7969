import Mathlib.Tactic
import ResDB.HotStuff.CommitLog
import ResDB.Hs.ProposalManager
import ResDB.Hs1.ProposalManager
import ResDB.Hs2.ProposalManager
import ResDB.SlotHs1.Protocol
import ResDB.TdHotstuff.Protocol

/-! What a commit of the five chained protocols rests on. `Verify` checks the certificate
that a proposal carries, `AddProposal` follows its `prehash`, and nothing compares the two. -/
namespace ResDB.HotStuff

/-- A replica of a slotted protocol, seen through its proposals and certificates only. -/
def SlotProtocol.chained (P : SlotProtocol) (id : Int) : ChainedProtocol where
  crypto := P.crypto
  codec := P.codec
  verifyQC := P.verifyQC
  safeNode := ProposalManager.safeNode
  addQC := P.addQC id
  addProposal m p :=
    ((m.addProposal p).1, ((m.addProposal p).2.map (P.stampPrimary p)).toList)

inductive Chained : ChainedProtocol → Prop where
  | tdHotstuff (cfg : TdHotstuff.Config) (id : Int) :
      Chained ((TdHotstuff.protocol cfg).chained id)
  | slotHs1 (cfg : SlotHs1.Config) (id : Int) : Chained ((SlotHs1.protocol cfg).chained id)
  | hs (cfg : Hs.Config) : Chained (Hs.protocol cfg)
  | hs1 (cfg : Hs1.Config) : Chained (Hs1.protocol cfg)
  | hs2 (cfg : Hs2.Config) : Chained (Hs2.protocol cfg)

theorem chained_step {P : SlotProtocol} {id : Int} {r r' : Replica P} {p : Proposal} {e : Envelope}
    (accepted : P.receiveProposal id r p = some (r', e)) (history : List Proposal)
    (commits : List (Proposal × Proposal)) (queue : commits.map Prod.snd = r.commitQ) :
    ∃ commits', (P.chained id).step ⟨r.manager, history, commits⟩ (.proposal p) =
        some ⟨r'.manager, history ++ [p], commits'⟩ ∧ commits'.map Prod.snd = r'.commitQ := by
  obtain ⟨accept, rfl, -⟩ := SlotProtocol.receiveProposal_some accepted
  have verdict : (P.chained id).verify r.manager p = true := accept
  refine ⟨_, by rw [ChainedProtocol.step, verdict, if_pos rfl]; rfl, ?_⟩
  simp only [SlotProtocol.chained, ProposalManager.addProposal_commit, List.map_append,
    List.map_map, queue]
  cases r.manager.getProposal p.header.prehash <;> simp

theorem chained_lawful (P : SlotProtocol) (id : Int) : (P.chained id).Lawful where
  committed m p b member := by
    change b ∈ ((m.addProposal p).2.map (P.stampPrimary p)).toList at member
    rw [ProposalManager.addProposal_commit] at member
    obtain ⟨father, found, rfl⟩ := Option.map_eq_some_iff.mp (Option.mem_toList.mp member)
    exact ⟨father, ⟨_, found, .inl rfl⟩, stampPrimary_hash P p father⟩
  father m p some := by
    change ((m.addProposal p).2.map (P.stampPrimary p)).toList ≠ [] at some
    rw [ProposalManager.addProposal_commit] at some
    cases found : m.getProposal p.header.prehash with
    | none =>
        rw [found] at some
        exact absurd rfl some
    | some father => rfl
  stored m p key q found := by
    rw [SlotProtocol.chained, ProposalManager.addProposal_find] at found
    split_ifs at found with own
    · cases found
      exact .inl ⟨own, rfl⟩
    · exact .inr found
  certificate := addQC_localBlock id

theorem Chained.lawful {P : ChainedProtocol} (chained : Chained P) : P.Lawful := by
  cases chained with
  | tdHotstuff cfg id => exact chained_lawful (TdHotstuff.protocol cfg) id
  | slotHs1 cfg id => exact chained_lawful (SlotHs1.protocol cfg) id
  | hs cfg => exact Hs.protocol_lawful cfg
  | hs1 cfg => exact Hs1.protocol_lawful cfg
  | hs2 cfg => exact Hs2.protocol_lawful cfg

/-- Each committed hash is certified by the verified certificate of an accepted proposal,
and the accepted proposal that triggered the commit extends what its own certificate names. -/
def CertifiedCommits (P : ChainedProtocol) (r : ChainedReplica) : Prop :=
  ∀ commit ∈ r.commits,
    (∃ a ∈ r.accepted, a.header.qc.hash = commit.2.hash ∧ P.verifyQC a.header.qc = true) ∧
      commit.1 ∈ r.accepted ∧ commit.1.header.prehash = commit.1.header.qc.hash

instance (P : ChainedProtocol) (r : ChainedReplica) : Decidable (CertifiedCommits P r) :=
  inferInstanceAs (Decidable (∀ commit ∈ r.commits, _))

/-- An accepted proposal that names a father names the block its certificate is for, and
in view 1 too that certificate passes `VerifyQC`. -/
def LinkChecked (P : ChainedProtocol) (r : ChainedReplica) : ChainedEvent → Prop
  | .proposal p => P.verify r.manager p = true → p.header.prehash = [] ∨
      p.header.prehash = p.header.qc.hash ∧
        (p.header.view = 1 → P.verifyQC p.header.qc = true)
  | .certificate _ => True

instance (P : ChainedProtocol) (r : ChainedReplica) : (e : ChainedEvent) →
    Decidable (LinkChecked P r e)
  | .proposal p => inferInstanceAs (Decidable (P.verify r.manager p = true → _))
  | .certificate _ => .isTrue trivial

/-- The proposal starts a chain, or extends what its verified certificate names. -/
def VerifiedLink (P : ChainedProtocol) (a : Proposal) : Prop :=
  a.header.prehash = [] ∨
    a.header.prehash = a.header.qc.hash ∧ P.verifyQC a.header.qc = true

structure Tracked (P : ChainedProtocol) (r : ChainedReplica) : Prop where
  stored : ∀ key q, r.manager.getProposal key = some q → key = q.hash ∧ q ∈ r.accepted
  named : ∀ a ∈ r.accepted, a.hash ≠ []
  linked : ∀ a ∈ r.accepted, VerifiedLink P a
  certified : CertifiedCommits P r

section Runs
variable {P : ChainedProtocol} {r r' : ChainedReplica}

theorem verifiedLink_of_accept {p : Proposal} (accept : P.verify r.manager p = true)
    (checked : LinkChecked P r (.proposal p)) : VerifiedLink P p := by
  rcases checked accept with root | ⟨link, first⟩
  · exact .inl root
  · refine .inr ⟨link, ?_⟩
    by_cases one : p.header.view = 1
    · exact first one
    · exact (verifyWith_qc accept one).2

theorem Tracked.accept (law : P.Lawful) (inv : Tracked P r) {p : Proposal}
    (accept : P.verify r.manager p = true) (link : VerifiedLink P p) :
    Tracked P
      { manager := (P.addProposal r.manager p).1
        accepted := r.accepted ++ [p]
        commits := r.commits ++
          (P.addProposal r.manager p).2.reverse.map (fun b => (p, b)) } where
  stored key q found := by
    rcases law.stored _ _ _ _ found with ⟨rfl, rfl⟩ | old
    · exact ⟨rfl, List.mem_append_right _ (List.mem_singleton_self _)⟩
    · obtain ⟨named, known⟩ := inv.stored key q old
      exact ⟨named, List.mem_append_left _ known⟩
  named a member := by
    rcases List.mem_append.mp member with old | new
    · exact inv.named a old
    · rw [List.mem_singleton.mp new, verifyWith_hash accept]
      exact getHash_ne_nil P.crypto P.codec p
  linked a member := by
    rcases List.mem_append.mp member with old | new
    · exact inv.linked a old
    · rw [List.mem_singleton.mp new]
      exact link
  certified commit member := by
    rcases List.mem_append.mp member with old | new
    · obtain ⟨⟨a, known, facts⟩, trigger, extended⟩ := inv.certified commit old
      exact ⟨⟨a, List.mem_append_left _ known, facts⟩, List.mem_append_left _ trigger, extended⟩
    · obtain ⟨b, fetched, rfl⟩ := List.mem_map.mp new
      rw [List.mem_reverse] at fetched
      have own : p ∈ r.accepted ++ [p] := List.mem_append_right _ (List.mem_singleton_self p)
      obtain ⟨q, ⟨key, found, start⟩, sameHash⟩ := law.committed _ _ b fetched
      obtain ⟨rfl, known⟩ := inv.stored key q found
      refine ⟨?_, own, ?_⟩
      · -- The certificate is carried by whichever accepted block names `q` as its father.
        rcases start with father | ⟨h, c, stored, father⟩
        · obtain ⟨extended, valid⟩ := Or.resolve_left link (father ▸ inv.named q known)
          exact ⟨p, own, by rw [← extended, ← father, sameHash], valid⟩
        · obtain ⟨-, child⟩ := inv.stored h c stored
          obtain ⟨extended, valid⟩ :=
            Or.resolve_left (inv.linked c child) (father ▸ inv.named q known)
          exact ⟨c, List.mem_append_left _ child, by rw [← extended, ← father, sameHash], valid⟩
      · obtain ⟨father, hit⟩ :=
          Option.isSome_iff_exists.mp (law.father _ _ (List.ne_nil_of_mem fetched))
        obtain ⟨same, accepted⟩ := inv.stored _ father hit
        exact (Or.resolve_left link (same ▸ inv.named father accepted)).1

theorem Tracked.step (law : P.Lawful) (inv : Tracked P r) {e : ChainedEvent}
    (checked : LinkChecked P r e) (taken : P.step r e = some r') : Tracked P r' := by
  cases e with
  | proposal p =>
      cases accept : P.verify r.manager p with
      | false =>
          simp only [ChainedProtocol.step, accept] at taken
          cases taken
          exact inv
      | true =>
          simp only [ChainedProtocol.step, accept, if_true] at taken
          cases taken
          exact inv.accept law accept (verifiedLink_of_accept accept checked)
  | certificate qc =>
      cases taken
      refine ⟨?_, inv.named, inv.linked, inv.certified⟩
      intro key q found
      rw [ProposalManager.getProposal, law.certificate] at found
      exact inv.stored key q found

end Runs

/-- When every accepted proposal that names a father names the block its certificate is
for, and the certificate is verified in view 1 too, each of the five protocols commits
certified blocks only. -/
theorem commits_certified (P : ChainedProtocol) (chained : Chained P) (events : List ChainedEvent)
    (r : ChainedReplica) (ran : Run.exec P.step {} events = some r)
    (checked : Run.Along P.step (LinkChecked P) {} events) : CertifiedCommits P r := by
  have tracked : Tracked P r := by
    refine Run.exec_invariant (fun _ _ _ inv checked taken => Tracked.step chained.lawful inv
      checked taken) ⟨?_, ?_, ?_, ?_⟩ checked ran
    · intro key q found
      cases found
    · intro a member
      cases member
    · intro a member
      cases member
    · intro commit member
      cases member
  exact tracked.certified

/-! ### Sample runs, with four replicas of which three make a quorum -/

def quorumQC (p : Proposal) : QC :=
  { hash := p.hash
    view := p.header.view
    slot := p.header.slot
    isFinal := p.header.isFinal
    signatures := [1, 2, 3].map (fun id => Crypto.sample.signMessage id p.hash) }

/-- The proposal of a view on top of `qc`, which names `prehash` as its father. -/
def linkedProposal (view : Int) (prehash : Bytes) (qc : QC) (n : UInt8) : Proposal :=
  let p := generateWith .sample .sample view view qc [{ data := [n] }] 0 true 0
  let p := { p with header := { p.header with prehash := prehash } }
  { p with hash := getHash .sample .sample p }

def rootBlock (n : UInt8) : Proposal := linkedProposal 1 [] {} n

/-- The proposal of view 2 carries a certificate for `rootBlock 1` and extends `father`.
Views 3 and 4 extend what they certify. -/
def laterViews (father : Proposal) : List Proposal :=
  let second := linkedProposal 2 father.hash (quorumQC (rootBlock 1)) 3
  let third := linkedProposal 3 second.hash (quorumQC second) 4
  [second, third, linkedProposal 4 third.hash (quorumQC third) 5]

def sampleEvents (father : Proposal) : List ChainedEvent :=
  (rootBlock 1 :: rootBlock 2 :: laterViews father).map .proposal

def sampleProtocols : List ChainedProtocol :=
  [(TdHotstuff.protocol ⟨.sample, .sample, [1, 1, 1, 1], by decide, 1, 0, 0⟩).chained 4,
    (SlotHs1.protocol ⟨.sample, .sample, 4, 1, 0, 0⟩).chained 4,
    Hs.protocol ⟨.sample, .sample, 4, 1, 0⟩,
    Hs1.protocol ⟨4, .sample, .sample, 4, 1, 0, 0⟩,
    Hs2.protocol ⟨.sample, .sample, 4, 1, 0⟩]

theorem sampleProtocols_chained : ∀ P ∈ sampleProtocols, Chained P := by
  intro P member
  simp only [sampleProtocols, List.mem_cons, List.not_mem_nil, or_false] at member
  rcases member with rfl | rfl | rfl | rfl | rfl
  · exact .tdHotstuff _ 4
  · exact .slotHs1 _ 4
  · exact .hs _
  · exact .hs1 _
  · exact .hs2 _

theorem commits_certified_sample : sampleProtocols.Forall fun P => ∃ r,
    Run.exec P.step {} (sampleEvents (rootBlock 1)) = some r ∧
      (rootBlock 1).hash ∈ r.commits.map (fun commit => commit.2.hash) ∧ CertifiedCommits P r := by
  refine List.forall_iff_forall_mem.mpr ?_
  intro P member
  have result : ∀ P ∈ sampleProtocols,
      Run.Along P.step (LinkChecked P) {} (sampleEvents (rootBlock 1)) ∧
        (Run.exec P.step {} (sampleEvents (rootBlock 1))).any (fun r =>
          (rootBlock 1).hash ∈ r.commits.map (fun commit => commit.2.hash)) = true := by
    decide
  obtain ⟨checked, committed⟩ := result P member
  obtain ⟨r, ran, here⟩ := (Option.any_eq_true _ _).mp committed
  exact ⟨r, ran, of_decide_eq_true here, commits_certified P (sampleProtocols_chained P member)
    _ r ran checked⟩

/-- The proposal of view 2 carries the certificate of one block and names a rival as its
father. Every protocol commits the rival, which no accepted certificate names. -/
theorem mismatched_link_commits : sampleProtocols.Forall fun P => Chained P ∧ ∃ r,
    Run.exec P.step {} (sampleEvents (rootBlock 2)) = some r ∧
      (rootBlock 2).hash ∈ r.commits.map (fun commit => commit.2.hash) ∧
      (∀ a ∈ r.accepted, a.header.qc.hash ≠ (rootBlock 2).hash) ∧ ¬ CertifiedCommits P r := by
  refine List.forall_iff_forall_mem.mpr ?_
  intro P member
  have result : ∀ P ∈ sampleProtocols,
      (Run.exec P.step {} (sampleEvents (rootBlock 2))).any (fun r =>
        (rootBlock 2).hash ∈ r.commits.map (fun commit => commit.2.hash) ∧
          (∀ a ∈ r.accepted, a.header.qc.hash ≠ (rootBlock 2).hash) ∧
          ¬ CertifiedCommits P r) = true := by
    decide
  obtain ⟨r, ran, here⟩ := (Option.any_eq_true _ _).mp (result P member)
  exact ⟨sampleProtocols_chained P member, r, ran, of_decide_eq_true here⟩

end ResDB.HotStuff
