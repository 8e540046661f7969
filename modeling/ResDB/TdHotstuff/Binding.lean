import Mathlib.Tactic
import ResDB.HotStuff.CommitLog
import ResDB.TdHotstuff.Chain

/-! Positions of certificates. Votes sign the hash only, and a certificate takes its
view, slot and finality from the vote that completes it or from the proposal that carries
it. They are those of the certified proposal as long as Byzantine replicas do not alter
them. -/
namespace ResDB.TdHotstuff
open WeightedQuorum HotStuff

def sentProposals {P : SlotProtocol} (s : System P) : List Proposal :=
  s.network.filterMap (fun e => match e.message with
    | .newProposal p => some p
    | .vote _ => none)

/-- The vote repeats the position of a proposal that was sent and has its hash. -/
def Faithful (cfg : Config) (s : System (protocol cfg)) (cert : Certificate) : Prop :=
  ∃ p ∈ sentProposals s, getHash cfg.crypto cfg.codec p = cert.hash ∧
    cert.view = p.header.view ∧ cert.slot = p.header.slot ∧ cert.isFinal = p.header.isFinal

instance (cfg : Config) (s : System (protocol cfg)) (cert : Certificate) :
    Decidable (Faithful cfg s cert) :=
  inferInstanceAs (Decidable (∃ p ∈ sentProposals s, _))

/-- What Byzantine replicas must leave alone: the vote that completes a certificate was
cast by a replica that runs the code or repeats the right position, and the certificate
inside an accepted proposal is one that such a replica formed. -/
def Unaltered (cfg : Config) (s : System (protocol cfg)) : Action → Prop
  | .deliver ⟨id, .newProposal p⟩ => (protocol cfg).verify (s.replica id).manager p = true →
      p ∈ s.broadcasts ∨ p.header.qc = {} ∨ p.header.qc ∈ s.formed
  | .deliver ⟨id, .vote cert⟩ =>
      (countVote cfg.crypto cfg.weights (s.replica id).votes cert).2.isSome = true →
        (∃ vote ∈ s.voted, cert = (protocol cfg).generateCertificate vote.1 vote.2) ∨
          Faithful cfg s cert
  | _ => True

instance (cfg : Config) (s : System (protocol cfg)) : (a : Action) → Decidable (Unaltered cfg s a)
  | .deliver ⟨id, .newProposal p⟩ =>
      inferInstanceAs (Decidable ((protocol cfg).verify (s.replica id).manager p = true → _))
  | .deliver ⟨id, .vote cert⟩ =>
      inferInstanceAs (Decidable
        ((countVote cfg.crypto cfg.weights (s.replica id).votes cert).2.isSome = true → _))
  | .transaction .. => .isTrue trivial
  | .send .. => .isTrue trivial
  | .inject _ => .isTrue trivial

/-- The certificate's position is that of a sent proposal with its hash. -/
def Named (cfg : Config) (s : System (protocol cfg)) (qc : QC) : Prop :=
  ∃ p ∈ sentProposals s, getHash cfg.crypto cfg.codec p = qc.hash ∧
    qc.view = p.header.view ∧ qc.slot = p.header.slot ∧ qc.isFinal = p.header.isFinal

def OrFormed (formed : List QC) (qc : QC) : Prop := qc = {} ∨ qc ∈ formed

structure Installed {P : SlotProtocol} (formed : List QC) (r : Replica P) : Prop where
  generic : OrFormed formed r.manager.genericQC
  lock : OrFormed formed r.manager.lockQC

/-- Honest replicas install and embed only certificates that were formed. -/
structure Bound (cfg : Config) (s : System (protocol cfg)) : Prop where
  formed : ∀ qc ∈ s.formed, Named cfg s qc
  made : ∀ p ∈ s.broadcasts, OrFormed s.formed p.header.qc
  installed : ∀ j, Installed s.formed (s.replica j)

section Runs
variable {cfg : Config} {byz : Finset Int} {s s' : System (protocol cfg)}

theorem mem_sentProposals {p : Proposal} :
    p ∈ sentProposals s ↔ ∃ id, ⟨id, .newProposal p⟩ ∈ s.network := by
  rw [sentProposals, List.mem_filterMap]
  constructor
  · rintro ⟨⟨id, message⟩, sent, found⟩
    cases message with
    | newProposal q =>
        cases found
        exact ⟨id, sent⟩
    | vote cert => cases found
  · rintro ⟨id, sent⟩
    exact ⟨_, sent, rfl⟩

theorem Named.mono {qc : QC} (more : s.network ⊆ s'.network) (named : Named cfg s qc) :
    Named cfg s' qc := by
  obtain ⟨p, sent, facts⟩ := named
  obtain ⟨id, listed⟩ := mem_sentProposals.mp sent
  exact ⟨p, mem_sentProposals.mpr ⟨id, more listed⟩, facts⟩

theorem OrFormed.mono {formed formed' : List QC} {qc : QC} (more : formed ⊆ formed')
    (known : OrFormed formed qc) : OrFormed formed' qc := known.imp_right (fun old => more old)

theorem Bound.keep (inv : Bound cfg s) {id : Int} {r : Replica (protocol cfg)}
    (generic : r.manager.genericQC = (s.replica id).manager.genericQC)
    (lock : r.manager.lockQC = (s.replica id).manager.lockQC) : Bound cfg (s.set id r) where
  formed := inv.formed
  made := inv.made
  installed := by
    refine System.set_forall (Installed s.formed) s ⟨?_, ?_⟩ inv.installed
    · rw [generic]
      exact (inv.installed id).generic
    · rw [lock]
      exact (inv.installed id).lock

theorem Bound.send (calm : (protocol cfg).NoAttack) (inv : Bound cfg s) {id : Int}
    (known : 1 ≤ id) {isFinal : Bool} {now : ℕ} {r : Replica (protocol cfg)}
    {made : List Proposal} {sent : List Envelope}
    (iteration : (protocol cfg).asyncSend id (s.replica id) isFinal now = some (r, made, sent)) :
    Bound cfg
      { s.set id r with network := s.network ++ sent, broadcasts := s.broadcasts ++ made } := by
  obtain ⟨-, txn, rest, rfl, rfl, rfl⟩ := SlotProtocol.asyncSend_some calm known iteration
  have own := inv.installed id
  refine ⟨?_, ?_, System.set_forall (Installed s.formed) s ⟨own.generic, own.lock⟩ inv.installed⟩
  · intro qc member
    exact (inv.formed qc member).mono (List.subset_append_left _ _)
  · intro p member
    rcases List.mem_append.mp member with old | new
    · exact inv.made p old
    · rw [List.mem_singleton.mp new]
      rcases SlotProtocol.generateProposal_qc id (s.replica id).manager [txn] (s.replica id).slot
        isFinal now with none | carried
      · exact .inl none
      · rw [carried]
        exact own.generic

theorem Bound.accept (inv : Bound cfg s) {id : Int} {p : Proposal} {network : List Envelope}
    {voted : List (Int × Proposal)} (more : s.network ⊆ network)
    (carried : OrFormed s.formed p.header.qc) :
    Bound cfg { s.set id ((protocol cfg).accepting (s.replica id) p) with
      network := network
      voted := voted } := by
  refine ⟨fun qc member => (inv.formed qc member).mono more, inv.made,
    System.set_forall (Installed s.formed) s ⟨?_, ?_⟩ inv.installed⟩
  · rw [SlotProtocol.accepting, ((s.replica id).manager.addProposal_manager p).1]
    rcases (s.replica id).manager.adoptQC_generic p.header.qc with new | old
    · rw [new]
      exact carried
    · rw [old]
      exact (inv.installed id).generic
  · rw [SlotProtocol.accepting, ((s.replica id).manager.addProposal_manager p).2.1]
    rcases (s.replica id).manager.adoptQC_lock p.header.qc with new | old
    · rw [new]
      exact carried
    · rw [old]
      exact (inv.installed id).lock

theorem named_of_vote (archive : Archive s) {votes votes' : Votes} {cert : Certificate} {qc : QC}
    (closed : countVote cfg.crypto cfg.weights votes cert = (votes', some qc))
    (unaltered : (∃ vote ∈ s.voted, cert = (protocol cfg).generateCertificate vote.1 vote.2) ∨
      Faithful cfg s cert) : Named cfg s qc := by
  obtain ⟨hash, view, slot, final, -⟩ := countVote_fields closed
  have faithful : Faithful cfg s cert := by
    rcases unaltered with ⟨⟨i, p⟩, cast, rfl⟩ | faithful
    · obtain ⟨right, sent⟩ := archive.voted _ cast
      exact ⟨p, mem_sentProposals.mpr ⟨i, sent⟩, right.symm, rfl, rfl, rfl⟩
    · exact faithful
  obtain ⟨p, sent, same, sameView, sameSlot, sameFinal⟩ := faithful
  exact ⟨p, sent, same.trans hash.symm, view.trans sameView, slot.trans sameSlot,
    final.trans sameFinal⟩

theorem Bound.form (calm : (protocol cfg).NoAttack) (inv : Bound cfg s) {id : Int} {votes : Votes}
    {qc : QC} (named : Named cfg s qc) :
    Bound cfg { s.set id { s.replica id with
        votes := votes
        manager := (protocol cfg).addQC id (s.replica id).manager qc
        ready := true } with
      formed := s.formed ++ [qc] } := by
  have more : s.formed ⊆ s.formed ++ [qc] := List.subset_append_left _ _
  refine ⟨?_, fun p member => (inv.made p member).mono more,
    System.set_forall (Installed (s.formed ++ [qc])) s ⟨?_, ?_⟩
      (fun j => ⟨(inv.installed j).generic.mono more, (inv.installed j).lock.mono more⟩)⟩
  · intro formed member
    rcases List.mem_append.mp member with old | new
    · exact inv.formed formed old
    · rw [List.mem_singleton.mp new]
      exact named
  · rcases SlotProtocol.addQC_generic calm id (s.replica id).manager qc with new | old
    · rw [new]
      exact .inr (List.mem_append_right _ (List.mem_singleton_self qc))
    · rw [old]
      exact (inv.installed id).generic.mono more
  · exact (addQC_lockQC id (s.replica id).manager qc) ▸ (inv.installed id).lock.mono more

theorem Bound.step (calm : (protocol cfg).NoAttack) (archive : Archive s) (inv : Bound cfg s)
    {a : Action} (unaltered : Unaltered cfg s a) (taken : s.step byz a = some s') :
    Bound cfg s' := by
  cases System.step_effect taken with
  | transaction honest => exact inv.keep rfl rfl
  | send honest iteration => exact inv.send calm honest.1 iteration
  | refused refuse => exact inv
  | @accepted id p honest member accept =>
      have carried : OrFormed s.formed p.header.qc := by
        rcases unaltered accept with own | carried
        · exact inv.made p own
        · exact carried
      exact inv.accept (List.subset_append_left _ _) carried
  | counted honest member waiting => exact inv.keep rfl rfl
  | formed honest member closed =>
      apply inv.form calm
      exact named_of_vote archive closed (unaltered (congrArg (·.2.isSome) closed))
  | inject faulty unforged =>
      exact ⟨fun qc member => (inv.formed qc member).mono (List.subset_append_left _ _),
        inv.made, inv.installed⟩

theorem run_bound (calm : (protocol cfg).NoAttack) {acts : List Action}
    (unaltered : Run.Along (System.step byz) (Unaltered cfg) (protocol cfg).initial acts)
    (ran : Run.exec (System.step byz) (protocol cfg).initial acts = some s) : Bound cfg s := by
  have keep : ∀ s a s', Archive s ∧ Bound cfg s → Unaltered cfg s a →
      System.step byz s a = some s' → Archive s' ∧ Bound cfg s' := by
    intro s a s' inv unaltered taken
    exact ⟨inv.1.step taken, inv.2.step calm inv.1 unaltered taken⟩
  refine (Run.exec_invariant keep ⟨initial_archive, ?_, ?_, fun _ => ⟨.inl rfl, .inl rfl⟩⟩
    unaltered ran).2
  · intro qc member
    cases member
  · intro p member
    cases member

end Runs

/-- As long as Byzantine replicas leave the positions of votes and certificates alone,
the highest and the locked certificate of every replica carry view, slot and finality of any
sent proposal whose hash they name. -/
theorem installed_positions_bound (cfg : Config) (calm : (protocol cfg).NoAttack)
    (byz : Finset Int) (acts : List Action) (s : System (protocol cfg))
    (ran : Run.exec (System.step byz) (protocol cfg).initial acts = some s)
    (unaltered : Run.Along (System.step byz) (Unaltered cfg) (protocol cfg).initial acts)
    (collisionFree : CollisionFree cfg.crypto cfg.codec (sentProposals s)) (j : Int) (qc : QC)
    (installed : qc = (s.replica j).manager.genericQC ∨ qc = (s.replica j).manager.lockQC)
    (p : Proposal) (sent : p ∈ sentProposals s)
    (hash : qc.hash = getHash cfg.crypto cfg.codec p) :
    qc.view = p.header.view ∧ qc.slot = p.header.slot ∧ qc.isFinal = p.header.isFinal := by
  have bound := run_bound calm unaltered ran
  have formed : qc ∈ s.formed := by
    have known : OrFormed s.formed qc := by
      rcases installed with rfl | rfl
      · exact (bound.installed j).generic
      · exact (bound.installed j).lock
    rcases known with rfl | formed
    · exact absurd hash.symm (getHash_ne_nil cfg.crypto cfg.codec p)
    · exact formed
  obtain ⟨q, sentQ, sameHash, view, slot, final⟩ := bound.formed qc formed
  have header := (collisionFree q sentQ p sent (sameHash.trans hash)).1
  rw [← header]
  exact ⟨view, slot, final⟩

theorem installed_positions_bound_sample :
    ∃ s, Run.exec (System.step ∅) (protocol sampleConfig).initial lateFirstProposal = some s ∧
      (s.replica 1).manager.genericQC.hash = secondProposal.hash ∧
      (s.replica 1).manager.genericQC.view = secondProposal.header.view ∧
      (s.replica 1).manager.genericQC.slot = secondProposal.header.slot ∧
      (s.replica 1).manager.genericQC.isFinal = secondProposal.header.isFinal := by
  have result : (Run.exec (System.step ∅) (protocol sampleConfig).initial lateFirstProposal).map
      (fun s => (sentProposals s, (s.replica 1).manager.genericQC.hash)) =
      some ([firstProposal, firstProposal, secondProposal, secondProposal, thirdProposal,
        thirdProposal], secondProposal.hash) := by decide
  obtain ⟨s, ran, facts⟩ := Option.map_eq_some_iff.mp result
  obtain ⟨sent, hash⟩ := Prod.mk.inj facts
  refine ⟨s, ran, hash, ?_⟩
  exact installed_positions_bound sampleConfig ⟨rfl, rfl⟩ ∅ lateFirstProposal s ran (by decide)
    (by rw [sent]; decide) 1 _ (.inl rfl) secondProposal (by rw [sent]; decide) hash

/-- Replica 2 repeats the signature of replica 1 under another position. -/
def movedQC : QC := { sampleQC firstProposal with view := 6, slot := 9, isFinal := true }

def movedProposal : Proposal := generateWith .sample .sample 2 7 movedQC [] 0 false 0

/-- Replica 2 weighs no more than a quorum may miss. Replica 1 accepts its proposal and
locks on a position that nobody voted for. -/
theorem moved_certificate_locks :
    weight (weightAt sampleConfig.weights) {2} <
        sampleConfig.weights.sum - weightThreshold sampleConfig.weights + 1 ∧
      ∃ s, Run.exec (System.step {2}) (protocol sampleConfig).initial
          [.transaction 1 0 (sampleTransaction 1), .send 1 false 0,
            .deliver ⟨1, .newProposal firstProposal⟩, .inject ⟨1, .newProposal movedProposal⟩,
            .deliver ⟨1, .newProposal movedProposal⟩] = some s ∧
        (s.replica 1).manager.lockQC.hash = firstProposal.hash ∧
        (s.replica 1).manager.lockQC.position = toLex (6, 9) ∧
        firstProposal.header.position = toLex (1, 0) := by
  refine ⟨by decide, ?_⟩
  have result : (Run.exec (System.step {2}) (protocol sampleConfig).initial
      [.transaction 1 0 (sampleTransaction 1), .send 1 false 0,
        .deliver ⟨1, .newProposal firstProposal⟩, .inject ⟨1, .newProposal movedProposal⟩,
        .deliver ⟨1, .newProposal movedProposal⟩]).map
      (fun s => (s.replica 1).manager.lockQC) = some movedQC := by decide
  obtain ⟨s, ran, lock⟩ := Option.map_eq_some_iff.mp result
  refine ⟨s, ran, ?_⟩
  rw [lock]
  exact ⟨rfl, rfl, rfl⟩

end ResDB.TdHotstuff
