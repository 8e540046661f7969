import Mathlib.Tactic
import ResDB.HotStuff.GapFree
import ResDB.TdHotstuff.Chain

/-! Agreement of TD-HotStuff under Byzantine replicas. Signatures of honest replicas
circulate only after those replicas voted, so a certificate heavy enough makes an honest
replica answerable for its block. Where honest replicas accept nothing but properly
certified extensions, their commit sequences agree. -/
namespace ResDB.TdHotstuff
open WeightedQuorum HotStuff LinkedLog

/-! ### Signatures in circulation -/

section Signatures
variable {cfg : Config} {byz : Finset Int} {s s' : System (protocol cfg)}

theorem genuine_mono {hash : Bytes} {sign : SignatureInfo} (more : s.voted ⊆ s'.voted)
    (genuine : s.Genuine byz hash sign) : s'.Genuine byz hash sign := by
  intro valid honest
  obtain ⟨vote, cast, facts⟩ := genuine valid honest
  exact ⟨vote, more cast, facts⟩

def GenuineQC (byz : Finset Int) (s : System (protocol cfg)) (qc : QC) : Prop :=
  ∀ sign ∈ qc.signatures, s.Genuine byz qc.hash sign

theorem GenuineQC.mono {qc : QC} (more : s.voted ⊆ s'.voted) (genuine : GenuineQC byz s qc) :
    GenuineQC byz s' qc :=
  fun sign member => genuine_mono more (genuine sign member)

theorem genuineQC_empty : GenuineQC byz s {} := fun _ member => absurd member List.not_mem_nil

theorem unforged_mono {message : Message} (more : s.voted ⊆ s'.voted)
    (unforged : s.Unforged byz message) : s'.Unforged byz message := by
  cases message with
  | newProposal p => exact GenuineQC.mono more unforged
  | vote cert => exact genuine_mono more unforged

/-- Every honest signature in a message, a stored vote or a highest certificate was
made by its owner. -/
structure Authentic (byz : Finset Int) (s : System (protocol cfg)) : Prop where
  network : ∀ e ∈ s.network, s.Unforged byz e.message
  stored : ∀ j v h, ∀ c ∈ (s.replica j).votes.receive v h, s.Genuine byz h c.sign
  generic : ∀ j, GenuineQC byz s (s.replica j).manager.genericQC

theorem Authentic.update (inv : Authentic byz s) {id : Int} {r : Replica (protocol cfg)}
    (replica : s'.replica = (s.set id r).replica) (more : s.voted ⊆ s'.voted)
    (network : ∀ e ∈ s'.network, e ∈ s.network ∨ s'.Unforged byz e.message)
    (stored : ∀ v h, ∀ c ∈ r.votes.receive v h,
      c ∈ (s.replica id).votes.receive v h ∨ s'.Genuine byz h c.sign)
    (generic : r.manager.genericQC = (s.replica id).manager.genericQC ∨
      GenuineQC byz s' r.manager.genericQC) : Authentic byz s' where
  network e member := by
    rcases network e member with old | new
    · exact unforged_mono more (inv.network e old)
    · exact new
  stored := by
    rw [replica]
    refine System.set_forall (fun x : Replica (protocol cfg) =>
      ∀ v h, ∀ c ∈ x.votes.receive v h, s'.Genuine byz h c.sign)
      s ?_ (fun j v h c member => genuine_mono more (inv.stored j v h c member))
    intro v h c member
    rcases stored v h c member with old | new
    · exact genuine_mono more (inv.stored id v h c old)
    · exact new
  generic := by
    rw [replica]
    refine System.set_forall (fun x => GenuineQC byz s' x.manager.genericQC) s ?_
      (fun j => (inv.generic j).mono more)
    rcases generic with old | new
    · rw [old]
      exact (inv.generic id).mono more
    · exact new

theorem Authentic.send (calm : (protocol cfg).NoAttack) (inv : Authentic byz s) {id : Int}
    (known : 1 ≤ id) {isFinal : Bool} {now : ℕ} {r : Replica (protocol cfg)}
    {made : List Proposal} {sent : List Envelope}
    (iteration : (protocol cfg).asyncSend id (s.replica id) isFinal now = some (r, made, sent)) :
    Authentic byz
      { s.set id r with network := s.network ++ sent, broadcasts := s.broadcasts ++ made } := by
  obtain ⟨-, txn, rest, rfl, rfl, rfl⟩ := SlotProtocol.asyncSend_some calm known iteration
  refine inv.update rfl (List.Subset.refl _) ?_ (fun _ _ _ old => .inl old) (.inl rfl)
  intro e member
  rcases List.mem_append.mp member with old | new
  · exact .inl old
  · right
    rw [SlotProtocol.mem_broadcast new]
    rcases SlotProtocol.generateProposal_qc id (s.replica id).manager [txn] (s.replica id).slot
      isFinal now with none | carried
    · exact (congrArg (GenuineQC byz s) none).mpr genuineQC_empty
    · exact (congrArg (GenuineQC byz s) carried).mpr (inv.generic id)

theorem Authentic.accept (inv : Authentic byz s) {id : Int} {p : Proposal}
    (member : ⟨id, .newProposal p⟩ ∈ s.network) :
    Authentic byz { s.set id ((protocol cfg).accepting (s.replica id) p) with
      network := s.network ++
        [⟨(protocol cfg).collector p, .vote ((protocol cfg).generateCertificate id p)⟩]
      voted := s.voted ++ [(id, p)] } := by
  have more : s.voted ⊆ s.voted ++ [(id, p)] := List.subset_append_left _ _
  refine inv.update rfl more ?_ (fun _ _ _ old => .inl old) ?_
  · intro e sent
    rcases List.mem_append.mp sent with old | new
    · exact .inl old
    · right
      rw [List.mem_singleton.mp new]
      intro _ _
      exact ⟨(id, p), List.mem_append_right _ (List.mem_singleton_self _), rfl, rfl⟩
  · rw [SlotProtocol.accepting, ((s.replica id).manager.addProposal_manager p).1]
    rcases (s.replica id).manager.adoptQC_generic p.header.qc with carried | old
    · rw [carried]
      exact .inr (GenuineQC.mono more (inv.network _ member))
    · exact .inl old

theorem Authentic.counted (inv : Authentic byz s) {id : Int} {cert c : Certificate}
    {votes : Votes} {qc : Option QC} {v : Int} {h : Bytes}
    (member : ⟨id, .vote cert⟩ ∈ s.network)
    (result : countVote cfg.crypto cfg.weights (s.replica id).votes cert = (votes, qc))
    (stored : c ∈ votes.receive v h) :
    c ∈ (s.replica id).votes.receive v h ∨ s.Genuine byz h c.sign := by
  have origin : (v = cert.view ∧ h = cert.hash ∧ c = cert) ∨
      c ∈ (s.replica id).votes.receive v h := by
    apply countVote_receive
    rw [result]
    exact stored
  rcases origin with ⟨-, rfl, rfl⟩ | old
  · exact .inr (inv.network _ member)
  · exact .inl old

theorem Authentic.formed (inv : Authentic byz s) {id : Int} {cert : Certificate}
    {votes : Votes} {qc : QC} (member : ⟨id, .vote cert⟩ ∈ s.network)
    (closed : countVote cfg.crypto cfg.weights (s.replica id).votes cert = (votes, some qc)) :
    GenuineQC byz s qc := by
  obtain ⟨sameHash, origin⟩ := countVote_signatures closed
  intro sign signed
  rw [sameHash]
  rcases origin sign signed with rfl | ⟨c, stored, rfl⟩
  · exact inv.network _ member
  · exact inv.stored id _ _ c stored

theorem Authentic.step (calm : (protocol cfg).NoAttack) (inv : Authentic byz s) {a : Action}
    (taken : s.step byz a = some s') : Authentic byz s' := by
  cases System.step_effect taken with
  | transaction honest =>
      exact inv.update rfl (List.Subset.refl _) (fun _ old => .inl old)
        (fun _ _ _ old => .inl old) (.inl rfl)
  | send honest iteration => exact inv.send calm honest.1 iteration
  | refused refuse => exact inv
  | accepted honest member accept => exact inv.accept member
  | counted honest member waiting =>
      exact inv.update rfl (List.Subset.refl _) (fun _ old => .inl old)
        (fun _ _ _ stored => inv.counted member waiting stored) (.inl rfl)
  | @formed id cert votes qc honest member closed =>
      refine inv.update rfl (List.Subset.refl _) (fun _ old => .inl old)
        (fun _ _ _ stored => inv.counted member closed stored) ?_
      rcases SlotProtocol.addQC_generic calm id (s.replica id).manager qc with new | old
      · rw [new]
        exact .inr (inv.formed member closed)
      · exact .inl old
  | inject faulty unforged =>
      refine ⟨?_, inv.stored, inv.generic⟩
      intro e member
      rcases List.mem_append.mp member with old | new
      · exact inv.network e old
      · rw [List.mem_singleton.mp new]
        exact unforged

theorem run_authentic (calm : (protocol cfg).NoAttack) {acts : List Action}
    (ran : Run.exec (System.step byz) (protocol cfg).initial acts = some s) :
    Authentic byz s := by
  refine Run.exec_invariant_always (fun _ _ _ inv taken => Authentic.step calm inv taken)
    ⟨?_, ?_, fun _ => genuineQC_empty⟩ ran
  · intro e member
    cases member
  · intro j v h c member
    cases member

end Signatures

/-! ### Agreement -/

/-- The proposal starts a chain, or the block it extends is the one its certificate
names and distinct replicas of the threshold's weight validly signed that certificate. -/
def Certified (cfg : Config) (p : Proposal) : Prop :=
  p.header.prehash = [] ∨
    p.header.qc.hash = p.header.prehash ∧
      weightThreshold cfg.weights ≤
        weight (weightAt cfg.weights) (validSigners cfg.crypto cfg.weights p.header.qc)

instance (cfg : Config) (p : Proposal) : Decidable (Certified cfg p) :=
  inferInstanceAs (Decidable (_ ∨ _ ∧ _))

/-- Whatever an honest replica accepts extends what it stores, under a certificate of
full weight. -/
def Safe (cfg : Config) (s : System (protocol cfg)) : Action → Prop
  | .deliver ⟨id, .newProposal p⟩ => (protocol cfg).verify (s.replica id).manager p = true →
      Extends (s.replica id).manager p ∧ Certified cfg p
  | _ => True

instance (cfg : Config) (s : System (protocol cfg)) : (a : Action) → Decidable (Safe cfg s a)
  | .deliver ⟨id, .newProposal p⟩ =>
      inferInstanceAs (Decidable ((protocol cfg).verify (s.replica id).manager p = true → _))
  | .deliver ⟨_, .vote _⟩ => .isTrue trivial
  | .transaction .. => .isTrue trivial
  | .send .. => .isTrue trivial
  | .inject _ => .isTrue trivial

section SafeRuns
variable {cfg : Config} {byz : Finset Int} {s : System (protocol cfg)} {acts : List Action}

theorem Safe.orderly (a : Action) (safe : Safe cfg s a) : Orderly s a := by
  match a with
  | .deliver ⟨id, .newProposal p⟩ => exact fun accept => (safe accept).1
  | .deliver ⟨_, .vote _⟩ => trivial
  | .transaction .. => trivial
  | .send .. => trivial
  | .inject _ => trivial

theorem certified_step {s' : System (protocol cfg)} {a : Action}
    (inv : ∀ vote ∈ s.voted, Certified cfg vote.2) (safe : Safe cfg s a)
    (taken : s.step byz a = some s') : ∀ vote ∈ s'.voted, Certified cfg vote.2 := by
  intro vote cast
  rcases step_accepts_or_keeps taken with ⟨id, p, rfl, -, -, accept, rfl⟩ | same
  · rcases List.mem_append.mp cast with old | new
    · exact inv vote old
    · rw [List.mem_singleton.mp new]
      exact (safe accept).2
  · rw [same.voted] at cast
    exact inv vote cast

theorem run_certified (safe : Run.Along (System.step byz) (Safe cfg) (protocol cfg).initial acts)
    (ran : Run.exec (System.step byz) (protocol cfg).initial acts = some s) :
    ∀ vote ∈ s.voted, Certified cfg vote.2 :=
  Run.exec_invariant (fun _ _ _ inv safe taken => certified_step inv safe taken)
    (fun _ cast => absurd cast List.not_mem_nil) safe ran

theorem quorums_outweigh (cfg : Config)
    (light : weight (weightAt cfg.weights) byz ≤ cfg.weights.sum - weightThreshold cfg.weights) :
    weight (weightAt cfg.weights) (replicas cfg.weights.length) +
        weight (weightAt cfg.weights) byz <
      weightThreshold cfg.weights + weightThreshold cfg.weights := by
  have above := two_thirds_lt_threshold cfg.weights
  rw [weight_replicas]
  omega

theorem voted_bound (archive : Archive s)
    (collisionFree : CollisionFree cfg.crypto cfg.codec (s.voted.map Prod.snd)) {i j : Int}
    {p q : Proposal} (votedP : (i, p) ∈ s.voted) (votedQ : (j, q) ∈ s.voted)
    (same : p.hash = q.hash) : p.block = q.block := by
  have digest : getHash cfg.crypto cfg.codec p = getHash cfg.crypto cfg.codec q := by
    have hp := (archive.voted _ votedP).1
    have hq := (archive.voted _ votedQ).1
    exact hp.symm.trans (same.trans hq)
  obtain ⟨header, transactions⟩ := collisionFree p (List.mem_map_of_mem votedP) q
    (List.mem_map_of_mem votedQ) digest
  simp only [Proposal.block, same, header, transactions]

theorem entry_backed (archive : Archive s) (authentic : Authentic byz s)
    (certified : ∀ vote ∈ s.voted, Certified cfg vote.2) {log : Int → List (Bytes × Header)}
    (logged : ∀ j, Logged s j (log j)) (i : Int) (k : ℕ) (inside : k + 1 < (log i).length) :
    ∃ S ⊆ replicas cfg.weights.length,
      weightThreshold cfg.weights ≤ weight (weightAt cfg.weights) S ∧
        ∀ r ∈ S, r ∉ byz → ∃ a ∈ log r, a.1 = (log i)[k].1 := by
  obtain ⟨father, votedFather, named⟩ :=
    (logged i).accepted _ (List.getElem_mem (Nat.lt_of_succ_lt inside))
  obtain ⟨p, votedP, child⟩ := (logged i).accepted _ (List.getElem_mem inside)
  have link : p.header.prehash = (log i)[k].1 := by
    rw [← (logged i).linked.parent_succ inside, ← child]
    rfl
  have nonempty : p.header.prehash ≠ [] := by
    rw [link, ← named]
    exact archive.hash_ne votedFather
  obtain ⟨extended, heavy⟩ := (certified _ votedP).resolve_left nonempty
  refine ⟨validSigners cfg.crypto cfg.weights p.header.qc, Finset.filter_subset _ _, heavy, ?_⟩
  intro r member good
  obtain ⟨known, sign, signed, rfl, valid⟩ := Finset.mem_filter.mp member
  -- The signature of an honest replica stands for a vote, and its log has what it voted for.
  have circulating := authentic.network _ (archive.voted _ votedP).2
  rw [mem_replicas] at known
  obtain ⟨⟨_, q⟩, cast, rfl, sameHash⟩ := circulating sign signed valid ⟨known.1, known.2, good⟩
  refine ⟨q.stub, (logged _).complete q cast, ?_⟩
  rw [← link, ← extended, ← sameHash]
  rfl

theorem committed_block_agrees {i j : Int}
    (light : weight (weightAt cfg.weights) byz ≤ cfg.weights.sum - weightThreshold cfg.weights)
    (calm : (protocol cfg).NoAttack)
    (ran : Run.exec (System.step byz) (protocol cfg).initial acts = some s)
    (safe : Run.Along (System.step byz) (Safe cfg) (protocol cfg).initial acts)
    (collisionFree : CollisionFree cfg.crypto cfg.codec (s.voted.map Prod.snd))
    (honestI : System.Honest (protocol cfg) byz i) (honestJ : System.Honest (protocol cfg) byz j)
    (k : ℕ) (ki : k < (s.replica i).commitQ.length) (kj : k < (s.replica j).commitQ.length) :
    (s.replica i).commitQ[k].block = (s.replica j).commitQ[k].block := by
  have archive := run_archive ran
  choose log logged using run_logged (safe.imp (fun _ => Safe.orderly)) ran
  obtain ⟨laterI, nameI⟩ := (logged i).commit_entry ki
  obtain ⟨laterJ, nameJ⟩ := (logged j).commit_entry kj
  have names : (log i)[k].1 = (log j)[k].1 := by
    refine names_agree (weightAt cfg.weights) (quorums_outweigh cfg light)
      (fun i _ _ => (logged i).linked) ?_ ?_
      (fun i _ _ k inside => entry_backed archive (run_authentic calm ran)
        (run_certified safe ran) logged i k inside)
      (mem_replicas.mpr ⟨honestI.1, honestI.2.1⟩) honestI.2.2
      (mem_replicas.mpr ⟨honestJ.1, honestJ.2.1⟩) honestJ.2.2 laterI laterJ
    · intro i _ _ b member
      obtain ⟨p, cast, rfl⟩ := (logged i).accepted b member
      exact archive.hash_ne cast
    · intro i _ _ j _ _ a memberA b memberB same
      obtain ⟨p, castP, rfl⟩ := (logged i).accepted a memberA
      obtain ⟨q, castQ, rfl⟩ := (logged j).accepted b memberB
      have header := Proposal.header_of_block
        (voted_bound archive collisionFree castP castQ same)
      exact congrArg Header.prehash header
  obtain ⟨p, castP, blockP⟩ := archive.committed i _ (List.getElem_mem ki)
  obtain ⟨q, castQ, blockQ⟩ := archive.committed j _ (List.getElem_mem kj)
  rw [blockP, blockQ]
  apply voted_bound archive collisionFree castP castQ
  rw [← Proposal.hash_of_block blockP, ← Proposal.hash_of_block blockQ, ← nameI, ← nameJ, names]

end SafeRuns

/-- Agreement. The Byzantine replicas weigh at most what a quorum may miss. In a run in
which every proposal an honest replica accepts extends what that replica stores, under a
certificate of full weight for the block it extends, any two honest replicas commit
prefix-comparable sequences of blocks and number their transactions alike. -/
theorem commits_agree (cfg : Config) (calm : (protocol cfg).NoAttack) (byz : Finset Int)
    (light : weight (weightAt cfg.weights) byz ≤ cfg.weights.sum - weightThreshold cfg.weights)
    (acts : List Action) (s : System (protocol cfg))
    (ran : Run.exec (System.step byz) (protocol cfg).initial acts = some s)
    (safe : Run.Along (System.step byz) (Safe cfg) (protocol cfg).initial acts)
    (collisionFree : CollisionFree cfg.crypto cfg.codec (s.voted.map Prod.snd)) (i j : Int)
    (honestI : System.Honest (protocol cfg) byz i) (honestJ : System.Honest (protocol cfg) byz j) :
    ((s.replica i).commitQ.map Proposal.block <+: (s.replica j).commitQ.map Proposal.block ∧
        (asyncCommit (s.replica i).commitQ).map Transaction.unstamped <+:
          (asyncCommit (s.replica j).commitQ).map Transaction.unstamped) ∨
      ((s.replica j).commitQ.map Proposal.block <+: (s.replica i).commitQ.map Proposal.block ∧
        (asyncCommit (s.replica j).commitQ).map Transaction.unstamped <+:
          (asyncCommit (s.replica i).commitQ).map Transaction.unstamped) := by
  have comparable : (s.replica i).commitQ.map Proposal.block <+:
        (s.replica j).commitQ.map Proposal.block ∨
      (s.replica j).commitQ.map Proposal.block <+: (s.replica i).commitQ.map Proposal.block := by
    apply comparable_of_agree
    intro k ki kj
    rw [List.length_map] at ki kj
    rw [List.getElem_map, List.getElem_map]
    exact committed_block_agrees light calm ran safe collisionFree honestI honestJ k ki kj
  rcases comparable with shorter | shorter
  · exact .inl ⟨shorter, asyncCommit_mono shorter⟩
  · exact .inr ⟨shorter, asyncCommit_mono shorter⟩

theorem commits_agree_sample :
    ∃ s, Run.exec (System.step ∅) (protocol sampleConfig).initial timelyProposals = some s ∧
      (s.replica 1).commitQ = [firstProposal] ∧
      (s.replica 2).commitQ = [firstProposal, secondProposal] ∧
      (((s.replica 1).commitQ.map Proposal.block <+: (s.replica 2).commitQ.map Proposal.block ∧
        (asyncCommit (s.replica 1).commitQ).map Transaction.unstamped <+:
          (asyncCommit (s.replica 2).commitQ).map Transaction.unstamped) ∨
      ((s.replica 2).commitQ.map Proposal.block <+: (s.replica 1).commitQ.map Proposal.block ∧
        (asyncCommit (s.replica 2).commitQ).map Transaction.unstamped <+:
          (asyncCommit (s.replica 1).commitQ).map Transaction.unstamped)) := by
  have result : (Run.exec (System.step ∅) (protocol sampleConfig).initial timelyProposals).map
      (fun s => ((s.replica 1).commitQ, (s.replica 2).commitQ, s.voted)) =
      some ([firstProposal], [firstProposal, secondProposal],
        [(1, firstProposal), (1, secondProposal), (2, firstProposal), (2, secondProposal),
          (2, thirdProposal)]) := by decide
  obtain ⟨s, ran, facts⟩ := Option.map_eq_some_iff.mp result
  simp only [Prod.mk.injEq] at facts
  obtain ⟨first, second, voted⟩ := facts
  refine ⟨s, ran, first, second, ?_⟩
  exact commits_agree sampleConfig ⟨rfl, rfl⟩ ∅ (by decide) timelyProposals s ran (by decide)
    (by rw [voted]; decide) 1 2 (by decide) (by decide)

/-- Nobody is faulty, but the first proposal reaches replica 2 late. The replicas commit
different blocks first. -/
theorem late_proposal_splits_commits :
    ∃ s, Run.exec (System.step ∅) (protocol sampleConfig).initial lateFirstProposal = some s ∧
      ¬ ((s.replica 1).commitQ.map Proposal.block <+: (s.replica 2).commitQ.map Proposal.block) ∧
      ¬ ((s.replica 2).commitQ.map Proposal.block <+:
        (s.replica 1).commitQ.map Proposal.block) := by
  have result : (Run.exec (System.step ∅) (protocol sampleConfig).initial lateFirstProposal).map
      (fun s => ((s.replica 1).commitQ, (s.replica 2).commitQ)) =
      some ([firstProposal], [secondProposal]) := by decide
  obtain ⟨s, ran, committed⟩ := Option.map_eq_some_iff.mp result
  obtain ⟨first, second⟩ := Prod.mk.inj committed
  refine ⟨s, ran, ?_⟩
  rw [first, second]
  decide

end ResDB.TdHotstuff
