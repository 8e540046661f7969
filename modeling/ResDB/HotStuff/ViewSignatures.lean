import Mathlib.Tactic
import ResDB.HotStuff.ViewSystem

/-! Signatures in circulation among replicas without slots: those of honest replicas stand
for votes these replicas cast. -/
namespace ResDB.HotStuff.ViewSystem
open ViewProtocol (Voted)

variable {P : ViewProtocol} {byz : Finset Int} {s s' : ViewSystem}

theorem Signed.mono {id : Int} {hash : Bytes} (more : s.voted ⊆ s'.voted)
    (signed : s.Signed id hash) : s'.Signed id hash := by
  obtain ⟨vote, cast, facts⟩ := signed
  exact ⟨vote, more cast, facts⟩

theorem Genuine.mono {hash : Bytes} {sign : SignatureInfo} (more : s.voted ⊆ s'.voted)
    (genuine : s.Genuine P byz hash sign) : s'.Genuine P byz hash sign :=
  fun valid honest => (genuine valid honest).mono more

theorem GenuineQC.mono {qc : QC} (more : s.voted ⊆ s'.voted) (genuine : s.GenuineQC P byz qc) :
    s'.GenuineQC P byz qc :=
  fun sign member => (genuine sign member).mono more

theorem Unforged.mono {message : Message} (more : s.voted ⊆ s'.voted)
    (unforged : s.Unforged P byz message) : s'.Unforged P byz message := by
  cases message with
  | newProposal p => exact GenuineQC.mono more unforged
  | vote cert => exact Genuine.mono more unforged

theorem genuineQC_empty : s.GenuineQC P byz {} := fun _ member => absurd member List.not_mem_nil

/-- Every honest signature that a replica keeps was made by its owner. -/
structure Keeps (P : ViewProtocol) (byz : Finset Int) (s : ViewSystem) (r : ViewReplica) :
    Prop where
  stored : ∀ v h, ∀ c ∈ r.votes v h, s.Genuine P byz h c.sign
  generic : s.GenuineQC P byz r.manager.genericQC
  parked : ∀ qc, r.formedQC = some qc → s.GenuineQC P byz qc

theorem Keeps.mono {r : ViewReplica} (more : s.voted ⊆ s'.voted) (keeps : Keeps P byz s r) :
    Keeps P byz s' r where
  stored v h c member := (keeps.stored v h c member).mono more
  generic := keeps.generic.mono more
  parked qc waiting := (keeps.parked qc waiting).mono more

structure Authentic (P : ViewProtocol) (byz : Finset Int) (s : ViewSystem) : Prop where
  network : ∀ e ∈ s.network, s.Unforged P byz e.message
  replica : ∀ j, Keeps P byz s (s.replica j)

theorem Authentic.update (inv : Authentic P byz s) {id : Int} {r : ViewReplica}
    (replica : s'.replica = (s.set id r).replica) (more : s.voted ⊆ s'.voted)
    (network : ∀ e ∈ s'.network, e ∈ s.network ∨ s'.Unforged P byz e.message)
    (keeps : Keeps P byz s r) : Authentic P byz s' where
  network e member := by
    cases network e member with
    | inl old => exact (inv.network e old).mono more
    | inr new => exact new
  replica := by
    rw [replica]
    exact set_forall (fun _ r => Keeps P byz s' r) s (keeps.mono more)
      (fun j => (inv.replica j).mono more)

theorem generateProposal_genuine (inv : Authentic P byz s) (id : Int) (txns : List Transaction)
    (now : ℕ) :
    s.GenuineQC P byz (P.generateProposal id (s.replica id).manager txns now).header.qc := by
  by_cases named : (s.replica id).manager.genericQC.hash = []
  · have field := (generateWith_root P.crypto P.codec id (s.replica id).manager.round _ txns 0
      false now named).2
    have none : (P.generateProposal id (s.replica id).manager txns now).header.qc = {} :=
      congrArg (fun field => Option.getD field ({} : QC)) field
    rw [none]
    exact genuineQC_empty
  · have field := (generateWith_link P.crypto P.codec id (s.replica id).manager.round _ txns 0
      false now named).2
    have carried : (P.generateProposal id (s.replica id).manager txns now).header.qc =
        (s.replica id).manager.genericQC :=
      congrArg (fun field => Option.getD field ({} : QC)) field
    rw [carried]
    exact (inv.replica id).generic

theorem Authentic.send (inv : Authentic P byz s) {id : Int} (now : ℕ) (txn : Transaction)
    (rest : List Transaction) :
    Authentic P byz
      { s.set id { s.replica id with txns := rest, hasSent := true } with
        network := s.network ++
          P.broadcast (P.generateProposal id (s.replica id).manager [txn] now)
        broadcasts := s.broadcasts ++
          [P.generateProposal id (s.replica id).manager [txn] now] } := by
  refine inv.update rfl (List.Subset.refl _) ?_ ?_
  · intro e member
    cases List.mem_append.mp member with
    | inl old => exact .inl old
    | inr new =>
        right
        rw [ViewProtocol.mem_broadcast new]
        exact generateProposal_genuine inv id [txn] now
  · exact ⟨(inv.replica id).stored, (inv.replica id).generic, (inv.replica id).parked⟩

theorem Authentic.accept (calm : P.Calm) (inv : Authentic P byz s) {id : Int} {p : Proposal}
    (member : ⟨id, .newProposal p⟩ ∈ s.network) :
    Authentic P byz
      { s.set id (P.accepting id (s.replica id) p) with
        network := s.network ++
          [⟨P.nextLeader p.header.view, .vote (P.generateCertificate id p)⟩]
        voted := s.voted ++ [(id, p)] } := by
  have more : s.voted ⊆ s.voted ++ [(id, p)] := List.subset_append_left _ _
  have accepted := ViewProtocol.accepting_accepted calm id (s.replica id) p
  refine inv.update rfl more ?_ ?_
  · intro e sent
    cases List.mem_append.mp sent with
    | inl old => exact .inl old
    | inr new =>
        right
        rw [List.mem_singleton.mp new]
        intro _ _
        exact ⟨(id, p), List.mem_append_right _ (List.mem_singleton_self _), rfl, rfl⟩
  · constructor
    · rw [accepted.votes]
      exact (inv.replica id).stored
    · rcases accepted.generic with old | carried | waiting
      · rw [old]
        exact (inv.replica id).generic
      · rw [carried]
        exact inv.network _ member
      · exact (inv.replica id).parked _ waiting
    · intro qc waiting
      rcases accepted.parked with old | none
      · rw [old] at waiting
        exact (inv.replica id).parked qc waiting
      · rw [none] at waiting
        cases waiting

theorem Authentic.vote (calm : P.Calm) (inv : Authentic P byz s) {id : Int} {cert : Certificate}
    {r : ViewReplica} (member : ⟨id, .vote cert⟩ ∈ s.network)
    (voted : Voted P id (s.replica id) cert r) : Authentic P byz (s.set id r) := by
  have stored : ∀ v h, ∀ c ∈ (s.replica id).votes.insert cert v h, s.Genuine P byz h c.sign := by
    intro v h c inside
    rcases VoteStore.mem_insert inside with ⟨-, rfl, rfl⟩ | old
    · exact inv.network _ member
    · exact (inv.replica id).stored v h c old
  have formed : s.GenuineQC P byz
      (ViewProtocol.quorum ((s.replica id).votes.insert cert) cert.view cert.hash) := by
    intro sign signed
    obtain ⟨c, inside, rfl⟩ := List.mem_map.mp signed
    exact stored _ _ c inside
  refine inv.update rfl (List.Subset.refl _) (fun _ old => .inl old) ?_
  cases voted with
  | dropped => exact inv.replica id
  | counted _ _ => exact ⟨stored, (inv.replica id).generic, (inv.replica id).parked⟩
  | added _ _ _ =>
      simp only [ViewProtocol.addFormed, calm.adopt, ViewReplica.startNewRound]
      refine ⟨stored, ?_, (inv.replica id).parked⟩
      rcases ViewProtocol.adoptRound_generic (s.replica id).manager
        (ViewProtocol.quorum ((s.replica id).votes.insert cert) cert.view cert.hash) with new | old
      · exact (congrArg (s.GenuineQC P byz) new).mpr formed
      · exact (congrArg (s.GenuineQC P byz) old).mpr (inv.replica id).generic
  | parked _ _ _ =>
      refine ⟨stored, (inv.replica id).generic, ?_⟩
      intro qc waiting
      cases waiting
      exact formed

theorem Authentic.step (calm : P.Calm) (inv : Authentic P byz s) {a : ViewAction}
    (taken : s.step P byz a = some s') : Authentic P byz s' := by
  have idle : ∀ {id : Int} {r : ViewReplica}, Keeps P byz s r → Authentic P byz (s.set id r) :=
    fun keeps => inv.update rfl (List.Subset.refl _) (fun _ old => .inl old) keeps
  cases step_effect calm taken with
  | @transaction id now txn honest =>
      exact idle ⟨(inv.replica id).stored, (inv.replica id).generic, (inv.replica id).parked⟩
  | @send id now txn rest honest ready => exact inv.send now txn rest
  | @refused id p refuse =>
      obtain ⟨arrived, noted⟩ := ViewProtocol.noteProposal_eq (P := P) id (s.replica id) p
      rw [noted]
      exact idle ⟨(inv.replica id).stored, (inv.replica id).generic, (inv.replica id).parked⟩
  | accepted honest member accept => exact inv.accept calm member
  | vote honest member voted => exact inv.vote calm member voted
  | inject faulty unforged =>
      refine ⟨?_, fun j => Keeps.mono (s := s) (List.Subset.refl _) (inv.replica j)⟩
      intro e member
      cases List.mem_append.mp member with
      | inl old => exact inv.network e old
      | inr new =>
          rw [List.mem_singleton.mp new]
          exact unforged

theorem initial_authentic (P : ViewProtocol) (byz : Finset Int) : Authentic P byz {} where
  network e member := by cases member
  replica j := by
    refine ⟨?_, genuineQC_empty, ?_⟩
    · intro v h c member
      cases member
    · intro qc waiting
      cases waiting

end ResDB.HotStuff.ViewSystem
