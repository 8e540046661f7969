import Mathlib.Tactic
import ResDB.Library.LinkedLog
import ResDB.HotStuff.SlotSystem

/-! What replicas push to `commit_q_` and how `AsyncCommit` numbers it. A replica
commits the direct father of an accepted proposal and no other ancestor, so its commits are
gap-free when the proposals it accepts extend each other. -/
namespace ResDB.HotStuff
open LinkedLog

/-! ### Numbering -/

/-- The `seq` counter of `AsyncCommit` running over the transactions it commits. -/
def numberFrom : Int → List Transaction → List Transaction
  | _, [] => []
  | seq, txn :: rest => { txn with id := seq } :: numberFrom (seq + 1) rest

/-- `AsyncCommit` after it has popped everything that was pushed. -/
def asyncCommit (commitQ : List Proposal) : List Transaction :=
  numberFrom 1 (commitQ.flatMap Proposal.transactions)

/-- `ReceiveProposal` overwrites `next_primary` of the transactions it commits. -/
def Transaction.unstamped (txn : Transaction) : Transaction := { txn with nextPrimary := 0 }

/-- What the hash of a proposal is computed from, with the hash. -/
structure Block where
  hash : Bytes
  header : Header
  transactions : List Transaction
  deriving DecidableEq

def Proposal.block (p : Proposal) : Block :=
  ⟨p.hash, p.header, p.transactions.map Transaction.unstamped⟩

theorem Proposal.hash_of_block {p q : Proposal} (same : q.block = p.block) : q.hash = p.hash :=
  congrArg Block.hash same

theorem Proposal.header_of_block {p q : Proposal} (same : q.block = p.block) :
    q.header = p.header := congrArg Block.header same

theorem numberFrom_append (seq : Int) (txns more : List Transaction) :
    numberFrom seq (txns ++ more) = numberFrom seq txns ++ numberFrom (seq + txns.length) more := by
  induction txns generalizing seq with
  | nil => simp [numberFrom]
  | cons txn rest ih =>
      simp only [List.cons_append, numberFrom, ih, List.length_cons, Nat.cast_add, Nat.cast_one]
      rw [add_assoc, add_comm (1 : Int)]

theorem numberFrom_unstamped (seq : Int) (txns : List Transaction) :
    (numberFrom seq txns).map Transaction.unstamped =
      numberFrom seq (txns.map Transaction.unstamped) := by
  induction txns generalizing seq with
  | nil => rfl
  | cons txn rest ih =>
      simp only [numberFrom, List.map_cons, ih]
      rfl

theorem asyncCommit_blocks (commitQ : List Proposal) :
    (asyncCommit commitQ).map Transaction.unstamped =
      numberFrom 1 ((commitQ.map Proposal.block).flatMap Block.transactions) := by
  rw [asyncCommit, numberFrom_unstamped, List.map_flatMap, List.flatMap_map]
  rfl

theorem asyncCommit_mono {q q' : List Proposal}
    (shorter : q.map Proposal.block <+: q'.map Proposal.block) :
    (asyncCommit q).map Transaction.unstamped <+: (asyncCommit q').map Transaction.unstamped := by
  obtain ⟨more, whole⟩ := shorter
  rw [asyncCommit_blocks, asyncCommit_blocks, ← whole, List.flatMap_append, numberFrom_append]
  exact List.prefix_append _ _

theorem asyncCommit_prefix {q q' : List Proposal} (shorter : q <+: q') :
    asyncCommit q <+: asyncCommit q' := by
  obtain ⟨more, rfl⟩ := shorter
  rw [asyncCommit, asyncCommit, List.flatMap_append, numberFrom_append]
  exact List.prefix_append _ _

/-! ### Stored and committed blocks -/

section Stamp
variable (P : SlotProtocol) (p committed : Proposal)

@[simp] theorem stampPrimary_hash : (P.stampPrimary p committed).hash = committed.hash := by
  unfold SlotProtocol.stampPrimary
  split_ifs <;> rfl

@[simp] theorem stampPrimary_header : (P.stampPrimary p committed).header = committed.header := by
  unfold SlotProtocol.stampPrimary
  split_ifs <;> rfl

@[simp] theorem stampPrimary_block : (P.stampPrimary p committed).block = committed.block := by
  unfold SlotProtocol.stampPrimary
  split_ifs
  · simp only [Proposal.block, List.map_map, Block.mk.injEq, true_and]
    rfl
  · rfl

end Stamp

/-- Everything a replica stores or commits is a proposal it voted for, unchanged up to
`next_primary`. Votes are cast for delivered proposals whose hash is right. -/
structure Archive {P : SlotProtocol} (s : System P) : Prop where
  stored : ∀ j h p, (s.replica j).manager.getProposal h = some p → h = p.hash ∧ (j, p) ∈ s.voted
  committed : ∀ j, ∀ q ∈ (s.replica j).commitQ, ∃ p, (j, p) ∈ s.voted ∧ q.block = p.block
  voted : ∀ vote ∈ s.voted, vote.2.hash = getHash P.crypto P.codec vote.2 ∧
    ⟨vote.1, .newProposal vote.2⟩ ∈ s.network

section Archives
variable {P : SlotProtocol} {s s' : System P} {byz : Finset Int}

theorem addQC_localBlock (id : Int) (m : ProposalManager) (qc : QC) :
    (P.addQC id m qc).localBlock = m.localBlock := by
  simp only [SlotProtocol.addQC, ProposalManager.addQC, apply_ite ProposalManager.localBlock,
    ite_self]

theorem addQC_lockQC (id : Int) (m : ProposalManager) (qc : QC) :
    (P.addQC id m qc).lockQC = m.lockQC := by
  simp only [SlotProtocol.addQC, ProposalManager.addQC, apply_ite ProposalManager.lockQC, ite_self]

theorem asyncSend_keeps {id : Int} {r r' : Replica P} {isFinal : Bool} {now : ℕ}
    {made : List Proposal} {sent : List Envelope}
    (iteration : P.asyncSend id r isFinal now = some (r', made, sent)) :
    r'.manager = r.manager ∧ r'.commitQ = r.commitQ ∧ r'.votes = r.votes := by
  unfold SlotProtocol.asyncSend at iteration
  split at iteration
  · cases iteration
  · split at iteration
    · cases iteration
    · dsimp only at iteration
      split_ifs at iteration <;> cases iteration <;> exact ⟨rfl, rfl, rfl⟩

structure Untouched (s s' : System P) : Prop where
  blocks : ∀ j, (s'.replica j).manager.localBlock = (s.replica j).manager.localBlock
  queue : ∀ j, (s'.replica j).commitQ = (s.replica j).commitQ
  voted : s'.voted = s.voted
  network : s.network ⊆ s'.network

theorem step_accepts_or_keeps {a : Action} (taken : s.step byz a = some s') :
    (∃ id p, a = .deliver ⟨id, .newProposal p⟩ ∧ System.Honest P byz id ∧
      ⟨id, .newProposal p⟩ ∈ s.network ∧ P.verify (s.replica id).manager p = true ∧
      s' = { s.set id (P.accepting (s.replica id) p) with
        network := s.network ++ [⟨P.collector p, .vote (P.generateCertificate id p)⟩]
        voted := s.voted ++ [(id, p)] }) ∨ Untouched s s' := by
  cases System.step_effect taken with
  | transaction honest =>
      refine .inr ⟨?_, ?_, rfl, List.Subset.refl _⟩
      · exact System.set_same (·.manager.localBlock) s rfl
      · exact System.set_same Replica.commitQ s rfl
  | send honest iteration =>
      obtain ⟨manager, queue, -⟩ := asyncSend_keeps iteration
      refine .inr ⟨?_, ?_, rfl, List.subset_append_left _ _⟩
      · exact System.set_same (·.manager.localBlock) s (by rw [manager])
      · exact System.set_same Replica.commitQ s queue
  | refused refuse => exact .inr ⟨fun _ => rfl, fun _ => rfl, rfl, List.Subset.refl _⟩
  | @accepted id p honest member accept =>
      exact .inl ⟨id, p, rfl, honest, member, accept, rfl⟩
  | counted honest member waiting =>
      refine .inr ⟨?_, ?_, rfl, List.Subset.refl _⟩
      · exact System.set_same (·.manager.localBlock) s rfl
      · exact System.set_same Replica.commitQ s rfl
  | formed honest member closed =>
      refine .inr ⟨?_, ?_, rfl, List.Subset.refl _⟩
      · exact System.set_same (·.manager.localBlock) s (addQC_localBlock _ _ _)
      · exact System.set_same Replica.commitQ s rfl
  | inject faulty unforged =>
      exact .inr ⟨fun _ => rfl, fun _ => rfl, rfl, List.subset_append_left _ _⟩

theorem initial_archive : Archive P.initial where
  stored j h p found := by cases found
  committed j q member := absurd member List.not_mem_nil
  voted vote member := absurd member List.not_mem_nil

theorem Archive.keep (inv : Archive s) (same : Untouched s s') : Archive s' where
  stored j h p found := by
    rw [ProposalManager.getProposal, same.blocks j] at found
    rw [same.voted]
    exact inv.stored j h p found
  committed j q member := by
    rw [same.queue j] at member
    rw [same.voted]
    exact inv.committed j q member
  voted vote cast := by
    rw [same.voted] at cast
    exact ⟨(inv.voted vote cast).1, same.network (inv.voted vote cast).2⟩

theorem Archive.accept (inv : Archive s) {id : Int} {p : Proposal}
    (member : ⟨id, .newProposal p⟩ ∈ s.network)
    (accept : P.verify (s.replica id).manager p = true) {vote : Envelope} :
    Archive { s.set id (P.accepting (s.replica id) p) with
      network := s.network ++ [vote]
      voted := s.voted ++ [(id, p)] } where
  stored j h q found := by
    by_cases here : j = id
    · subst here
      simp only [System.set_replica_self, SlotProtocol.accepting,
        ProposalManager.addProposal_find] at found
      split_ifs at found with own
      · cases found
        exact ⟨own, List.mem_append_right _ (List.mem_singleton_self _)⟩
      · obtain ⟨named, cast⟩ := inv.stored j h q found
        exact ⟨named, List.mem_append_left _ cast⟩
    · simp only [System.set_replica_ne s _ here] at found
      obtain ⟨named, cast⟩ := inv.stored j h q found
      exact ⟨named, List.mem_append_left _ cast⟩
  committed j q pushed := by
    by_cases here : j = id
    · subst here
      simp only [System.set_replica_self, SlotProtocol.accepting] at pushed
      rcases List.mem_append.mp pushed with old | new
      · obtain ⟨origin, cast, same⟩ := inv.committed j q old
        exact ⟨origin, List.mem_append_left _ cast, same⟩
      · obtain ⟨father, found, rfl⟩ := Option.map_eq_some_iff.mp (Option.mem_toList.mp new)
        obtain ⟨-, cast⟩ := inv.stored j _ father found
        exact ⟨father, List.mem_append_left _ cast, stampPrimary_block P p father⟩
    · simp only [System.set_replica_ne s _ here] at pushed
      obtain ⟨origin, cast, same⟩ := inv.committed j q pushed
      exact ⟨origin, List.mem_append_left _ cast, same⟩
  voted vote cast := by
    rcases List.mem_append.mp cast with old | new
    · exact ⟨(inv.voted vote old).1, List.mem_append_left _ (inv.voted vote old).2⟩
    · rw [List.mem_singleton.mp new]
      exact ⟨verifyWith_hash accept, List.mem_append_left _ member⟩

theorem Archive.step (inv : Archive s) {a : Action} (taken : s.step byz a = some s') :
    Archive s' := by
  rcases step_accepts_or_keeps taken with ⟨id, p, -, -, member, accept, rfl⟩ | same
  · exact inv.accept member accept
  · exact inv.keep same

theorem Archive.hash_ne (inv : Archive s) {j : Int} {p : Proposal} (cast : (j, p) ∈ s.voted) :
    p.hash ≠ [] := by
  have hash : p.hash = getHash P.crypto P.codec p := (inv.voted (j, p) cast).1
  rw [hash]
  exact getHash_ne_nil P.crypto P.codec p

theorem run_archive {acts : List Action}
    (ran : Run.exec (System.step byz) P.initial acts = some s) : Archive s :=
  Run.exec_invariant_always (fun _ _ _ inv taken => inv.step taken) initial_archive ran

end Archives

/-! ### Accepting in order -/

def Proposal.stub (p : Proposal) : Bytes × Header := (p.hash, p.header)

/-- The proposal extends a stored block, or it is a first block for a replica that stores
nothing, or it is the stored block once more. -/
def Extends (m : ProposalManager) (p : Proposal) : Prop :=
  (m.getProposal p.header.prehash).isSome = true ∨
    (m.localBlock.isEmpty = true ∧ p.header.prehash = []) ∨
    (m.getProposal p.hash).map Proposal.header = some p.header

instance (m : ProposalManager) (p : Proposal) : Decidable (Extends m p) :=
  inferInstanceAs (Decidable (_ ∨ _ ∨ _))

/-- The replica stores at most its last block, and its log is what it committed with
that block behind it. -/
inductive InOrder {P : SlotProtocol} (r : Replica P) : List (Bytes × Header) → Prop where
  | empty (blank : ∀ h, r.manager.getProposal h = none) (nothing : r.commitQ = []) : InOrder r []
  | last {p : Proposal}
      (only : ∀ h, r.manager.getProposal h = if h = p.hash then some p else none) :
      InOrder r (r.commitQ.map Proposal.stub ++ [p.stub])

abbrev LinkedStubs (log : List (Bytes × Header)) : Prop :=
  Linked Prod.fst (fun b => b.2.prehash) [] log

section Order
variable {P : SlotProtocol} {r : Replica P} {log : List (Bytes × Header)} {p : Proposal}

theorem accepting_find (r : Replica P) (p : Proposal) (h : Bytes) :
    (P.accepting r p).manager.getProposal h =
      if h = p.hash then some p
      else if h = p.header.prehash then none else r.manager.getProposal h :=
  r.manager.addProposal_find p h

theorem accepting_commitQ (r : Replica P) (p : Proposal) :
    (P.accepting r p).commitQ.map Proposal.stub =
      r.commitQ.map Proposal.stub ++
        ((r.manager.getProposal p.header.prehash).map Proposal.stub).toList := by
  cases found : r.manager.getProposal p.header.prehash with
  | none => simp [SlotProtocol.accepting, found]
  | some father => simp [SlotProtocol.accepting, found, Proposal.stub]

theorem InOrder.accept (order : InOrder r log) (next : Extends r.manager p) :
    (InOrder (P.accepting r p) (log ++ [p.stub]) ∧
        p.header.prehash = tip Prod.fst [] log) ∨
      (InOrder (P.accepting r p) log ∧ p.stub ∈ log) := by
  have queue := accepting_commitQ r p
  cases order with
  | empty blank nothing =>
      rw [blank, nothing, Option.map_none, Option.toList_none, List.append_nil,
        List.map_nil] at queue
      rcases next with extends' | ⟨-, root⟩ | again
      · rw [blank] at extends'
        cases extends'
      · refine .inl ⟨?_, root⟩
        have last : InOrder (P.accepting r p) _ := .last (fun h => by
          rw [accepting_find, blank, ite_self])
        rw [queue] at last
        exact last
      · rw [blank] at again
        cases again
  | @last q only =>
      by_cases father : p.header.prehash = q.hash
      · have found : r.manager.getProposal p.header.prehash = some q := by
          rw [only, if_pos father]
        rw [found, Option.map_some, Option.toList_some] at queue
        refine .inl ⟨?_, by rw [father, tip_concat]; rfl⟩
        rw [← queue]
        apply InOrder.last
        intro h
        rw [accepting_find, only, father]
        split_ifs <;> rfl
      · have absent : r.manager.getProposal p.header.prehash = none := by
          rw [only, if_neg father]
        rw [absent, Option.map_none, Option.toList_none, List.append_nil] at queue
        rcases next with extends' | ⟨empty, -⟩ | again
        · rw [absent] at extends'
          cases extends'
        · have nothing := (AssocMap.isEmpty_iff _).mp empty q.hash
          have stored := only q.hash
          rw [if_pos rfl, ProposalManager.getProposal, nothing] at stored
          cases stored
        · rw [only, Option.map_if, Option.ite_none_right_eq_some, Option.some.injEq] at again
          obtain ⟨sameHash, sameHeader⟩ := again
          have same : q.stub = p.stub := Prod.ext sameHash.symm sameHeader
          refine .inr ⟨?_, by rw [same]; simp⟩
          rw [← queue, same]
          apply InOrder.last
          intro h
          rw [accepting_find, only, sameHash]
          split_ifs <;> rfl

theorem InOrder.linked_commitQ (order : InOrder r log) (linked : LinkedStubs log) :
    Linked Proposal.hash (fun p => p.header.prehash) [] r.commitQ := by
  cases order with
  | empty blank nothing =>
      rw [nothing]
      trivial
  | last only => exact linked_map.mp (linked_append.mp linked).1

end Order

def Orderly {P : SlotProtocol} (s : System P) : Action → Prop
  | .deliver ⟨id, .newProposal p⟩ =>
      P.verify (s.replica id).manager p = true → Extends (s.replica id).manager p
  | _ => True

instance {P : SlotProtocol} (s : System P) : (a : Action) → Decidable (Orderly s a)
  | .deliver ⟨id, .newProposal p⟩ =>
      inferInstanceAs (Decidable (P.verify (s.replica id).manager p = true → _))
  | .deliver ⟨_, .vote _⟩ => .isTrue trivial
  | .transaction .. => .isTrue trivial
  | .send .. => .isTrue trivial
  | .inject _ => .isTrue trivial

/-- The log of a replica: linked, and made of exactly the blocks it voted for. -/
structure Logged {P : SlotProtocol} (s : System P) (j : Int) (log : List (Bytes × Header)) :
    Prop where
  order : InOrder (s.replica j) log
  linked : LinkedStubs log
  complete : ∀ p, (j, p) ∈ s.voted → p.stub ∈ log
  accepted : ∀ b ∈ log, ∃ p, (j, p) ∈ s.voted ∧ p.stub = b

section Logs
variable {P : SlotProtocol} {s s' : System P} {byz : Finset Int}

theorem InOrder.congr {r r' : Replica P} {log : List (Bytes × Header)} (order : InOrder r log)
    (blocks : r'.manager.localBlock = r.manager.localBlock) (queue : r'.commitQ = r.commitQ) :
    InOrder r' log := by
  have find : ∀ h, r'.manager.getProposal h = r.manager.getProposal h := by
    intro h
    rw [ProposalManager.getProposal, blocks]
    rfl
  cases order with
  | empty blank nothing => exact .empty (fun h => (find h).trans (blank h)) (queue.trans nothing)
  | last only =>
      rw [← queue]
      exact .last (fun h => (find h).trans (only h))

theorem Logged.keep {j : Int} {log : List (Bytes × Header)} (inv : Logged s j log)
    (blocks : (s'.replica j).manager.localBlock = (s.replica j).manager.localBlock)
    (queue : (s'.replica j).commitQ = (s.replica j).commitQ)
    (votes : ∀ p, (j, p) ∈ s'.voted ↔ (j, p) ∈ s.voted) : Logged s' j log where
  order := inv.order.congr blocks queue
  linked := inv.linked
  complete p cast := inv.complete p ((votes p).mp cast)
  accepted b member := by
    obtain ⟨p, cast, same⟩ := inv.accepted b member
    exact ⟨p, (votes p).mpr cast, same⟩

theorem Logged.accept {id : Int} {log : List (Bytes × Header)} (inv : Logged s id log)
    {p : Proposal} (next : Extends (s.replica id).manager p) {network : List Envelope} :
    ∃ log', Logged { s.set id (P.accepting (s.replica id) p) with
      network := network
      voted := s.voted ++ [(id, p)] } id log' := by
  rcases inv.order.accept next with ⟨order, link⟩ | ⟨order, member⟩
  · refine ⟨log ++ [p.stub], ?_, linked_concat.mpr ⟨inv.linked, link⟩, ?_, ?_⟩
    · rw [System.set_replica_self]
      exact order
    · intro q cast
      rcases List.mem_append.mp cast with old | new
      · exact List.mem_append_left _ (inv.complete q old)
      · cases List.mem_singleton.mp new
        exact List.mem_append_right _ (List.mem_singleton_self _)
    · intro b member
      rcases List.mem_append.mp member with old | new
      · obtain ⟨q, cast, same⟩ := inv.accepted b old
        exact ⟨q, List.mem_append_left _ cast, same⟩
      · rw [List.mem_singleton.mp new]
        exact ⟨p, List.mem_append_right _ (List.mem_singleton_self _), rfl⟩
  · refine ⟨log, ?_, inv.linked, ?_, ?_⟩
    · rw [System.set_replica_self]
      exact order
    · intro q cast
      rcases List.mem_append.mp cast with old | new
      · exact inv.complete q old
      · cases List.mem_singleton.mp new
        exact member
    · intro b listed
      obtain ⟨q, cast, same⟩ := inv.accepted b listed
      exact ⟨q, List.mem_append_left _ cast, same⟩

theorem Logged.commit_entry {j : Int} {log : List (Bytes × Header)} (logged : Logged s j log)
    {k : ℕ} (inside : k < (s.replica j).commitQ.length) :
    ∃ later : k + 1 < log.length, log[k].1 = (s.replica j).commitQ[k].hash := by
  cases logged.order with
  | empty blank nothing =>
      rw [nothing] at inside
      cases inside
  | last only =>
      refine ⟨by simpa using inside, ?_⟩
      rw [List.getElem_append_left (by simpa using inside), List.getElem_map]
      rfl

theorem logged_step (inv : ∀ j, ∃ log, Logged s j log) {a : Action} (orderly : Orderly s a)
    (taken : s.step byz a = some s') : ∀ j, ∃ log, Logged s' j log := by
  intro j
  obtain ⟨log, logged⟩ := inv j
  rcases step_accepts_or_keeps taken with ⟨id, p, rfl, -, -, accept, rfl⟩ | same
  · by_cases here : j = id
    · subst here
      exact logged.accept (orderly accept)
    · refine ⟨log, logged.keep ?_ ?_ ?_⟩
      · rw [System.set_replica_ne s _ here]
      · rw [System.set_replica_ne s _ here]
      · intro q
        simp [here]
  · refine ⟨log, logged.keep (same.blocks j) (same.queue j) ?_⟩
    intro p
    rw [same.voted]

theorem run_logged {acts : List Action}
    (orderly : Run.Along (System.step byz) Orderly P.initial acts)
    (ran : Run.exec (System.step byz) P.initial acts = some s) : ∀ j, ∃ log, Logged s j log := by
  refine Run.exec_invariant (fun _ _ _ inv cond taken => logged_step inv cond taken) ?_ orderly ran
  intro j
  refine ⟨[], .empty (fun _ => rfl) rfl, trivial, ?_, ?_⟩
  · intro p cast
    cases cast
  · intro b member
    cases member

end Logs
end ResDB.HotStuff
