import Mathlib.Tactic
import ResDB.Poe.Protocol

/-! What the executors of `PoE` run once all messages are delivered. Every replica gives every
transaction to its executor: its own message that it is prepared comes after the proposal, and
by the last of these messages the others are counted. The executor starts at number 1 and the
proposer at number 0, so the first transaction is dropped as one that was executed. -/
namespace ResDB.Poe
open Pbft (Request Executor)
open PoE (request)

variable {n : ℕ}

/-- A proposal that is kept waits for more messages, the replica's own among them. -/
def Awaits (replica : Fin n) (node : PoE n) (txn : Transaction) : Prop :=
  node.data.find txn.hash = some txn ∧ ((node.votes txn.hash).card < 2 * faults n + 1 ∨
    ∀ p ∈ node.prepared, p.proposer = replica → p.hash ≠ txn.hash)

structure Holds (replica : Fin n) (received : List Transaction) (prepares : List (Proposal n))
    (node : PoE n) : Prop where
  known : ∀ txn ∈ node.proposed, txn ∈ received
  answered : ∀ txn ∈ node.proposed, ⟨txn.hash, txn.seq, replica⟩ ∈ prepares
  authored : ∀ p ∈ prepares, p.proposer = replica → ∃ txn ∈ node.proposed, txn.hash = p.hash
  delivered : ∀ p ∈ node.prepared, p ∈ prepares
  counted : ∀ p ∈ node.prepared, p.proposer ∈ node.votes p.hash
  stored : ∀ hash txn, node.data.find hash = some txn → txn ∈ received ∧ txn.hash = hash
  taken : ∀ txn ∈ node.committing, txn ∈ received
  executor : node.executor = Executor.run node.events
  handed : ∀ message ∈ Executor.arrivals node.events, ∃ txn ∈ received, message = request txn
  pending : ∀ txn ∈ node.proposed, txn ∈ node.committing ∨
    request txn ∈ Executor.arrivals node.events ∨ Awaits replica node txn

/-- Transactions are numbered from 0 on, and told apart by their hashes. -/
structure Numbered (leader : Fin n) (s : System n) : Prop where
  seqs : s.received.map (fun txn => txn.seq) = List.range s.received.length
  next : (s.nodes leader).nextSeq = s.received.length
  hashes : (s.received.map (fun txn => txn.hash)).Nodup

section Nodes
variable {replica : Fin n} {received : List Transaction} {prepares : List (Proposal n)}
  {node : PoE n}

theorem Holds.grow (holds : Holds replica received prepares node) {received' : List Transaction}
    {prepares' : List (Proposal n)} (more : ∀ txn ∈ received, txn ∈ received')
    (sent : ∀ p ∈ prepares, p ∈ prepares')
    (others : ∀ p ∈ prepares', p.proposer = replica → p ∈ prepares) :
    Holds replica received' prepares' node where
  known txn inside := more txn (holds.known txn inside)
  answered txn inside := sent _ (holds.answered txn inside)
  authored p inside own := holds.authored p (others p inside own) own
  delivered p inside := sent p (holds.delivered p inside)
  counted := holds.counted
  stored hash txn found := (holds.stored hash txn found).imp_left (more txn)
  taken txn inside := more txn (holds.taken txn inside)
  executor := holds.executor
  handed message inside := by
    obtain ⟨txn, member, same⟩ := holds.handed message inside
    exact ⟨txn, more txn member, same⟩
  pending := holds.pending

theorem arrivals_concat (events : List Executor.Event) (event : Executor.Event) :
    Executor.arrivals (events ++ [event]) =
      Executor.arrivals events ++ Executor.arrivals [event] :=
  List.filterMap_append

theorem Awaits.receivePropose {txn other : Transaction} (awaits : Awaits replica node other)
    (same : other.hash = txn.hash → other = txn) :
    Awaits replica (node.receivePropose txn) other := by
  obtain ⟨found, waits⟩ := awaits
  refine ⟨?_, waits⟩
  simp only [PoE.receivePropose, AssocMap.find_set]
  split_ifs with eq
  · rw [same eq]
  · exact found

theorem Holds.awaits_new (holds : Holds replica received prepares node) {txn : Transaction}
    (same : ∀ other ∈ received, other.hash = txn.hash → other = txn)
    (new : txn ∉ node.proposed) : Awaits replica (node.receivePropose txn) txn := by
  refine ⟨by simp [PoE.receivePropose], .inr (fun p member own hash => new ?_)⟩
  obtain ⟨earlier, before, eq⟩ := holds.authored p (holds.delivered p member) own
  rwa [← same earlier (holds.known earlier before) (eq.trans hash)]

theorem Holds.receivePropose (holds : Holds replica received prepares node)
    (hashes : (received.map (fun txn => txn.hash)).Nodup) {txn : Transaction}
    (sent : txn ∈ received) :
    Holds replica received (prepares ++ [⟨txn.hash, txn.seq, replica⟩])
      (node.receivePropose txn) := by
  have same : ∀ other ∈ received, other.hash = txn.hash → other = txn := fun other inside eq =>
    List.inj_on_of_nodup_map hashes inside sent eq
  refine ⟨?_, ?_, ?_, ?_, holds.counted, ?_, holds.taken, holds.executor, holds.handed, ?_⟩
  · exact List.forall_mem_append.mpr ⟨holds.known, List.forall_mem_singleton.mpr sent⟩
  · refine List.forall_mem_append.mpr ⟨fun other before => ?_, List.forall_mem_singleton.mpr ?_⟩
    · exact List.mem_append_left _ (holds.answered other before)
    · exact List.mem_append_right _ List.mem_cons_self
  · refine List.forall_mem_append.mpr ⟨fun p before own => ?_, List.forall_mem_singleton.mpr ?_⟩
    · obtain ⟨other, member, hash⟩ := holds.authored p before own
      exact ⟨other, List.mem_append_left _ member, hash⟩
    · exact fun _ => ⟨txn, List.mem_append_right _ List.mem_cons_self, rfl⟩
  · exact fun p inside => List.mem_append_left _ (holds.delivered p inside)
  · intro hash other found
    simp only [PoE.receivePropose, AssocMap.find_set] at found
    split_ifs at found with eq
    · rw [← Option.some.inj found, eq]
      exact ⟨sent, rfl⟩
    · exact holds.stored hash other found
  · intro other inside
    by_cases old : other ∈ node.proposed
    · refine (holds.pending other old).imp_right (Or.imp_right (fun awaits => ?_))
      exact awaits.receivePropose (same other (holds.known other old))
    · have new : other = txn := by
        rcases List.mem_append.mp inside with before | new
        · exact absurd before old
        · exact List.mem_singleton.mp new
      rw [new] at old ⊢
      exact .inr (.inr (holds.awaits_new same old))

theorem votes_count (proposal : Proposal n) (hash : Bytes) :
    (node.count proposal).votes hash =
      if hash = proposal.hash then insert proposal.proposer (node.votes proposal.hash)
      else node.votes hash := by
  simp only [PoE.votes, PoE.count, AssocMap.find_set]
  split_ifs <;> rfl

theorem receivePrepare_cases (node : PoE n) (proposal : Proposal n) :
    (node.receivePrepare proposal = node.count proposal ∧
      (node.data.find proposal.hash = none ∨
        ((node.count proposal).votes proposal.hash).card < 2 * faults n + 1)) ∨
    ∃ txn, node.data.find proposal.hash = some txn ∧ node.receivePrepare proposal =
      { node.count proposal with
        data := node.data.erase proposal.hash
        committing := node.committing ++ [txn] } := by
  unfold PoE.receivePrepare
  cases found : node.data.find proposal.hash with
  | none => exact .inl ⟨rfl, .inl rfl⟩
  | some txn =>
      dsimp only
      split_ifs with enough
      · exact .inr ⟨txn, rfl, rfl⟩
      · exact .inl ⟨rfl, .inr (Nat.lt_of_not_le enough)⟩

theorem Holds.counted_count (holds : Holds replica received prepares node)
    (proposal : Proposal n) :
    ∀ p ∈ (node.count proposal).prepared, p.proposer ∈ (node.count proposal).votes p.hash := by
  intro p inside
  rw [votes_count]
  rcases List.mem_append.mp inside with before | new
  · have counted := holds.counted p before
    split_ifs with eq
    · exact Finset.mem_insert_of_mem (eq ▸ counted)
    · exact counted
  · rw [List.mem_singleton.mp new, if_pos rfl]
    exact Finset.mem_insert_self _ _

theorem Awaits.count {txn : Transaction} (awaits : Awaits replica node txn)
    {proposal : Proposal n} (other : txn.hash ≠ proposal.hash) :
    Awaits replica (node.count proposal) txn := by
  obtain ⟨found, waits⟩ := awaits
  refine ⟨found, ?_⟩
  rw [votes_count, if_neg other]
  refine waits.imp_right (fun none' => List.forall_mem_append.mpr
    ⟨none', List.forall_mem_singleton.mpr (fun _ eq => other eq.symm)⟩)

theorem Awaits.count_few {txn : Transaction} (awaits : Awaits replica node txn)
    {proposal : Proposal n}
    (few : node.data.find proposal.hash = none ∨
      ((node.count proposal).votes proposal.hash).card < 2 * faults n + 1) :
    Awaits replica (node.count proposal) txn := by
  by_cases eq : txn.hash = proposal.hash
  · refine ⟨awaits.1, .inl ?_⟩
    rcases few with none' | few
    · rw [← eq, awaits.1] at none'
      exact absurd none' (Option.some_ne_none txn)
    · rwa [eq]
  · exact awaits.count eq

theorem Holds.receivePrepare (holds : Holds replica received prepares node)
    {proposal : Proposal n} (sent : proposal ∈ prepares) :
    Holds replica received prepares (node.receivePrepare proposal) := by
  have delivered : ∀ p ∈ node.prepared ++ [proposal], p ∈ prepares :=
    List.forall_mem_append.mpr ⟨holds.delivered, List.forall_mem_singleton.mpr sent⟩
  rcases receivePrepare_cases node proposal with ⟨same, few⟩ | ⟨txn, found, same⟩
  · rw [same]
    refine ⟨holds.known, holds.answered, holds.authored, delivered, holds.counted_count proposal,
      holds.stored, holds.taken, holds.executor, holds.handed, fun other inside => ?_⟩
    exact (holds.pending other inside).imp_right (Or.imp_right (fun awaits =>
      awaits.count_few few))
  · rw [same]
    obtain ⟨member, hash⟩ := holds.stored proposal.hash txn found
    refine ⟨holds.known, holds.answered, holds.authored, delivered, holds.counted_count proposal,
      ?_, ?_, holds.executor, holds.handed, fun other inside => ?_⟩
    · intro h t kept
      simp only [AssocMap.find_erase] at kept
      split_ifs at kept
      exact holds.stored h t kept
    · exact List.forall_mem_append.mpr ⟨holds.taken, List.forall_mem_singleton.mpr member⟩
    · rcases holds.pending other inside with taken | handed | awaits
      · exact .inl (List.mem_append_left _ taken)
      · exact .inr (.inl handed)
      · by_cases eq : other.hash = proposal.hash
        · left
          have here := awaits.1
          rw [eq, found] at here
          rw [← Option.some.inj here]
          exact List.mem_append_right _ List.mem_cons_self
        · obtain ⟨kept, waits⟩ := awaits.count eq
          refine .inr (.inr ⟨?_, waits⟩)
          simp only [AssocMap.find_erase, if_neg eq]
          exact kept

theorem Holds.commit (holds : Holds replica received prepares node) {txn : Transaction}
    (inside : txn ∈ node.committing) :
    Holds replica received prepares (node.commit txn) := by
  have arrivals : Executor.arrivals (node.events ++ [.commit (request txn)]) =
      Executor.arrivals node.events ++ [request txn] := arrivals_concat _ _
  refine ⟨holds.known, holds.answered, holds.authored, holds.delivered, holds.counted,
    holds.stored, ?_, ?_, ?_, ?_⟩
  · exact fun t member => holds.taken t (List.mem_of_mem_erase member)
  · simp only [PoE.commit, holds.executor]
    rw [Executor.run, Executor.run, List.foldl_concat]
    rfl
  · simp only [PoE.commit, arrivals]
    exact List.forall_mem_append.mpr ⟨holds.handed,
      List.forall_mem_singleton.mpr ⟨txn, holds.taken txn inside, rfl⟩⟩
  · simp only [PoE.commit, arrivals]
    intro t member
    rcases holds.pending t member with taken | handed | awaits
    · by_cases eq : t = txn
      · exact .inr (.inl (List.mem_append_right _ (by simp [eq])))
      · exact .inl ((List.mem_erase_of_ne eq).mpr taken)
    · exact .inr (.inl (List.mem_append_left _ handed))
    · exact .inr (.inr awaits)

theorem Holds.orderMessage (holds : Holds replica received prepares node) :
    Holds replica received prepares node.orderMessage := by
  have arrivals : Executor.arrivals (node.events ++ [.orderMessage]) =
      Executor.arrivals node.events := (arrivals_concat _ _).trans (List.append_nil _)
  refine ⟨holds.known, holds.answered, holds.authored, holds.delivered, holds.counted,
    holds.stored, holds.taken, ?_, ?_, ?_⟩
  · simp only [PoE.orderMessage, holds.executor]
    rw [Executor.run, Executor.run, List.foldl_concat]
    rfl
  · simp only [PoE.orderMessage, arrivals]
    exact holds.handed
  · simp only [PoE.orderMessage, arrivals]
    exact holds.pending

theorem Holds.countUp (holds : Holds replica received prepares node) (next : ℕ) :
    Holds replica received prepares { node with nextSeq := next } :=
  ⟨holds.known, holds.answered, holds.authored, holds.delivered, holds.counted, holds.stored,
    holds.taken, holds.executor, holds.handed, holds.pending⟩

end Nodes

section Systems
variable {leader : Fin n} {s s' : System n}

structure Valid (leader : Fin n) (s : System n) : Prop where
  numbered : Numbered leader s
  holds : ∀ replica, Holds replica s.received s.prepares (s.nodes replica)

theorem Valid.initial : Valid leader ({} : System n) :=
  ⟨⟨rfl, rfl, List.nodup_nil⟩, fun _ =>
    ⟨by simp, by simp, by simp, by simp, by simp,
      fun _ _ found => (Option.some_ne_none _ found.symm).elim,
      by simp, rfl, by simp [Executor.arrivals], by simp⟩⟩

theorem Valid.update (valid : Valid leader s) {replica : Fin n} {node : PoE n}
    {received : List Transaction} {prepares : List (Proposal n)}
    (holds : Holds replica received prepares node)
    (more : ∀ txn ∈ s.received, txn ∈ received) (sent : ∀ p ∈ s.prepares, p ∈ prepares)
    (own : ∀ p ∈ prepares, p ∈ s.prepares ∨ p.proposer = replica) (other : Fin n) :
    Holds other received prepares (Function.update s.nodes replica node other) := by
  by_cases same : other = replica
  · rw [same, Function.update_self]
    exact holds
  · rw [Function.update_of_ne same]
    refine (valid.holds other).grow more sent (fun p inside mine => ?_)
    exact (own p inside).resolve_right (fun theirs => same (mine.symm.trans theirs))

theorem Numbered.update (numbered : Numbered leader s) (replica : Fin n) (node : PoE n)
    (counter : node.nextSeq = (s.nodes replica).nextSeq) (prepares : List (Proposal n)) :
    Numbered leader ⟨Function.update s.nodes replica node, s.received, prepares⟩ := by
  refine ⟨numbered.seqs, ?_, numbered.hashes⟩
  by_cases same : leader = replica
  · rw [← numbered.next, same, ← counter]
    exact congrArg PoE.nextSeq (Function.update_self replica node s.nodes)
  · rw [← numbered.next]
    exact congrArg PoE.nextSeq (Function.update_of_ne same node s.nodes)

theorem nextSeq_receivePrepare (node : PoE n) (proposal : Proposal n) :
    (node.receivePrepare proposal).nextSeq = node.nextSeq := by
  rcases receivePrepare_cases node proposal with ⟨same, -⟩ | ⟨txn, -, same⟩ <;> rw [same] <;> rfl

theorem Numbered.receive (numbered : Numbered leader s) {txn : Transaction}
    (fresh : txn.hash ∉ s.received.map (fun t => t.hash)) :
    Numbered leader { s with
      nodes := Function.update s.nodes leader
        { s.nodes leader with nextSeq := (s.nodes leader).nextSeq + 1 }
      received := s.received ++ [s.numbered leader txn] } := by
  refine ⟨?_, ?_, ?_⟩
  · rw [List.map_append, numbered.seqs, List.length_append, List.length_singleton,
      List.range_succ, ← numbered.next]
    rfl
  · rw [List.length_append, List.length_singleton, ← numbered.next]
    dsimp only
    rw [Function.update_self]
  · rw [List.map_append]
    exact numbered.hashes.append (List.nodup_singleton _)
      (List.disjoint_singleton.mpr fresh)

theorem step_valid (action : Action n) (valid : Valid leader s)
    (taken : System.step leader s action = some s') : Valid leader s' := by
  cases action with
  | receive txn =>
      obtain ⟨fresh, done⟩ := Option.ite_none_right_eq_some.mp taken
      cases done
      refine ⟨valid.numbered.receive fresh, ?_⟩
      have more : ∀ t ∈ s.received, t ∈ s.received ++ [s.numbered leader txn] :=
        fun t inside => List.mem_append_left _ inside
      refine valid.update ?_ more (fun p inside => inside) (fun p inside => .inl inside)
      exact ((valid.holds leader).countUp _).grow more (fun p inside => inside)
        (fun p inside _ => inside)
  | propose replica txn =>
      obtain ⟨sent, done⟩ := Option.ite_none_right_eq_some.mp taken
      cases done
      refine ⟨valid.numbered.update replica ((s.nodes replica).receivePropose txn) rfl _, ?_⟩
      refine valid.update ((valid.holds replica).receivePropose valid.numbered.hashes sent)
        (fun t inside => inside) (fun p inside => List.mem_append_left _ inside) ?_
      intro p inside
      refine (List.mem_append.mp inside).imp_right (fun new => ?_)
      rw [List.mem_singleton.mp new]
  | prepare replica proposal =>
      obtain ⟨sent, done⟩ := Option.ite_none_right_eq_some.mp taken
      cases done
      refine ⟨valid.numbered.update replica _ (nextSeq_receivePrepare _ _) _, ?_⟩
      exact valid.update ((valid.holds replica).receivePrepare sent) (fun t inside => inside)
        (fun p inside => inside) (fun p inside => .inl inside)
  | commit replica txn =>
      obtain ⟨waiting, done⟩ := Option.ite_none_right_eq_some.mp taken
      cases done
      refine ⟨valid.numbered.update replica ((s.nodes replica).commit txn) rfl _, ?_⟩
      exact valid.update ((valid.holds replica).commit waiting) (fun t inside => inside)
        (fun p inside => inside) (fun p inside => .inl inside)
  | orderMessage replica =>
      cases taken
      refine ⟨valid.numbered.update replica (s.nodes replica).orderMessage rfl _, ?_⟩
      exact valid.update (valid.holds replica).orderMessage (fun t inside => inside)
        (fun p inside => inside) (fun p inside => .inl inside)

theorem run_valid {actions : List (Action n)}
    (ran : Run.exec (System.step leader) {} actions = some s) : Valid leader s :=
  Run.exec_invariant_always (fun _ action _ valid taken => step_valid action valid taken)
    Valid.initial ran

theorem enough_replicas (replica : Fin n) : 2 * faults n + 1 ≤ n := by
  have positive : 0 < n := replica.pos
  unfold faults
  omega

theorem Valid.votes_complete (valid : Valid leader s) (complete : s.Complete) (replica : Fin n)
    {txn : Transaction} (inside : txn ∈ s.received) :
    (s.nodes replica).votes txn.hash = Finset.univ := by
  refine Finset.eq_univ_of_forall (fun voter => ?_)
  have answered := (valid.holds voter).answered txn (complete.proposed voter txn inside)
  exact (valid.holds replica).counted _ (complete.prepared replica _ answered)

theorem Valid.all_handed (valid : Valid leader s) (complete : s.Complete) (replica : Fin n)
    {txn : Transaction} (inside : txn ∈ s.received) :
    request txn ∈ Executor.arrivals (s.nodes replica).events := by
  have proposed := complete.proposed replica txn inside
  rcases (valid.holds replica).pending txn proposed with taken | handed | ⟨-, few | absent⟩
  · rw [complete.committed replica] at taken
    exact absurd taken List.not_mem_nil
  · exact handed
  · rw [valid.votes_complete complete replica inside, Finset.card_univ, Fintype.card_fin] at few
    exact absurd (enough_replicas replica) (Nat.not_le.mpr few)
  · have answered := (valid.holds replica).answered txn proposed
    exact absurd rfl (absent _ (complete.prepared replica _ answered) rfl)

theorem Numbered.seq_inj (numbered : Numbered leader s) {txn other : Transaction}
    (inside : txn ∈ s.received) (member : other ∈ s.received) (same : other.seq = txn.seq) :
    other = txn := by
  have distinct : (s.received.map (fun t => t.seq)).Nodup := by
    rw [numbered.seqs]
    exact List.nodup_range
  exact List.inj_on_of_nodup_map distinct member inside same

theorem Valid.first_handed (valid : Valid leader s) (complete : s.Complete) (replica : Fin n)
    {txn : Transaction} (inside : txn ∈ s.received) :
    Executor.first (Executor.arrivals (s.nodes replica).events) txn.seq = some (request txn) := by
  have handed := valid.all_handed complete replica inside
  cases found : Executor.first (Executor.arrivals (s.nodes replica).events) txn.seq with
  | none => exact absurd (decide_eq_true rfl) (List.find?_eq_none.mp found _ handed)
  | some message =>
      obtain ⟨member, number⟩ := Executor.first_some found
      obtain ⟨other, known, same⟩ := (valid.holds replica).handed message member
      rw [same] at number ⊢
      rw [valid.numbered.seq_inj inside known number]

theorem Valid.next_complete (valid : Valid leader s) (complete : s.Complete) (replica : Fin n)
    {e : Executor}
    (ordered : Executor.Ordered (Executor.arrivals (s.nodes replica).events) e)
    (settled : Executor.Settled (Executor.arrivals (s.nodes replica).events) e) :
    e.nextExecuteSeq - 1 = s.received.length - 1 := by
  have numbers : ∀ seq, (∃ txn ∈ s.received, txn.seq = seq) ↔ seq < s.received.length := by
    intro seq
    rw [← List.mem_range, ← valid.numbered.seqs, List.mem_map]
  apply le_antisymm
  · by_contra beyond
    have arrived := (ordered.arrived_iff settled (e.nextExecuteSeq - 1)).mpr le_rfl
    obtain ⟨message, member, number⟩ := arrived (e.nextExecuteSeq - 1) (by omega) le_rfl
    obtain ⟨txn, known, same⟩ := (valid.holds replica).handed message member
    have below := (numbers message.seq).mp ⟨txn, known, by rw [same]; rfl⟩
    omega
  · refine (ordered.arrived_iff settled _).mp (fun seq positive atMost => ?_)
    obtain ⟨txn, known, number⟩ := (numbers seq).mpr (by omega)
    exact ⟨request txn, valid.all_handed complete replica known, number⟩

theorem Numbered.tail_seqs (numbered : Numbered leader s) :
    List.range' 1 (s.received.length - 1) = s.received.tail.map (fun txn => txn.seq) := by
  rw [List.map_tail, numbered.seqs, List.range_eq_range', List.tail_range']

theorem Valid.executed_complete (valid : Valid leader s) (complete : s.Complete)
    (replica : Fin n) :
    (s.nodes replica).executor.executeQueue = (s.received.map request).tail := by
  obtain ⟨past, all, ordered, settled⟩ := Executor.run_tracks (s.nodes replica).events
  rw [← (valid.holds replica).executor] at all ordered settled
  rw [complete.ordered replica, List.append_nil] at all
  rw [← all] at ordered settled
  apply List.map_injective_iff.mpr (Option.some_injective Request)
  rw [ordered.executed, valid.next_complete complete replica ordered settled,
    valid.numbered.tail_seqs, List.map_map, ← List.map_tail, List.map_map]
  refine List.map_congr_left (fun txn inside => ?_)
  exact valid.first_handed complete replica (List.mem_of_mem_tail inside)

/-- Once everything is delivered, every replica has executed the transactions in the order of
their numbers, but never the first one. -/
theorem executes_all_but_first (leader : Fin n) (actions : List (Action n)) (s : System n)
    (ran : Run.exec (System.step leader) {} actions = some s) (complete : s.Complete)
    (replica : Fin n) :
    (s.nodes replica).executor.executeQueue = (s.received.map request).tail ∧
      ((s.nodes replica).executor.executeQueue = s.received.map request ↔ s.received = []) := by
  have executed := (run_valid ran).executed_complete complete replica
  refine ⟨executed, ?_⟩
  rw [executed]
  cases s.received with
  | nil => exact iff_of_true rfl rfl
  | cons txn rest =>
      refine iff_of_false (fun same => ?_) (List.cons_ne_nil txn rest)
      exact List.cons_ne_self _ _ same.symm

/-- A run of four replicas in which all messages come in the order in which they are sent. -/
def delivery (txns : List Transaction) : List (Action 4) :=
  txns.map (fun txn => Action.receive txn) ++
  (List.finRange 4).flatMap (fun r => txns.map (fun txn => Action.propose r txn)) ++
  (List.finRange 4).flatMap (fun r => (List.finRange 4).flatMap (fun q =>
    txns.map (fun txn => Action.prepare r ⟨txn.hash, txn.seq, q⟩))) ++
  (List.finRange 4).flatMap (fun r => txns.flatMap (fun txn =>
    [Action.commit r txn, Action.orderMessage r]))

def firstTxn : Transaction := { data := [1], hash := [10], seq := 0, proposer := 0 }
def secondTxn : Transaction := { data := [2], hash := [20], seq := 1, proposer := 0 }

/-- Of two transactions every replica executes the second. -/
theorem two_transactions_second_executed :
    ∃ s, Run.exec (System.step 0) {} (delivery [firstTxn, secondTxn]) = some s ∧ s.Complete ∧
      ∀ replica, (s.nodes replica).executor.executeQueue = [request secondTxn] := by
  obtain ⟨s, ran, holds⟩ : ∃ s, Run.exec (System.step 0) {} (delivery [firstTxn, secondTxn]) =
      some s ∧ decide (s.Complete ∧ s.received = [firstTxn, secondTxn]) = true :=
    (Option.any_eq_true _ _).mp (by decide +kernel)
  obtain ⟨complete, received⟩ := of_decide_eq_true holds
  refine ⟨s, ran, complete, fun replica => ?_⟩
  rw [(executes_all_but_first 0 _ s ran complete replica).1, received]
  rfl

/-- The only transaction is delivered to all, prepared by all and executed by none. -/
theorem only_transaction_dropped :
    ∃ s, Run.exec (System.step 0) {} (delivery [firstTxn]) = some s ∧ s.Complete ∧
      s.received = [firstTxn] ∧ ∀ replica, (s.nodes replica).executor.executeQueue = [] := by
  obtain ⟨s, ran, holds⟩ : ∃ s, Run.exec (System.step 0) {} (delivery [firstTxn]) = some s ∧
      decide (s.Complete ∧ s.received = [firstTxn] ∧
        ∀ replica, (s.nodes replica).executor.executeQueue = []) = true :=
    (Option.any_eq_true _ _).mp (by decide +kernel)
  exact ⟨s, ran, of_decide_eq_true holds⟩

end Systems
end ResDB.Poe
