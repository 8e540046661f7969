import Mathlib.Tactic
import ResDB.Library.LinkedLog
import ResDB.HotStuff.ViewSystem

/-! Runs without slots in which every replica runs the code. Only the collector of the
newest block's votes may come to propose, and it does so once, as long as no certificate is
formed twice. -/
namespace ResDB.HotStuff
open ViewProtocol (Voted)
open LinkedLog (Linked)

theorem length_insertSigner (certs : List Certificate) (cert : Certificate) :
    (insertSigner certs cert).length =
      if certs.any (fun c => c.signer = cert.signer) then certs.length else certs.length + 1 := by
  unfold insertSigner
  split_ifs
  · rfl
  · rw [List.orderedInsert_length]

theorem VoteStore.length_le_insert (store : VoteStore) (cert : Certificate) (v : Int) (h : Bytes) :
    (store v h).length ≤ (store.insert cert v h).length := by
  unfold VoteStore.insert
  split_ifs
  · rw [length_insertSigner]
    split_ifs <;> omega
  · exact le_rfl

def QC.Names (qc : QC) (p : Proposal) : Prop := qc.hash = p.hash ∧ qc.view = p.header.view

/-- Views 1, 2, 3, … on top of each other, each with a certificate from below. -/
structure ViewLine (P : ViewProtocol) (ps : List Proposal) : Prop where
  linked : Linked Proposal.hash (fun p => p.header.prehash) [] ps
  views : ∀ i (h : i < ps.length), ps[i].header.view = i + 1
  hashed : ∀ p ∈ ps, p.hash = getHash P.crypto P.codec p
  certified : ∀ p ∈ ps, p.header.qc = {} ∨
    ∃ q ∈ ps, p.header.qc.Names q ∧ q.header.view < p.header.view

def Newest (ps : List Proposal) (p : Proposal) : Prop :=
  p ∈ ps ∧ p.header.view = ps.length

namespace ViewLine
variable {P : ViewProtocol} {ps : List Proposal} (line : ViewLine P ps)
include line

theorem view_range {p : Proposal} (member : p ∈ ps) :
    1 ≤ p.header.view ∧ p.header.view ≤ ps.length := by
  obtain ⟨i, inside, rfl⟩ := List.getElem_of_mem member
  rw [line.views i inside]
  omega

theorem unique {p q : Proposal} (hp : p ∈ ps) (hq : q ∈ ps)
    (same : p.header.view = q.header.view) : p = q := by
  obtain ⟨i, hi, rfl⟩ := List.getElem_of_mem hp
  obtain ⟨j, hj, rfl⟩ := List.getElem_of_mem hq
  rw [line.views i hi, line.views j hj] at same
  have index : i = j := by omega
  subst index
  rfl

theorem qc_below {p : Proposal} (member : p ∈ ps) : p.header.qc.view < p.header.view := by
  cases line.certified p member with
  | inl root =>
      rw [root]
      exact (line.view_range member).1
  | inr named =>
      obtain ⟨q, -, names, below⟩ := named
      rw [names.2]
      exact below

theorem newest_unique {p q : Proposal} (hp : Newest ps p) (hq : Newest ps q) : p = q :=
  line.unique hp.1 hq.1 (hp.2.trans hq.2.symm)

theorem newest_or_below {p : Proposal} (member : p ∈ ps) :
    Newest ps p ∨ ∃ q ∈ ps, p.header.view < q.header.view := by
  obtain ⟨low, high⟩ := line.view_range member
  by_cases top : p.header.view = ps.length
  · exact .inl ⟨member, top⟩
  · right
    have inside : ps.length - 1 < ps.length := by omega
    refine ⟨ps[ps.length - 1], List.getElem_mem inside, ?_⟩
    rw [line.views _ inside]
    omega

theorem tip_newest {p : Proposal} (newest : Newest ps p) :
    LinkedLog.tip Proposal.hash [] ps = p.hash := by
  rcases List.eq_nil_or_concat ps with rfl | ⟨earlier, last, rfl⟩
  · cases newest.1
  · rw [List.concat_eq_append] at *
    have top : Newest (earlier ++ [last]) last := by
      refine ⟨List.mem_append_right _ (List.mem_singleton_self last), ?_⟩
      have place := line.views earlier.length (by simp)
      rw [List.getElem_concat_length rfl] at place
      rw [place]
      simp
    rw [LinkedLog.tip_concat, line.newest_unique newest top]

theorem concat {p : Proposal} (link : p.header.prehash = LinkedLog.tip Proposal.hash [] ps)
    (view : p.header.view = ps.length + 1) (hash : p.hash = getHash P.crypto P.codec p)
    (carried : p.header.qc = {} ∨ ∃ q ∈ ps, p.header.qc.Names q) : ViewLine P (ps ++ [p]) where
  linked := LinkedLog.linked_concat.mpr ⟨line.linked, link⟩
  views := by
    intro i h
    rw [List.getElem_append]
    split_ifs with inside
    · exact line.views i inside
    · rw [List.length_append, List.length_singleton] at h
      have top : i = ps.length := by omega
      simp [view, top]
  hashed := by
    intro q member
    cases List.mem_append.mp member with
    | inl old => exact line.hashed q old
    | inr new => exact List.mem_singleton.mp new ▸ hash
  certified := by
    intro q member
    cases List.mem_append.mp member with
    | inl old =>
        refine (line.certified q old).imp_right ?_
        rintro ⟨b, known, facts⟩
        exact ⟨b, List.mem_append_left _ known, facts⟩
    | inr new =>
        rw [List.mem_singleton.mp new]
        refine carried.imp_right ?_
        rintro ⟨b, known, names⟩
        refine ⟨b, List.mem_append_left _ known, names, ?_⟩
        rw [view]
        exact Int.lt_add_one_of_le (line.view_range known).2

end ViewLine

/-! ### Who may propose -/

def tally (P : ViewProtocol) (s : ViewSystem) (p : Proposal) : ℕ :=
  ((s.replica (P.nextLeader p.header.view)).votes p.header.view p.hash).length

def Sent (P : ViewProtocol) (ps : List Proposal) (e : Envelope) : Prop :=
  match e.message with
  | .newProposal p => p ∈ ps
  | .vote cert => ∃ p ∈ ps, cert.hash = p.hash ∧ cert.view = p.header.view ∧
      e.nodeId = P.nextLeader p.header.view

/-- The replica may propose: nothing has been proposed yet, or it holds the certificate of
the newest block. -/
def Entitled (P : ViewProtocol) (s : ViewSystem) (j : Int) : Prop :=
  (s.broadcasts = [] ∧ (s.replica j).manager.round = 1 ∧
      (s.replica j).manager.genericQC = {}) ∨
    ∃ last, Newest s.broadcasts last ∧ j = P.nextLeader last.header.view ∧
      (s.replica j).manager.round = last.header.view + 1 ∧
      (s.replica j).manager.genericQC.Names last ∧ 2 * P.f + 1 ≤ tally P s last

/-- The replica has formed the certificate of the newest block and waits for a proposal
before it adds it. -/
def Parked (P : ViewProtocol) (s : ViewSystem) (j : Int) : Prop :=
  ∃ last qc, Newest s.broadcasts last ∧ j = P.nextLeader last.header.view ∧
    (s.replica j).formedQC = some qc ∧ qc.Names last ∧
    (s.replica j).manager.genericQC.view < last.header.view ∧ 2 * P.f + 1 ≤ tally P s last

structure OneLeader (P : ViewProtocol) (s : ViewSystem) : Prop where
  line : ViewLine P s.broadcasts
  sent : ∀ e ∈ s.network, Sent P s.broadcasts e
  generic : ∀ j, (s.replica j).manager.genericQC = {} ∨
    ∃ p ∈ s.broadcasts, (s.replica j).manager.genericQC.Names p
  closed : ∀ p ∈ s.broadcasts, ∀ q ∈ s.broadcasts, p.header.view < q.header.view →
    2 * P.f + 1 ≤ tally P s p
  waiting : ∀ p, Newest s.broadcasts p → tally P s p < 2 * P.f + 1 →
    (s.replica (P.nextLeader p.header.view)).manager.genericQC.view < p.header.view
  entitled : ∀ j, P.Ready j (s.replica j) = true → Entitled P s j
  parked : ∀ j, (s.replica j).qcFormed = true → Parked P s j

/-- No vote is counted again while exactly a quorum is stored for its block. -/
def FreshVote (P : ViewProtocol) (s : ViewSystem) : ViewAction → Prop
  | .deliver ⟨id, .vote cert⟩ =>
      ((s.replica id).votes cert.view cert.hash).length = 2 * P.f + 1 →
        ∀ c ∈ (s.replica id).votes cert.view cert.hash, c.signer ≠ cert.signer
  | _ => True

instance (P : ViewProtocol) (s : ViewSystem) : (a : ViewAction) → Decidable (FreshVote P s a)
  | .transaction _ _ _ => .isTrue trivial
  | .send _ _ => .isTrue trivial
  | .inject _ => .isTrue trivial
  | .deliver ⟨_, .newProposal _⟩ => .isTrue trivial
  | .deliver ⟨_, .vote _⟩ => inferInstanceAs (Decidable (_ = _ → _))

theorem initial_oneLeader (P : ViewProtocol) : OneLeader P {} where
  line := ⟨trivial, (fun i h => by cases h), (fun p h => by cases h), (fun p h => by cases h)⟩
  sent e h := by cases h
  generic j := .inl rfl
  closed p h := by cases h
  waiting p h := by cases h.1
  entitled j _ := .inl ⟨rfl, rfl, rfl⟩
  parked j h := by cases h

section Steps
variable {P : ViewProtocol} {s s' : ViewSystem}

structure SameCore (r r' : ViewReplica) : Prop where
  generic : r'.manager.genericQC = r.manager.genericQC
  round : r'.manager.round = r.manager.round
  votes : r'.votes = r.votes
  hasSent : r'.hasSent = r.hasSent
  qcFormed : r'.qcFormed = r.qcFormed
  formedQC : r'.formedQC = r.formedQC

theorem OneLeader.congr (inv : OneLeader P s) (blocks : s'.broadcasts = s.broadcasts)
    (sent : ∀ e ∈ s'.network, Sent P s.broadcasts e)
    (same : ∀ j, SameCore (s.replica j) (s'.replica j)) : OneLeader P s' := by
  have counts : ∀ p, tally P s' p = tally P s p := by
    intro p
    rw [tally, tally, (same _).votes]
  constructor
  · exact blocks ▸ inv.line
  · exact blocks ▸ sent
  · intro j
    rw [blocks, (same j).generic]
    exact inv.generic j
  · rw [blocks]
    intro p hp q hq below
    rw [counts]
    exact inv.closed p hp q hq below
  · rw [blocks]
    intro p newest few
    rw [counts] at few
    rw [(same _).generic]
    exact inv.waiting p newest few
  · intro j ready
    have before : P.Ready j (s.replica j) = true := by
      rw [ViewProtocol.Ready, (same j).round, (same j).hasSent] at ready
      exact ready
    simp only [Entitled, blocks, (same j).generic, (same j).round, counts]
    exact inv.entitled j before
  · intro j formed
    rw [(same j).qcFormed] at formed
    simp only [Parked, blocks, (same j).generic, (same j).formedQC, counts]
    exact inv.parked j formed

theorem OneLeader.idle (inv : OneLeader P s) {id : Int} {r : ViewReplica}
    (same : SameCore (s.replica id) r) : OneLeader P (s.set id r) := by
  refine inv.congr rfl inv.sent ?_
  exact ViewSystem.set_forall (fun j r => SameCore (s.replica j) r) s same
    (fun j => ⟨rfl, rfl, rfl, rfl, rfl, rfl⟩)

theorem tally_set_le {id : Int} {r : ViewReplica}
    (grow : ∀ v h, ((s.replica id).votes v h).length ≤ (r.votes v h).length) (p : Proposal) :
    tally P s p ≤ tally P (s.set id r) p := by
  unfold tally
  by_cases here : P.nextLeader p.header.view = id
  · rw [here, ViewSystem.set_replica_self]
    exact grow _ _
  · rw [ViewSystem.set_replica_ne s r here]

theorem OneLeader.generic_lt (inv : OneLeader P s) (j : Int) :
    (s.replica j).manager.genericQC.view < s.broadcasts.length + 1 := by
  cases inv.generic j with
  | inl root =>
      rw [root]
      exact Int.lt_add_one_of_le (Int.natCast_nonneg _)
  | inr named =>
      obtain ⟨p, member, names⟩ := named
      rw [names.2]
      exact Int.lt_add_one_of_le (inv.line.view_range member).2

theorem OneLeader.ready_unique (inv : OneLeader P s) {i j : Int}
    (hi : P.Ready i (s.replica i) = true) (hj : P.Ready j (s.replica j) = true) : i = j := by
  have leads : ∀ k, P.Ready k (s.replica k) = true →
      P.getLeader (s.replica k).manager.round = k := by
    intro k ready
    rw [ViewProtocol.Ready, Bool.and_eq_true] at ready
    exact of_decide_eq_true ready.1
  rcases inv.entitled i hi with ⟨empty, first, -⟩ | ⟨last, newest, collector, -⟩
  · rcases inv.entitled j hj with ⟨-, first', -⟩ | ⟨last, newest, -⟩
    · rw [← leads i hi, ← leads j hj, first, first']
    · rw [empty] at newest
      cases newest.1
  · rcases inv.entitled j hj with ⟨empty, -⟩ | ⟨last', newest', collector', -⟩
    · rw [empty] at newest
      cases newest.1
    · rw [collector, collector', inv.line.newest_unique newest newest']

theorem OneLeader.not_parked (inv : OneLeader P s) {i j : Int}
    (hi : P.Ready i (s.replica i) = true) (hj : (s.replica j).qcFormed = true) : False := by
  obtain ⟨last, qc, newest, collector, -, -, behind, -⟩ := inv.parked j hj
  rcases inv.entitled i hi with ⟨empty, -⟩ | ⟨last', newest', collector', -, names, -⟩
  · rw [empty] at newest
    cases newest.1
  · obtain rfl := inv.line.newest_unique newest newest'
    rw [collector, ← collector', names.2] at behind
    exact absurd behind (lt_irrefl _)

theorem OneLeader.next_block (inv : OneLeader P s) {id : Int} (entitled : Entitled P s id)
    (txns : List Transaction) (now : ℕ) :
    ViewLine P (s.broadcasts ++ [P.generateProposal id (s.replica id).manager txns now]) ∧
      (P.generateProposal id (s.replica id).manager txns now).header.view =
        s.broadcasts.length + 1 := by
  rcases entitled with ⟨empty, round, root⟩ | ⟨last, newest, -, round, names, -⟩
  · have nothing : (s.replica id).manager.genericQC.hash = [] := by rw [root]
    obtain ⟨prehash, field⟩ := generateWith_root P.crypto P.codec id
      (s.replica id).manager.round _ txns 0 false now nothing
    have view : (P.generateProposal id (s.replica id).manager txns now).header.view =
        s.broadcasts.length + 1 := by
      rw [empty]
      exact round
    refine ⟨inv.line.concat ?_ view rfl (.inl ?_), view⟩
    · rw [empty]
      exact prehash
    · exact congrArg (fun field => Option.getD field ({} : QC)) field
  · have named : (s.replica id).manager.genericQC.hash ≠ [] := by
      rw [names.1, inv.line.hashed last newest.1]
      exact getHash_ne_nil _ _ _
    obtain ⟨prehash, field⟩ := generateWith_link P.crypto P.codec id
      (s.replica id).manager.round _ txns 0 false now named
    have view : (P.generateProposal id (s.replica id).manager txns now).header.view =
        s.broadcasts.length + 1 := by
      rw [← newest.2]
      exact round
    refine ⟨inv.line.concat ?_ view rfl (.inr ⟨last, newest.1, ?_⟩), view⟩
    · rw [inv.line.tip_newest newest, ← names.1]
      exact prehash
    · have carried : (P.generateProposal id (s.replica id).manager txns now).header.qc =
          (s.replica id).manager.genericQC :=
        congrArg (fun field => Option.getD field ({} : QC)) field
      rw [carried]
      exact names

theorem Sent.mono {ps : List Proposal} {e : Envelope} (sent : Sent P ps e) (p : Proposal) :
    Sent P (ps ++ [p]) e := by
  obtain ⟨j, message⟩ := e
  cases message with
  | newProposal q => exact List.mem_append_left _ sent
  | vote cert =>
      obtain ⟨q, member, facts⟩ := sent
      exact ⟨q, List.mem_append_left _ member, facts⟩

theorem OneLeader.send (inv : OneLeader P s) {id : Int} (now : ℕ) (txn : Transaction)
    (rest : List Transaction) (ready : P.Ready id (s.replica id) = true) :
    OneLeader P
      { s.set id { s.replica id with txns := rest, hasSent := true } with
        network := s.network ++
          P.broadcast (P.generateProposal id (s.replica id).manager [txn] now)
        broadcasts := s.broadcasts ++
          [P.generateProposal id (s.replica id).manager [txn] now] } := by
  obtain ⟨line, view⟩ := inv.next_block (inv.entitled id ready) [txn] now
  generalize P.generateProposal id (s.replica id).manager [txn] now = p at line view ⊢
  have others : ∀ j, SameCore (s.replica j)
      ({ (s.set id { s.replica id with txns := rest, hasSent := true }).replica j with
        hasSent := (s.replica j).hasSent }) := by
    intro j
    by_cases here : j = id
    · rw [here, ViewSystem.set_replica_self]
      exact ⟨rfl, rfl, rfl, rfl, rfl, rfl⟩
    · rw [ViewSystem.set_replica_ne _ _ here]
      exact ⟨rfl, rfl, rfl, rfl, rfl, rfl⟩
  have counts : ∀ q, tally P
      { s.set id { s.replica id with txns := rest, hasSent := true } with
        network := s.network ++ P.broadcast p
        broadcasts := s.broadcasts ++ [p] } q = tally P s q := by
    intro q
    exact congrArg (fun votes : VoteStore => (votes q.header.view q.hash).length) (others _).votes
  have newest : ∀ q, Newest (s.broadcasts ++ [p]) q → q = p := by
    rintro q ⟨member, top⟩
    cases List.mem_append.mp member with
    | inl old =>
        have bound := (inv.line.view_range old).2
        rw [List.length_append, List.length_singleton] at top
        omega
    | inr new => exact List.mem_singleton.mp new
  constructor
  · exact line
  · intro e member
    cases List.mem_append.mp member with
    | inl old => exact (inv.sent e old).mono p
    | inr new =>
        obtain ⟨j, message⟩ := e
        have body : message = .newProposal p := ViewProtocol.mem_broadcast new
        subst body
        exact List.mem_append_right _ (List.mem_singleton_self p)
  · intro j
    have kept := inv.generic j
    rw [← (others j).generic] at kept
    refine kept.imp_right ?_
    rintro ⟨q, member, names⟩
    exact ⟨q, List.mem_append_left _ member, names⟩
  · intro q hq b hb below
    rw [counts]
    have old : q ∈ s.broadcasts := by
      refine (List.mem_append.mp hq).resolve_right ?_
      intro own
      rw [List.mem_singleton.mp own, view] at below
      have bound := (line.view_range hb).2
      rw [List.length_append, List.length_singleton] at bound
      omega
    -- The newest block so far is closed, because its certificate is what is extended.
    rcases inv.line.newest_or_below old with top | ⟨c, hc, less⟩
    · rcases inv.entitled id ready with ⟨empty, -⟩ | ⟨last, high, -, -, -, full⟩
      · rw [empty] at old
        cases old
      · rwa [inv.line.newest_unique top high]
    · exact inv.closed q old c hc less
  · intro q top few
    rw [newest q top, view]
    have kept := inv.generic_lt (P.nextLeader (s.broadcasts.length + 1))
    rw [← (others _).generic] at kept
    exact kept
  · intro j again
    by_cases here : j = id
    · rw [here, ViewProtocol.Ready] at again
      simp at again
    · have before : P.Ready j (s.replica j) = true := by
        change P.Ready j ((s.set id _).replica j) = true at again
        rwa [ViewSystem.set_replica_ne _ _ here] at again
      exact absurd (inv.ready_unique before ready) here
  · intro j formed
    have before : (s.replica j).qcFormed = true := by
      rw [← (others j).qcFormed]
      exact formed
    exact (inv.not_parked ready before).elim

theorem OneLeader.update (inv : OneLeader P s) {id : Int} {r : ViewReplica} {net : List Envelope}
    {votes : List (Int × Proposal)} (sent : ∀ e ∈ net, Sent P s.broadcasts e)
    (generic : r.manager.genericQC = {} ∨ ∃ p ∈ s.broadcasts, r.manager.genericQC.Names p)
    (grow : ∀ v h, ((s.replica id).votes v h).length ≤ (r.votes v h).length)
    (waiting : ∀ p, Newest s.broadcasts p → id = P.nextLeader p.header.view →
      (r.votes p.header.view p.hash).length < 2 * P.f + 1 →
      r.manager.genericQC.view < p.header.view)
    (entitled : P.Ready id r = true → Entitled P (s.set id r) id)
    (parked : r.qcFormed = true → Parked P (s.set id r) id) :
    OneLeader P { s.set id r with network := net, voted := votes } := by
  have counts : ∀ p, tally P s p ≤ tally P (s.set id r) p := tally_set_le grow
  constructor
  · exact inv.line
  · exact sent
  · exact ViewSystem.set_forall (fun _ r => r.manager.genericQC = {} ∨
      ∃ p ∈ s.broadcasts, r.manager.genericQC.Names p) s generic inv.generic
  · intro p hp q hq below
    exact (inv.closed p hp q hq below).trans (counts p)
  · intro p newest few
    change tally P (s.set id r) p < 2 * P.f + 1 at few
    change ((s.set id r).replica _).manager.genericQC.view < _
    by_cases here : P.nextLeader p.header.view = id
    · rw [tally, here, ViewSystem.set_replica_self] at few
      rw [here, ViewSystem.set_replica_self]
      exact waiting p newest here.symm few
    · rw [ViewSystem.set_replica_ne s r here]
      exact inv.waiting p newest ((counts p).trans_lt few)
  · intro j ready
    change P.Ready j ((s.set id r).replica j) = true at ready
    by_cases here : j = id
    · subst here
      rw [ViewSystem.set_replica_self] at ready
      exact entitled ready
    · rw [ViewSystem.set_replica_ne s r here] at ready
      rcases inv.entitled j ready with
        ⟨empty, facts⟩ | ⟨last, newest, collector, round, names, full⟩
      · left
        change s.broadcasts = [] ∧ ((s.set id r).replica j).manager.round = 1 ∧
          ((s.set id r).replica j).manager.genericQC = {}
        rw [ViewSystem.set_replica_ne s r here]
        exact ⟨empty, facts⟩
      · right
        refine ⟨last, newest, collector, ?_, ?_, full.trans (counts last)⟩
        · change ((s.set id r).replica j).manager.round = _
          rwa [ViewSystem.set_replica_ne s r here]
        · change ((s.set id r).replica j).manager.genericQC.Names last
          rwa [ViewSystem.set_replica_ne s r here]
  · intro j formed
    change ((s.set id r).replica j).qcFormed = true at formed
    by_cases here : j = id
    · subst here
      rw [ViewSystem.set_replica_self] at formed
      exact parked formed
    · rw [ViewSystem.set_replica_ne s r here] at formed
      obtain ⟨last, qc, newest, collector, kept, names, behind, full⟩ := inv.parked j formed
      refine ⟨last, qc, newest, collector, ?_, names, ?_, full.trans (counts last)⟩
      · change ((s.set id r).replica j).formedQC = _
        rwa [ViewSystem.set_replica_ne s r here]
      · change ((s.set id r).replica j).manager.genericQC.view < _
        rwa [ViewSystem.set_replica_ne s r here]

theorem OneLeader.install (inv : OneLeader P s) {id : Int} {r : ViewReplica}
    {net : List Envelope} {votes : List (Int × Proposal)} {last : Proposal} {qc : QC}
    (sent : ∀ e ∈ net, Sent P s.broadcasts e) (newest : Newest s.broadcasts last)
    (collector : id = P.nextLeader last.header.view) (names : qc.Names last)
    (generic : r.manager.genericQC = qc) (round : r.manager.round = last.header.view + 1)
    (free : r.qcFormed = false)
    (grow : ∀ v h, ((s.replica id).votes v h).length ≤ (r.votes v h).length)
    (full : 2 * P.f + 1 ≤ (r.votes last.header.view last.hash).length) :
    OneLeader P { s.set id r with network := net, voted := votes } := by
  refine inv.update sent ?_ grow ?_ ?_ ?_
  · rw [generic]
    exact .inr ⟨last, newest.1, names⟩
  · intro p top _ few
    rw [inv.line.newest_unique top newest] at few
    omega
  · intro _
    refine .inr ⟨last, newest, collector, ?_, ?_, ?_⟩
    · rw [ViewSystem.set_replica_self]
      exact round
    · rw [ViewSystem.set_replica_self, generic]
      exact names
    · rw [tally, ← collector, ViewSystem.set_replica_self]
      exact full
  · intro formed
    rw [free] at formed
    cases formed

theorem OneLeader.accept (calm : P.Calm) (inv : OneLeader P s) {id : Int} {p : Proposal}
    (member : (⟨id, .newProposal p⟩ : Envelope) ∈ s.network) :
    OneLeader P
      { s.set id (P.accepting id (s.replica id) p) with
        network := s.network ++
          [⟨P.nextLeader p.header.view, .vote (P.generateCertificate id p)⟩]
        voted := s.voted ++ [(id, p)] } := by
  have block : p ∈ s.broadcasts := inv.sent _ member
  have sent : ∀ e ∈ s.network ++
      [⟨P.nextLeader p.header.view, .vote (P.generateCertificate id p)⟩],
      Sent P s.broadcasts e := by
    intro e inside
    cases List.mem_append.mp inside with
    | inl old => exact inv.sent e old
    | inr new =>
        rw [List.mem_singleton.mp new]
        exact ⟨p, block, rfl, rfl, rfl⟩
  have below : ∀ last, Newest s.broadcasts last → p.header.qc.view < last.header.view := by
    intro last newest
    rw [newest.2]
    exact (inv.line.qc_below block).trans_le (inv.line.view_range block).2
  have adopted := ProposalManager.addProposalWith_generic P.commitFrom (s.replica id).manager p
  have round := ProposalManager.addProposalWith_round P.commitFrom (s.replica id).manager p
  cases formed : (s.replica id).qcFormed with
  | false =>
      obtain ⟨arrived, shape⟩ := ViewProtocol.accepting_unparked (P := P) id p formed
      rw [shape]
      refine inv.update sent ?_ (fun _ _ => le_rfl) ?_ ?_ ?_
      · change (ProposalManager.addProposalWith _ _ _).1.genericQC = {} ∨ _
        rw [adopted]
        split_ifs
        · refine (inv.line.certified p block).imp_right ?_
          rintro ⟨q, known, names, -⟩
          exact ⟨q, known, names⟩
        · exact inv.generic id
      · intro last newest collector few
        change (ProposalManager.addProposalWith _ _ _).1.genericQC.view < _
        rw [adopted]
        split_ifs
        · exact below last newest
        · subst collector
          exact inv.waiting last newest few
      · intro ready
        have before : P.Ready id (s.replica id) = true := by
          rw [ViewProtocol.Ready] at ready ⊢
          simpa only [round] using ready
        rcases inv.entitled id before with ⟨empty, -⟩ |
          ⟨last, newest, collector, turn, names, full⟩
        · rw [empty] at block
          cases block
        · have kept : ¬(s.replica id).manager.genericQC.view < p.header.qc.view := by
            rw [names.2]
            exact (below last newest).not_gt
          rw [if_neg kept] at adopted
          refine .inr ⟨last, newest, collector, ?_, ?_, ?_⟩
          · rw [ViewSystem.set_replica_self]
            exact round.trans turn
          · rw [ViewSystem.set_replica_self]
            exact adopted ▸ names
          · rw [tally, ← collector] at full
            rw [tally, ← collector, ViewSystem.set_replica_self]
            exact full
      · intro again
        rw [formed] at again
        cases again
  | true =>
      obtain ⟨last, qc, newest, collector, waiting, names, behind, full⟩ := inv.parked id formed
      rw [ViewProtocol.accepting_parked id p formed waiting, calm.adopt]
      have newer : (ProposalManager.addProposalWith P.commitFrom (s.replica id).manager
          p).1.genericQC.view < qc.view := by
        rw [adopted, names.2]
        split_ifs
        · exact below last newest
        · exact behind
      rw [ViewProtocol.adoptRound, if_pos (.inr newer)]
      refine inv.install sent newest collector names rfl ?_ rfl (fun _ _ => le_rfl) ?_
      · exact congrArg (· + 1) names.2
      · rw [tally, ← collector] at full
        exact full

theorem OneLeader.completes (inv : OneLeader P s) {id : Int} {cert : Certificate} {p : Proposal}
    (block : p ∈ s.broadcasts) (hash : cert.hash = p.hash) (view : cert.view = p.header.view)
    (collector : id = P.nextLeader p.header.view)
    (fresh : FreshVote P s (.deliver ⟨id, .vote cert⟩))
    (complete : ((s.replica id).votes.insert cert cert.view cert.hash).length = 2 * P.f + 1) :
    Newest s.broadcasts p ∧ tally P s p < 2 * P.f + 1 := by
  have few : ((s.replica id).votes cert.view cert.hash).length < 2 * P.f + 1 := by
    have grow := VoteStore.length_le_insert (s.replica id).votes cert cert.view cert.hash
    refine lt_of_le_of_ne (complete ▸ grow) ?_
    intro quorum
    have unknown : ¬(((s.replica id).votes cert.view cert.hash).any
        (fun c => c.signer = cert.signer)) = true := by
      rw [List.any_eq_true]
      rintro ⟨c, inside, same⟩
      exact fresh quorum c inside (of_decide_eq_true same)
    rw [VoteStore.insert, if_pos ⟨rfl, rfl⟩, length_insertSigner, if_neg unknown,
      quorum] at complete
    omega
  have count : tally P s p < 2 * P.f + 1 := by
    rw [tally, ← collector, ← view, ← hash]
    exact few
  refine ⟨?_, count⟩
  rcases inv.line.newest_or_below block with newest | ⟨q, later, less⟩
  · exact newest
  · have full := inv.closed p block q later less
    omega

theorem OneLeader.vote (calm : P.Calm) (inv : OneLeader P s) {id : Int} {cert : Certificate}
    {r : ViewReplica} (member : (⟨id, .vote cert⟩ : Envelope) ∈ s.network)
    (fresh : FreshVote P s (.deliver ⟨id, .vote cert⟩))
    (voted : Voted P id (s.replica id) cert r) : OneLeader P (s.set id r) := by
  obtain ⟨p, block, hash, view, collector⟩ := inv.sent _ member
  have grow := VoteStore.length_le_insert (s.replica id).votes cert
  change OneLeader P { s.set id r with network := s.network, voted := s.voted }
  cases voted with
  | dropped => exact inv.idle ⟨rfl, rfl, rfl, rfl, rfl, rfl⟩
  | counted valid waiting =>
      refine inv.update inv.sent (inv.generic id) grow ?_ ?_ ?_
      · intro last newest here few
        subst here
        exact inv.waiting last newest ((grow _ _).trans_lt few)
      · intro ready
        rcases inv.entitled id ready with ⟨empty, -⟩ | ⟨last, newest, here, round, names, full⟩
        · rw [empty] at block
          cases block
        · refine .inr ⟨last, newest, here, ?_, ?_, full.trans (tally_set_le grow last)⟩
          · rw [ViewSystem.set_replica_self]
            exact round
          · rw [ViewSystem.set_replica_self]
            exact names
      · intro formed
        obtain ⟨last, qc, newest, here, kept, names, behind, full⟩ := inv.parked id formed
        refine ⟨last, qc, newest, here, ?_, names, ?_, full.trans (tally_set_le grow last)⟩
        · rw [ViewSystem.set_replica_self]
          exact kept
        · rw [ViewSystem.set_replica_self]
          exact behind
  | added valid complete arrived =>
      obtain ⟨newest, few⟩ := inv.completes block hash view collector fresh complete
      have behind := inv.waiting p newest few
      rw [← collector] at behind
      rw [ViewProtocol.addFormed, calm.adopt, ViewProtocol.adoptRound]
      rw [if_pos (.inr (show (s.replica id).manager.genericQC.view < cert.view from view ▸ behind))]
      refine inv.install inv.sent newest collector ⟨hash, view⟩ rfl ?_ rfl grow ?_
      · exact congrArg (· + 1) view
      · rw [← view, ← hash]
        exact complete.ge
  | parked valid complete missing =>
      obtain ⟨newest, few⟩ := inv.completes block hash view collector fresh complete
      have behind := inv.waiting p newest few
      rw [← collector] at behind
      refine inv.update inv.sent (inv.generic id) grow ?_ ?_ ?_
      · intro last top _ still
        rw [inv.line.newest_unique top newest]
        exact behind
      · intro ready
        rcases inv.entitled id ready with ⟨empty, -⟩ | ⟨last, top, -, -, -, full⟩
        · rw [empty] at block
          cases block
        · rw [inv.line.newest_unique top newest] at full
          omega
      · intro _
        refine ⟨p, ViewProtocol.quorum ((s.replica id).votes.insert cert) cert.view cert.hash,
          newest, collector, ?_, ⟨hash, view⟩, ?_, ?_⟩
        · rw [ViewSystem.set_replica_self]
        · rw [ViewSystem.set_replica_self]
          exact behind
        · rw [tally, ← collector, ViewSystem.set_replica_self, ← view, ← hash]
          exact complete.ge

theorem OneLeader.step (calm : P.Calm) (inv : OneLeader P s) {a : ViewAction}
    (fresh : FreshVote P s a) (taken : s.step P ∅ a = some s') : OneLeader P s' := by
  cases ViewSystem.step_effect calm taken with
  | transaction honest => exact inv.idle ⟨rfl, rfl, rfl, rfl, rfl, rfl⟩
  | @send id now txn rest honest ready => exact inv.send now txn rest ready
  | @refused id p refuse =>
      obtain ⟨arrived, noted⟩ := ViewProtocol.noteProposal_eq (P := P) id (s.replica id) p
      rw [noted]
      exact inv.idle ⟨rfl, rfl, rfl, rfl, rfl, rfl⟩
  | accepted honest member accept => exact inv.accept calm member
  | vote honest member voted => exact inv.vote calm member fresh voted
  | inject faulty unforged => exact absurd faulty Finset.not_nonempty_empty

theorem run_oneLeader (calm : P.Calm) {acts : List ViewAction}
    (ran : Run.exec (ViewSystem.step P ∅) {} acts = some s)
    (fresh : Run.Along (ViewSystem.step P ∅) (FreshVote P) {} acts) : OneLeader P s :=
  Run.exec_invariant (fun _ _ _ inv fresh taken => OneLeader.step calm inv fresh taken)
    (initial_oneLeader P) fresh ran

end Steps
end ResDB.HotStuff
