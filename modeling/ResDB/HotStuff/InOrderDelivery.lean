import Mathlib.Tactic
import ResDB.HotStuff.CertifiedCommit

/-! A chain that is fed in order to a fresh `ProposalManager`. Every protocol accepts all of
it and commits all but the last few blocks, unless the first proposal carries a certificate
that outranks its successors. -/
namespace ResDB.HotStuff
open LinkedLog (Linked)

def fedProposals (events : List ChainedEvent) : List Proposal :=
  events.filterMap fun
    | .proposal p => some p
    | .certificate _ => none

/-- Each certificate is one of a proposal that has been fed before it. -/
def CertifiesFed : List Proposal → List ChainedEvent → Prop
  | _, [] => True
  | fed, .proposal p :: rest => CertifiesFed (fed ++ [p]) rest
  | fed, .certificate qc :: rest => (∃ p ∈ fed, qc.Certifies p) ∧ CertifiesFed fed rest

instance : (fed : List Proposal) → (events : List ChainedEvent) →
    Decidable (CertifiesFed fed events)
  | _, [] => .isTrue trivial
  | fed, .proposal p :: rest => instDecidableCertifiesFed (fed ++ [p]) rest
  | fed, .certificate qc :: rest =>
      @instDecidableAnd (∃ p ∈ fed, qc.Certifies p) (CertifiesFed fed rest) inferInstance
        (instDecidableCertifiesFed fed rest)

/-- The proposals are fed in the order of the chain, with certificates of fed proposals
anywhere between them. -/
structure Feeds (chain : List Proposal) (events : List ChainedEvent) : Prop where
  inOrder : fedProposals events = chain
  certified : CertifiesFed [] events

/-- A chain from view 1 on, in which each proposal carries a valid certificate of the one
before and `Next` tells how positions grow. -/
structure ValidChain (P : ChainedProtocol) (Next : Proposal → Proposal → Prop)
    (chain : List Proposal) : Prop where
  hashed : ∀ p ∈ chain, p.hash = getHash P.crypto P.codec p
  first : ∀ p ∈ chain.head?, p.header.view = 1 ∧ p.header.prehash = []
  next : chain.IsChain fun p q => Next p q ∧ q.header.prehash = p.hash ∧
    q.header.qc.Certifies p ∧ P.verifyQC q.header.qc = true

instance (P : ChainedProtocol) (Next : Proposal → Proposal → Prop) [DecidableRel Next]
    (chain : List Proposal) : Decidable (ValidChain P Next chain) :=
  decidable_of_iff ((∀ p ∈ chain, p.hash = getHash P.crypto P.codec p) ∧
      (∀ p ∈ chain.head?, p.header.view = 1 ∧ p.header.prehash = []) ∧
      chain.IsChain fun p q => Next p q ∧ q.header.prehash = p.hash ∧
        q.header.qc.Certifies p ∧ P.verifyQC q.header.qc = true)
    ⟨fun h => ⟨h.1, h.2.1, h.2.2⟩, fun h => ⟨h.hashed, h.first, h.next⟩⟩

/-- What one protocol keeps while the chain arrives: after `i` proposals the manager satisfies
`Inv i`, the next one is accepted if `Admits i`, and it commits what lies `k` below it. -/
structure Pipeline (P : ChainedProtocol) (chain : List Proposal) (k : ℕ) (Admits : ℕ → Prop)
    (Inv : ℕ → ProposalManager → Prop) : Prop where
  start : Inv 0 {}
  verdict : ∀ i m (h : i < chain.length), Inv i m → (P.verify m chain[i] = true ↔ Admits i)
  accept : ∀ i m (h : i < chain.length), Inv i m → Inv (i + 1) (P.addProposal m chain[i]).1 ∧
    chain.take (i - k) ++ (P.addProposal m chain[i]).2.reverse = chain.take (i + 1 - k)
  certificate : ∀ i m qc, Inv i m → (∃ p ∈ chain.take i, qc.Certifies p) → Inv i (P.addQC m qc)

/-- All of the chain is accepted, and all but its last `k` blocks are committed. -/
def Delivered (chain : List Proposal) (k : ℕ) (r : ChainedReplica) : Prop :=
  r.accepted = chain ∧ r.commits.map Prod.snd = chain.take (chain.length - k)

instance (chain : List Proposal) (k : ℕ) (r : ChainedReplica) : Decidable (Delivered chain k r) :=
  inferInstanceAs (Decidable (_ ∧ _))

section Pipelines
variable {P : ChainedProtocol} {chain : List Proposal} {k : ℕ} {Admits : ℕ → Prop}
  {Inv : ℕ → ProposalManager → Prop}

theorem exec_accepted_length {events : List ChainedEvent} {r r' : ChainedReplica}
    (ran : Run.exec P.step r events = some r') :
    r'.accepted.length ≤ r.accepted.length + (fedProposals events).length := by
  induction events generalizing r with
  | nil =>
      cases ran
      exact Nat.le_add_right _ _
  | cons e rest ih =>
      obtain ⟨mid, first, later⟩ := Run.exec_cons_some ran
      have bound := ih later
      cases e with
      | proposal p =>
          have fed : (fedProposals (.proposal p :: rest)).length =
              (fedProposals rest).length + 1 := rfl
          simp only [ChainedProtocol.step] at first
          split_ifs at first
          · cases first
            simp only [List.length_append, List.length_singleton] at bound
            omega
          · cases first
            omega
      | certificate qc =>
          cases first
          exact bound

theorem exec_total (P : ChainedProtocol) (r : ChainedReplica) (events : List ChainedEvent) :
    ∃ r', Run.exec P.step r events = some r' := by
  induction events generalizing r with
  | nil => exact ⟨r, rfl⟩
  | cons e rest ih =>
      have taken : ∃ mid, P.step r e = some mid := by
        cases e with
        | proposal p =>
            simp only [ChainedProtocol.step]
            split_ifs
            · exact ⟨_, rfl⟩
            · exact ⟨_, rfl⟩
        | certificate qc => exact ⟨_, rfl⟩
      obtain ⟨mid, first⟩ := taken
      rw [Run.exec_cons_of_step rest first]
      exact ih mid

theorem Pipeline.run_from (pipe : Pipeline P chain k Admits Inv) {events : List ChainedEvent}
    {r r' : ChainedReplica} {i : ℕ} (here : i ≤ chain.length) (inv : Inv i r.manager)
    (accepted : r.accepted = chain.take i)
    (committed : r.commits.map Prod.snd = chain.take (i - k))
    (inOrder : fedProposals events = chain.drop i)
    (certified : CertifiesFed (chain.take i) events)
    (ran : Run.exec P.step r events = some r') :
    Delivered chain k r' ↔ ∀ j, i ≤ j → j < chain.length → Admits j := by
  induction events generalizing r i with
  | nil =>
      cases ran
      have done : i = chain.length := by
        have left := congrArg List.length inOrder
        rw [List.length_drop] at left
        change 0 = _ at left
        omega
      subst done
      rw [List.take_length] at accepted
      constructor
      · intro _ j above below
        omega
      · intro _
        exact ⟨accepted, committed⟩
  | cons e rest ih =>
      obtain ⟨mid, first, later⟩ := Run.exec_cons_some ran
      cases e with
      | proposal p =>
          have fed : p :: fedProposals rest = chain.drop i := inOrder
          have inside : i < chain.length := by
            by_contra beyond
            rw [List.drop_eq_nil_of_le (Nat.le_of_not_lt beyond)] at fed
            cases fed
          rw [List.drop_eq_getElem_cons inside, List.cons.injEq] at fed
          obtain ⟨rfl, left⟩ := fed
          by_cases ok : Admits i
          · -- The proposal is accepted, and the rest of the run decides.
            have accept := (pipe.verdict i r.manager inside inv).mpr ok
            obtain ⟨kept, pushed⟩ := pipe.accept i r.manager inside inv
            simp only [ChainedProtocol.step, accept, if_true] at first
            cases first
            have certified : CertifiesFed (chain.take i ++ [chain[i]]) rest := certified
            rw [List.take_append_getElem] at certified
            rw [ih (Nat.succ_le_of_lt inside) kept
              (by rw [accepted, List.take_append_getElem])
              (by simp only [List.map_append, committed, List.map_map, Function.comp_def,
                    List.map_id']; exact pushed)
              left certified later]
            constructor
            · intro admits j above below
              rcases Nat.lt_or_eq_of_le above with later | rfl
              · exact admits j later below
              · exact ok
            · intro admits j above below
              exact admits j (Nat.le_of_succ_le above) below
          · -- A refused proposal is missing among the accepted ones for good.
            have refuse : P.verify r.manager chain[i] = false := by
              rw [← Bool.not_eq_true, pipe.verdict i r.manager inside inv]
              exact ok
            simp only [ChainedProtocol.step, refuse] at first
            cases first
            constructor
            · intro delivered
              have bound := exec_accepted_length later
              rw [delivered.1, accepted, left, List.length_take, List.length_drop] at bound
              omega
            · intro admits
              exact absurd (admits i le_rfl inside) ok
      | certificate qc =>
          cases first
          have fed : fedProposals rest = chain.drop i := inOrder
          exact @ih { r with manager := P.addQC r.manager qc } i here
            (pipe.certificate i r.manager qc inv certified.1) accepted committed fed certified.2
            later

theorem Pipeline.run (pipe : Pipeline P chain k Admits Inv) {events : List ChainedEvent}
    (feeds : Feeds chain events) {r : ChainedReplica}
    (ran : Run.exec P.step {} events = some r) :
    Delivered chain k r ↔ ∀ j, j < chain.length → Admits j := by
  have run := pipe.run_from (Nat.zero_le _) pipe.start rfl (by simp) feeds.inOrder
    feeds.certified ran
  simpa using run

end Pipelines

theorem head?_eq {chain : List Proposal} (inside : 0 < chain.length) :
    chain.head? = some chain[0] := by
  rw [List.head?_eq_getElem?, List.getElem?_eq_getElem inside]

section Links
variable {P : ChainedProtocol} {Next : Proposal → Proposal → Prop} {chain : List Proposal}
  (valid : ValidChain P Next chain)
include valid

theorem ValidChain.head (inside : 0 < chain.length) :
    chain[0].header.view = 1 ∧ chain[0].header.prehash = [] :=
  valid.first chain[0] (head?_eq inside)

theorem ValidChain.link {i : ℕ} (inside : i + 1 < chain.length) (here : i < chain.length) :
    Next chain[i] chain[i + 1] ∧ chain[i + 1].header.prehash = chain[i].hash ∧
      chain[i + 1].header.qc.Certifies chain[i] ∧
      P.verifyQC chain[i + 1].header.qc = true :=
  List.isChain_iff_getElem.mp valid.next i inside

theorem ValidChain.named : ∀ p ∈ chain, p.hash ≠ [] := by
  intro p member
  rw [valid.hashed p member]
  exact getHash_ne_nil P.crypto P.codec p

end Links

/-! ### The protocols without slots -/

def Consecutive (p q : Proposal) : Prop := q.header.view = p.header.view + 1

instance (p q : Proposal) : Decidable (Consecutive p q) :=
  inferInstanceAs (Decidable (q.header.view = p.header.view + 1))

theorem ValidChain.viewChain {P : ChainedProtocol} {chain : List Proposal}
    (valid : ValidChain P Consecutive chain) (free : CollisionFree P.crypto P.codec chain) :
    ViewChain chain := by
  have views : ∀ i (h : i < chain.length), chain[i].header.view = i + 1 := by
    intro i
    induction i with
    | zero =>
        intro h
        rw [(valid.head h).1]
        rfl
    | succ i ih =>
        intro h
        have next : chain[i + 1].header.view = chain[i].header.view + 1 :=
          (valid.link h (by omega)).1
        rw [next, ih]
        push_cast
        ring
  refine ⟨?_, views, valid.named, ?_⟩
  · refine LinkedLog.linked_of_isChain (fun p first => (valid.first p first).2) ?_
    exact valid.next.imp (fun p q link => link.2.1)
  · exact nodup_hash_of_views free valid.hashed views

/-- The third proposal meets the certificate of the first one as the lock. -/
def FirstBelow (chain : List Proposal) : Prop :=
  chain.length ≤ 2 ∨ ∀ first ∈ chain.head?, first.header.qc.view < 2

/-- After `i` proposals: the window and the lock, which is the certificate of the last but
one. -/
structure ViewFed (chain : List Proposal) (k i : ℕ) (m : ProposalManager) : Prop where
  window : Window chain (i - k) i m.localBlock
  fresh : i < 2 → m.lockQC.view = 0
  lock : ∀ j (h : j < chain.length), j + 2 = i → m.lockQC.view = chain[j].header.qc.view

section Views
variable {P : ChainedProtocol} {chain : List Proposal} {k : ℕ}
  {commitFrom : (Bytes → Option Proposal) → Proposal → Proposal → Option Bytes}

theorem ViewFed.verdict (valid : ValidChain P Consecutive chain) (line : ViewChain chain)
    (safe : P.safeNode = ProposalManager.newerThanLock) {i : ℕ} {m : ProposalManager}
    (inside : i < chain.length) (fed : ViewFed chain k i m) :
    P.verify m chain[i] = true ↔ (i = 2 → ∀ first ∈ chain.head?, first.header.qc.view < 2) := by
  have hash := valid.hashed _ (List.getElem_mem inside)
  rw [ChainedProtocol.verify, verifyWith_iff, safe, line.views i inside]
  cases i with
  | zero => simp [hash]
  | succ i =>
      obtain ⟨-, -, names, verified⟩ := valid.link inside (by omega)
      have height : chain[i + 1].header.qc.view = i + 1 := by rw [names.view, line.views]
      have notFirst : ¬((i + 1 : ℕ) : Int) + 1 = 1 := by omega
      simp only [hash, notFirst, false_or, true_and, verified, and_true,
        ProposalManager.newerThanLock, height, decide_eq_true_iff]
      rcases i with _ | _ | j
      · rw [fed.fresh (by omega)]
        simp
      · rw [fed.lock 0 (by omega) rfl]
        simp [head?_eq (show 0 < chain.length by omega)]
      · have lower := (valid.link (show j + 1 < chain.length by omega) (by omega)).2.2.1.view
        rw [fed.lock (j + 1) (by omega) rfl, lower, line.views]
        simp only [Nat.reduceEqDiff, IsEmpty.forall_iff, iff_true]
        push_cast
        omega

theorem viewPipeline (valid : ValidChain P Consecutive chain)
    (free : CollisionFree P.crypto P.codec chain) (depth : Depth k commitFrom)
    (safe : P.safeNode = ProposalManager.newerThanLock)
    (add : P.addProposal = ProposalManager.addProposalWith commitFrom)
    (keeps : ∀ m qc, (P.addQC m qc).localBlock = m.localBlock ∧
      (P.addQC m qc).lockQC = m.lockQC) :
    Pipeline P chain k (fun i => i = 2 → ∀ first ∈ chain.head?, first.header.qc.view < 2)
      (ViewFed chain k) where
  start := by
    refine ⟨?_, fun _ => rfl, fun j h same => by omega⟩
    intro hash q
    constructor
    · intro found
      cases found
    · rintro ⟨j, -, below, -⟩
      omega
  verdict i m inside fed := fed.verdict valid (valid.viewChain free) safe inside
  accept i m inside fed := by
    have line := valid.viewChain free
    have positive := depth.positive
    rw [add]
    obtain ⟨window, pushed⟩ := depth.accept line fed.window inside
    have lock := ProposalManager.addProposalWith_lock commitFrom m chain[i]
    refine ⟨⟨window, fun early => ?_, fun j h place => ?_⟩, pushed⟩
    · obtain rfl : i = 0 := by omega
      have absent : m.getProposal chain[0].header.prehash = none := by
        rw [line.root inside]
        exact fed.window.miss_nil line
      rw [lock, absent]
      exact fed.fresh (by omega)
    · obtain rfl : i = j + 1 := by omega
      have father : m.getProposal chain[j + 1].header.prehash = some chain[j] := by
        rw [line.father inside]
        exact fed.window.hit (by omega) (by omega) h
      rw [lock, father]
  certificate i m qc fed _ := by
    obtain ⟨blocks, lock⟩ := keeps m qc
    exact ⟨blocks ▸ fed.window, lock ▸ fed.fresh, lock ▸ fed.lock⟩

end Views

/-! ### TD-HotStuff -/

/-- The `ProposalManager` of a slotted replica, before `ReceiveProposal` stamps what is
committed. -/
def SlotProtocol.managed (P : SlotProtocol) (id : Int) : ChainedProtocol :=
  { P.chained id with
    addProposal := fun m p => ((m.addProposal p).1, (m.addProposal p).2.toList) }

def Later (p q : Proposal) : Prop := p.header.position < q.header.position

instance (p q : Proposal) : Decidable (Later p q) :=
  inferInstanceAs (Decidable (p.header.position < q.header.position))

/-- Behind view 1 no proposal is certified below the certificate of the first one. -/
def FirstNotAbove (chain : List Proposal) : Prop :=
  ∀ first ∈ chain.head?, chain.IsChain fun p q =>
    q.header.view ≠ 1 → first.header.qc.position ≤ p.header.position

/-- After `i` proposals only the last one is stored. The certificate of the first bounds the
lock and the generic certificate from below, and the lock is one of a few. -/
structure SlotFed (chain : List Proposal) (i : ℕ) (m : ProposalManager) : Prop where
  window : Window chain (i - 1) i m.localBlock
  fresh : i = 0 → m.genericQC.position = toLex (0, 0) ∧ m.lockQC.position = toLex (0, 0)
  above : 1 ≤ i → ∀ first ∈ chain.head?, first.header.qc.position ≤ m.genericQC.position ∧
    first.header.qc.position ≤ m.lockQC.position
  lock : m.lockQC.position = toLex (0, 0) ∨
    (∃ first ∈ chain.head?, m.lockQC.position = first.header.qc.position) ∨
    ∃ j, ∃ h : j < chain.length, j + 1 < i ∧ m.lockQC.position = chain[j].header.position

section Slots
variable {P : SlotProtocol} {id : Int} {chain : List Proposal}
  (valid : ValidChain (P.managed id) Later chain)
include valid

theorem ValidChain.position_mono {i j : ℕ} (hj : j < chain.length) (below : i ≤ j) :
    (chain.get ⟨i, by omega⟩).header.position ≤ chain[j].header.position := by
  induction j with
  | zero =>
      obtain rfl : i = 0 := by omega
      exact le_rfl
  | succ j ih =>
      rcases Nat.lt_or_eq_of_le below with less | rfl
      · exact (ih (by omega) (by omega)).trans (valid.link hj (by omega)).1.le
      · exact le_rfl

theorem ValidChain.view_pos {i : ℕ} (inside : i < chain.length) : 1 ≤ chain[i].header.view := by
  have above := valid.position_mono inside (Nat.zero_le i)
  have first := (valid.head (by omega)).1
  rw [Header.position, Header.position, position_le] at above
  simp only [List.get_eq_getElem] at above
  omega

theorem SlotFed.verdict {i : ℕ} {m : ProposalManager} (inside : i < chain.length)
    (fed : SlotFed chain i m) :
    (P.managed id).verify m chain[i] = true ↔
      ∀ first ∈ chain.head?, ∀ j (h : j + 1 < chain.length) (here : j < chain.length),
        j + 1 = i → chain[j + 1].header.view ≠ 1 →
        first.header.qc.position ≤ chain[j].header.position := by
  have hash := valid.hashed _ (List.getElem_mem inside)
  have split : (P.managed id).verify m chain[i] = true ↔ chain[i].header.view = 1 ∨
      m.lockQC.position ≤ chain[i].header.qc.position ∧
        (P.managed id).verifyQC chain[i].header.qc = true := by
    rw [ChainedProtocol.verify, verifyWith_iff, ← ProposalManager.safeNode_iff]
    exact and_iff_right hash
  rw [split]
  have head := head?_eq (show 0 < chain.length by omega)
  cases i with
  | zero => simp [(valid.head inside).1]
  | succ i =>
      obtain ⟨-, -, names, verified⟩ := valid.link inside (by omega)
      rw [verified, names.position]
      constructor
      · rintro (one | ⟨below, -⟩) first member j h here same later
        · cases same
          exact absurd one later
        · cases same
          exact (fed.above (by omega) first member).2.trans below
      · intro admits
        by_cases one : chain[i + 1].header.view = 1
        · exact .inl one
        · refine .inr ⟨?_, rfl⟩
          have bound := admits chain[0] head i inside (by omega) rfl one
          rcases fed.lock with base | ⟨first, member, same⟩ | ⟨j, h, below, same⟩
          · have positive := valid.view_pos (show i < chain.length by omega)
            rw [base, Header.position, position_le]
            omega
          · rw [head] at member
            cases member
            rw [same]
            exact bound
          · rw [same]
            exact valid.position_mono (by omega) (by omega)

theorem SlotFed.push {i : ℕ} {m : ProposalManager} (inside : i < chain.length)
    (window : Window chain (i - 1) i m.localBlock) :
    Window chain i (i + 1) (m.addProposal chain[i]).1.localBlock := by
  intro hash q
  change (m.addProposal chain[i]).1.getProposal hash = some q ↔ _
  rw [ProposalManager.addProposal_find]
  have only : (∃ j, i ≤ j ∧ j < i + 1 ∧ chain[j]? = some q ∧ q.hash = hash) ↔
      chain[i] = q ∧ hash = chain[i].hash := by
    constructor
    · rintro ⟨j, low, high, place, rfl⟩
      obtain rfl : j = i := by omega
      obtain ⟨-, rfl⟩ := List.getElem?_eq_some_iff.mp place
      exact ⟨rfl, rfl⟩
    · rintro ⟨rfl, rfl⟩
      exact ⟨i, le_rfl, Nat.lt_succ_self i, List.getElem?_eq_getElem inside, rfl⟩
  rw [only]
  split_ifs with own father
  · simp [own]
  · simp [own]
  · simp only [own, and_false, iff_false]
    intro found
    -- The only stored block is the father.
    obtain ⟨j, low, high, place, rfl⟩ := (window hash q).mp found
    obtain ⟨i, rfl⟩ : ∃ i', i = i' + 1 := ⟨i - 1, by omega⟩
    obtain rfl : j = i := by omega
    obtain ⟨known, rfl⟩ := List.getElem?_eq_some_iff.mp place
    exact father (valid.link inside known).2.1.symm

theorem SlotFed.commits {i : ℕ} {m : ProposalManager} (inside : i < chain.length)
    (window : Window chain (i - 1) i m.localBlock) :
    chain.take (i - 1) ++ (m.addProposal chain[i]).2.toList.reverse = chain.take i := by
  rw [ProposalManager.addProposal_commit]
  cases i with
  | zero =>
      rw [(valid.head inside).2]
      cases found : m.getProposal [] with
      | none => rfl
      | some q =>
          obtain ⟨j, -, below, -⟩ := (window [] q).mp found
          omega
  | succ i =>
      have father : m.getProposal chain[i + 1].header.prehash = some chain[i] := by
        rw [(valid.link inside (by omega)).2.1]
        exact window.hit (by omega) (Nat.lt_succ_self i) (by omega)
      rw [father]
      simp

theorem SlotFed.accept {i : ℕ} {m : ProposalManager} (inside : i < chain.length)
    (fed : SlotFed chain i m) : SlotFed chain (i + 1) (m.addProposal chain[i]).1 := by
  have head := head?_eq (show 0 < chain.length by omega)
  obtain ⟨generic, lock, -, -⟩ := ProposalManager.addProposal_manager m chain[i]
  refine ⟨SlotFed.push valid inside fed.window, fun zero => by omega, ?_, ?_⟩
  · intro _ first member
    rw [head] at member
    cases member
    rw [generic, lock]
    by_cases newer : m.genericQC.position ≤ chain[i].header.qc.position
    · rw [ProposalManager.adoptQC_of_le newer]
      cases i with
      | zero => exact ⟨le_rfl, le_rfl⟩
      | succ i =>
          have below := (fed.above (by omega) chain[0] head).1.trans newer
          exact ⟨below, below⟩
    · rw [ProposalManager.adoptQC_of_lt (not_le.mp newer)]
      cases i with
      | zero =>
          obtain ⟨base, unlocked⟩ := fed.fresh rfl
          have below := (not_le.mp newer).le
          exact ⟨below, unlocked ▸ base ▸ below⟩
      | succ i => exact fed.above (by omega) chain[0] head
  · rw [lock]
    by_cases newer : m.genericQC.position ≤ chain[i].header.qc.position
    · rw [ProposalManager.adoptQC_of_le newer]
      cases i with
      | zero => exact .inr (.inl ⟨chain[0], head, rfl⟩)
      | succ i =>
          exact .inr (.inr ⟨i, by omega, by omega, (valid.link inside (by omega)).2.2.1.position⟩)
    · rw [ProposalManager.adoptQC_of_lt (not_le.mp newer)]
      refine fed.lock.imp_right (Or.imp_right ?_)
      rintro ⟨j, h, below, same⟩
      exact ⟨j, h, Nat.lt_succ_of_lt below, same⟩

theorem SlotFed.certificate (calm : P.NoAttack) {i : ℕ} {m : ProposalManager} {qc : QC}
    (fed : SlotFed chain i m) (known : ∃ p ∈ chain.take i, qc.Certifies p) :
    SlotFed chain i (P.addQC id m qc) := by
  obtain ⟨p, member, names⟩ := known
  obtain ⟨j, below, rfl⟩ := List.getElem_of_mem member
  rw [List.length_take] at below
  rw [List.getElem_take] at names
  refine ⟨?_, fun zero => by omega, ?_, ?_⟩
  · rw [addQC_localBlock]
    exact fed.window
  · intro later first head
    obtain ⟨generic, lock⟩ := fed.above later first head
    rw [addQC_lockQC]
    refine ⟨?_, lock⟩
    by_cases newer : m.genericQC.view = 0 ∨ m.genericQC.position < qc.position
    · rw [SlotProtocol.addQC_of_newer calm id newer]
      refine generic.trans ?_
      rcases newer with zero | less
      · have positive := valid.view_pos (show j < chain.length by omega)
        rw [names.position, QC.position, Header.position, zero, position_le]
        omega
      · exact less.le
    · rw [SlotProtocol.addQC, calm.forkTail, calm.rollback,
        ProposalManager.addQC_older P.getLeader id newer]
      exact generic
  · rw [addQC_lockQC]
    exact fed.lock

omit valid in
theorem slotPipeline (calm : P.NoAttack) (valid : ValidChain (P.managed id) Later chain) :
    Pipeline (P.managed id) chain 1
      (fun i => ∀ first ∈ chain.head?, ∀ j (h : j + 1 < chain.length) (here : j < chain.length),
        j + 1 = i → chain[j + 1].header.view ≠ 1 →
          first.header.qc.position ≤ chain[j].header.position)
      (SlotFed chain) where
  start := by
    refine ⟨?_, fun _ => ⟨rfl, rfl⟩, fun later => by omega, .inl rfl⟩
    intro hash q
    constructor
    · intro found
      cases found
    · rintro ⟨j, -, below, -⟩
      omega
  verdict i m inside fed := fed.verdict valid inside
  accept i m inside fed :=
    ⟨fed.accept valid inside, SlotFed.commits valid inside fed.window⟩
  certificate i m qc fed known := fed.certificate valid calm known

end Slots

/-! ### The four protocols -/

/-- The depth of each protocol, how its positions grow, and what the certificate of the
first proposal must respect. -/
inductive Pipelined : ChainedProtocol → ℕ → (Proposal → Proposal → Prop) →
    (List Proposal → Prop) → Prop where
  | tdHotstuff (cfg : TdHotstuff.Config) (id : Int) (calm : (TdHotstuff.protocol cfg).NoAttack) :
      Pipelined ((TdHotstuff.protocol cfg).managed id) 1 Later FirstNotAbove
  | hs1 (cfg : Hs1.Config) (calm : cfg.forkTailNum = 0 ∧ cfg.rollbackNum = 0) :
      Pipelined (Hs1.protocol cfg) 1 Consecutive FirstBelow
  | hs2 (cfg : Hs2.Config) (calm : cfg.forkTailNum = 0) :
      Pipelined (Hs2.protocol cfg) 2 Consecutive FirstBelow
  | hs (cfg : Hs.Config) (calm : cfg.forkTailNum = 0) :
      Pipelined (Hs.protocol cfg) 3 Consecutive FirstBelow

theorem firstBelow_iff (chain : List Proposal) : FirstBelow chain ↔
    ∀ i, i < chain.length → i = 2 → ∀ first ∈ chain.head?, first.header.qc.view < 2 := by
  constructor
  · rintro (short | below) i inside rfl
    · omega
    · exact below
  · intro admits
    by_cases short : chain.length ≤ 2
    · exact .inl short
    · exact .inr (admits 2 (by omega) rfl)

theorem firstNotAbove_iff (chain : List Proposal) : FirstNotAbove chain ↔
    ∀ i, i < chain.length → ∀ first ∈ chain.head?,
      ∀ j (h : j + 1 < chain.length) (here : j < chain.length), j + 1 = i →
      chain[j + 1].header.view ≠ 1 → first.header.qc.position ≤ chain[j].header.position := by
  constructor
  · intro bound i _ first member j h _ _
    exact List.isChain_iff_getElem.mp (bound first member) j h
  · intro admits first member
    apply List.isChain_iff_getElem.mpr
    intro j h
    exact admits (j + 1) h first member j h (by omega) rfl

/-- Fed in order, a chain is accepted as a whole and committed up to the protocol's depth
exactly when the certificate of its first proposal does not outrank its successors. -/
theorem delivered_in_order_iff (P : ChainedProtocol) (k : ℕ) (Next : Proposal → Proposal → Prop)
    (Fits : List Proposal → Prop) (pipelined : Pipelined P k Next Fits) (chain : List Proposal)
    (valid : ValidChain P Next chain) (free : CollisionFree P.crypto P.codec chain)
    (events : List ChainedEvent) (feeds : Feeds chain events) (r : ChainedReplica)
    (ran : Run.exec P.step {} events = some r) : Delivered chain k r ↔ Fits chain := by
  cases pipelined with
  | tdHotstuff cfg id calm =>
      rw [firstNotAbove_iff]
      exact (slotPipeline calm valid).run feeds ran
  | hs1 cfg calm =>
      rw [firstBelow_iff]
      exact (viewPipeline valid free Hs1.commitFrom_depth rfl rfl (fun m qc =>
        ⟨Hs1.addQC_localBlock _ _ _ _ m qc, Hs1.addQC_lockQC _ _ _ _ m qc⟩)).run feeds ran
  | hs2 cfg calm =>
      rw [firstBelow_iff]
      exact (viewPipeline valid free Hs2.commitFrom_depth rfl rfl (fun m qc =>
        ⟨ProposalManager.addQCByView_localBlock _ _ m qc,
          ProposalManager.addQCByView_lockQC _ _ m qc⟩)).run feeds ran
  | hs cfg calm =>
      rw [firstBelow_iff]
      exact (viewPipeline valid free (Hs.commitFrom_depth _) rfl rfl (fun m qc =>
        ⟨ProposalManager.addQCByView_localBlock _ _ m qc,
          ProposalManager.addQCByView_lockQC _ _ m qc⟩)).run feeds ran

/-! ### Sample chains -/

def chainOn (first : Proposal) : List Proposal :=
  let second := linkedProposal 2 first.hash (quorumQC first) 3
  let third := linkedProposal 3 second.hash (quorumQC second) 4
  [first, second, third, linkedProposal 4 third.hash (quorumQC third) 5]

/-- Every proposal is followed by the certificate of the votes for it. -/
def feedWithCertificates (chain : List Proposal) : List ChainedEvent :=
  chain.flatMap fun p => [.proposal p, .certificate (quorumQC p)]

theorem equalWeights_positive : ∀ w ∈ [1, 1, 1, 1], 0 < w := by decide

def tdSample : ChainedProtocol :=
  (TdHotstuff.protocol ⟨.sample, .sample, [1, 1, 1, 1], equalWeights_positive, 1, 0, 0⟩).managed 4

def hs1Sample : ChainedProtocol := Hs1.protocol ⟨4, .sample, .sample, 4, 1, 0, 0⟩
def hs2Sample : ChainedProtocol := Hs2.protocol ⟨.sample, .sample, 4, 1, 0⟩
def hsSample : ChainedProtocol := Hs.protocol ⟨.sample, .sample, 4, 1, 0⟩

theorem tdSample_pipelined : Pipelined tdSample 1 Later FirstNotAbove := .tdHotstuff _ 4 ⟨rfl, rfl⟩
theorem hs1Sample_pipelined : Pipelined hs1Sample 1 Consecutive FirstBelow := .hs1 _ ⟨rfl, rfl⟩
theorem hs2Sample_pipelined : Pipelined hs2Sample 2 Consecutive FirstBelow := .hs2 _ rfl
theorem hsSample_pipelined : Pipelined hsSample 3 Consecutive FirstBelow := .hs _ rfl

/-- The run of a protocol on a chain that starts without a certificate. -/
def SampleDelivered (P : ChainedProtocol) (k : ℕ) : Prop :=
  ∃ r, Run.exec P.step {} (feedWithCertificates (chainOn (rootBlock 1))) = some r ∧
    Delivered (chainOn (rootBlock 1)) k r

theorem delivered_in_order_sample : SampleDelivered tdSample 1 ∧ SampleDelivered hs1Sample 1 ∧
    SampleDelivered hs2Sample 2 ∧ SampleDelivered hsSample 3 := by
  have feeds : Feeds (chainOn (rootBlock 1)) (feedWithCertificates (chainOn (rootBlock 1))) :=
    ⟨by decide, by decide⟩
  have free : CollisionFree .sample .sample (chainOn (rootBlock 1)) := by decide
  have below : FirstBelow (chainOn (rootBlock 1)) := .inr (by decide)
  have notAbove : FirstNotAbove (chainOn (rootBlock 1)) := by
    intro first member
    cases member
    decide
  obtain ⟨td, tdRan⟩ := exec_total tdSample {} (feedWithCertificates (chainOn (rootBlock 1)))
  obtain ⟨one, oneRan⟩ := exec_total hs1Sample {} (feedWithCertificates (chainOn (rootBlock 1)))
  obtain ⟨two, twoRan⟩ := exec_total hs2Sample {} (feedWithCertificates (chainOn (rootBlock 1)))
  obtain ⟨hs, hsRan⟩ := exec_total hsSample {} (feedWithCertificates (chainOn (rootBlock 1)))
  exact ⟨⟨td, tdRan, (delivered_in_order_iff tdSample 1 Later FirstNotAbove tdSample_pipelined _
      (by decide) free _ feeds td tdRan).mpr notAbove⟩,
    ⟨one, oneRan, (delivered_in_order_iff hs1Sample 1 Consecutive FirstBelow hs1Sample_pipelined _
      (by decide) free _ feeds one oneRan).mpr below⟩,
    ⟨two, twoRan, (delivered_in_order_iff hs2Sample 2 Consecutive FirstBelow hs2Sample_pipelined _
      (by decide) free _ feeds two twoRan).mpr below⟩,
    ⟨hs, hsRan, (delivered_in_order_iff hsSample 3 Consecutive FirstBelow hsSample_pipelined _
      (by decide) free _ feeds hs hsRan).mpr below⟩⟩

/-- A first proposal with the empty prehash and the certificate of some later view. -/
def certifiedRoot : Proposal := linkedProposal 1 [] { view := 100, hash := [7] } 1

/-- The chain is valid, and the protocol refuses a part of it. -/
def SampleRefused (P : ChainedProtocol) (k : ℕ) (Next : Proposal → Proposal → Prop) : Prop :=
  ValidChain P Next (chainOn certifiedRoot) ∧
    CollisionFree P.crypto P.codec (chainOn certifiedRoot) ∧
    Feeds (chainOn certifiedRoot) ((chainOn certifiedRoot).map .proposal) ∧
    ∃ r, Run.exec P.step {} ((chainOn certifiedRoot).map .proposal) = some r ∧
      r.accepted.length < 4 ∧ ¬ Delivered (chainOn certifiedRoot) k r

/-- `Verify` takes a proposal of view 1 whatever it carries. Its certificate becomes the
lock, and the next certificates are older. -/
theorem certified_root_refuses_successors :
    SampleRefused tdSample 1 Later ∧ SampleRefused hs1Sample 1 Consecutive ∧
      SampleRefused hs2Sample 2 Consecutive ∧ SampleRefused hsSample 3 Consecutive := by
  have feeds : Feeds (chainOn certifiedRoot) ((chainOn certifiedRoot).map .proposal) :=
    ⟨by decide, by decide⟩
  have free : CollisionFree .sample .sample (chainOn certifiedRoot) := by decide
  have outcome : ∀ sample ∈ [(tdSample, 1), (hs1Sample, 1), (hs2Sample, 2), (hsSample, 3)],
      (Run.exec sample.1.step {} ((chainOn certifiedRoot).map .proposal)).any
        (fun r => r.accepted.length < 4 ∧ ¬ Delivered (chainOn certifiedRoot) sample.2 r) =
          true := by
    decide
  have refused : ∀ sample ∈ [(tdSample, 1), (hs1Sample, 1), (hs2Sample, 2), (hsSample, 3)],
      ∃ r, Run.exec sample.1.step {} ((chainOn certifiedRoot).map .proposal) = some r ∧
        r.accepted.length < 4 ∧ ¬ Delivered (chainOn certifiedRoot) sample.2 r := by
    intro sample member
    obtain ⟨r, ran, here⟩ := (Option.any_eq_true _ _).mp (outcome sample member)
    exact ⟨r, ran, of_decide_eq_true here⟩
  exact ⟨⟨by decide, free, feeds, refused (tdSample, 1) (by simp)⟩,
    ⟨by decide, free, feeds, refused (hs1Sample, 1) (by simp)⟩,
    ⟨by decide, free, feeds, refused (hs2Sample, 2) (by simp)⟩,
    ⟨by decide, free, feeds, refused (hsSample, 3) (by simp)⟩⟩

end ResDB.HotStuff
