import Mathlib.Data.List.Chain
import Mathlib.Tactic
import ResDB.HotStuff.SlotSystem

/-! Runs in which every replica runs the code. At any time at most one replica may
propose: the one that holds the certificate of the newest proposal. All proposals
therefore form one chain. -/
namespace ResDB.HotStuff

/-- `q` extends `p` and carries a certificate that was formed for it. -/
structure Follows (formed : List QC) (p q : Proposal) : Prop where
  later : p.header.position < q.header.position
  prehash : q.header.prehash = p.hash
  certificate : ∃ qc ∈ formed, q.header.qcField = some qc ∧ qc.Certifies p

structure SingleChain (leader : Int → Int) (formed : List QC) (ps : List Proposal) : Prop where
  root : ∀ p ∈ ps.head?, p.header.prehash = [] ∧ p.header.qcField = none
  linked : ps.IsChain (Follows formed)
  leaders : ∀ p ∈ ps, p.sender = leader p.header.view

namespace SingleChain
variable {leader : Int → Int} {formed formed' : List QC} {ps earlier : List Proposal}
  {p q last : Proposal}

theorem ordered (chain : SingleChain leader formed ps) :
    ps.Pairwise (fun p q => p.header.position < q.header.position) := by
  rw [← List.pairwise_map (f := fun p : Proposal => p.header.position) (R := (· < ·)),
    ← List.isChain_iff_pairwise, List.isChain_map]
  exact chain.linked.imp (fun p q follows => follows.later)

theorem unique (chain : SingleChain leader formed ps) (hp : p ∈ ps) (hq : q ∈ ps)
    (same : p.header.position = q.header.position) : p = q := by
  have nodup : (ps.map (fun p => p.header.position)).Nodup :=
    List.pairwise_map.mpr (chain.ordered.imp ne_of_lt)
  exact List.inj_on_of_nodup_map nodup hp hq same

theorem lt_last (chain : SingleChain leader formed (earlier ++ [last])) (member : p ∈ earlier) :
    p.header.position < last.header.position :=
  (List.pairwise_append.mp chain.ordered).2.2 p member last (List.mem_singleton_self last)

theorem predecessor (chain : SingleChain leader formed (earlier ++ [last]))
    (member : p ∈ earlier ++ [last]) :
    p.header.qcField = none ∨ ∃ q ∈ earlier, Follows formed q p := by
  obtain ⟨before, after, split⟩ := List.append_of_mem member
  rcases List.eq_nil_or_concat before with rfl | ⟨front, q, rfl⟩
  · exact .inl (chain.root p (by rw [split]; rfl)).2
  · right
    rw [List.concat_eq_append, List.append_assoc, List.singleton_append] at split
    refine ⟨q, ?_, List.isChain_iff_forall_rel_of_append_cons_cons.mp chain.linked split⟩
    -- `q` is not the last element, since `p` comes after it.
    have shorter : earlier = front ++ q :: (p :: after).dropLast := by
      have cut := congrArg List.dropLast split
      rw [List.dropLast_concat, List.dropLast_append_of_ne_nil (List.cons_ne_nil _ _)] at cut
      exact cut
    rw [shorter]
    exact List.mem_append_right front (List.mem_cons_self ..)

theorem mono (chain : SingleChain leader formed ps) (more : formed ⊆ formed') :
    SingleChain leader formed' ps where
  root := chain.root
  linked := by
    refine chain.linked.imp (fun p q follows => ⟨follows.later, follows.prehash, ?_⟩)
    obtain ⟨qc, known, carried, certifies⟩ := follows.certificate
    exact ⟨qc, more known, carried, certifies⟩
  leaders := chain.leaders

theorem singleton (root : p.header.prehash = [] ∧ p.header.qcField = none)
    (elected : p.sender = leader p.header.view) : SingleChain leader formed [p] where
  root := by
    intro q first
    cases first
    exact root
  linked := List.isChain_singleton p
  leaders := by
    intro q member
    rw [List.mem_singleton.mp member]
    exact elected

theorem concat (chain : SingleChain leader formed (earlier ++ [last]))
    (follows : Follows formed last p) (elected : p.sender = leader p.header.view) :
    SingleChain leader formed (earlier ++ [last] ++ [p]) where
  root := by
    intro q first
    apply chain.root q
    cases earlier <;> exact first
  linked := by
    refine chain.linked.append (List.isChain_singleton p) ?_
    intro q newest r added
    rw [List.getLast?_concat] at newest
    cases newest
    cases added
    exact follows
  leaders := by
    intro q member
    rcases List.mem_append.mp member with old | new
    · exact chain.leaders q old
    · rw [List.mem_singleton.mp new]
      exact elected

end SingleChain

/-! ### Who may propose -/

structure Gist where
  generic : QC
  round : Int
  slot : Int
  ready : Bool
  floor : Position

def Replica.gist {P : SlotProtocol} (floor : P.Votes → Position) (r : Replica P) : Gist :=
  ⟨r.manager.genericQC, r.manager.round, r.slot, r.ready, floor r.votes⟩

def Behind (ps : List Proposal) (qc : QC) : Prop := qc = {} ∨ ∃ p ∈ ps, qc.Certifies p

/-- The collectors of all but the last proposal are done with them, and only the
sender of the last one may be inside its view. -/
structure Past (P : SlotProtocol) (earlier : List Proposal) (last : Proposal)
    (g : Int → Gist) : Prop where
  floors : ∀ p ∈ earlier, p.header.position ≤ (g (P.collector p)).floor
  slots : ∀ j, (g j).slot =
    if j = last.sender ∧ last.header.isFinal = false then last.header.slot + 1 else 0

/-- The phases a fault-free run goes through: before the first proposal, while the
last proposal collects votes, and while its collector holds the certificate. -/
inductive Phase (P : SlotProtocol) (formed : List QC) : List Proposal → (Int → Gist) → Prop where
  | genesis {g : Int → Gist}
      (fresh : ∀ j, (g j).generic = {} ∧ (g j).round = 1 ∧ (g j).slot = 0 ∧
        (g j).ready = P.isLeader j 1) : Phase P formed [] g
  | waiting {earlier : List Proposal} {last : Proposal} {g : Int → Gist}
      (past : Past P earlier last g)
      (idle : ∀ j, (g j).ready = false)
      (behind : ∀ j, Behind earlier (g j).generic)
      (round : (g last.sender).round = last.header.view) : Phase P formed (earlier ++ [last]) g
  | holding {earlier : List Proposal} {last : Proposal} {g : Int → Gist}
      (past : Past P earlier last g)
      (idle : ∀ j, j ≠ P.collector last → (g j).ready = false)
      (behind : ∀ j, j ≠ P.collector last → Behind earlier (g j).generic)
      (known : (g (P.collector last)).generic ∈ formed)
      (certifies : (g (P.collector last)).generic.Certifies last)
      (round : (g (P.collector last)).round =
        if last.header.isFinal then last.header.view + 1 else last.header.view)
      (closed : last.header.position ≤ (g (P.collector last)).floor) :
      Phase P formed (earlier ++ [last]) g

structure WellFormed (P : SlotProtocol) (p : Proposal) : Prop where
  hash : p.hash = getHash P.crypto P.codec p
  view : 1 ≤ p.header.view
  slot : 0 ≤ p.header.slot

theorem WellFormed.hash_ne {P : SlotProtocol} {p : Proposal} (wellFormed : WellFormed P p) :
    p.hash ≠ [] := by
  rw [wellFormed.hash]
  exact getHash_ne_nil P.crypto P.codec p

section Phases
variable {P : SlotProtocol} {formed formed' : List QC} {ps earlier : List Proposal}
  {g : Int → Gist} {p last : Proposal} {qc : QC} {id : Int}

theorem Behind.lt_last (behind : Behind earlier qc)
    (chain : SingleChain P.getLeader formed (earlier ++ [last])) (formedWell : WellFormed P last) :
    qc.position < last.header.position := by
  rcases behind with rfl | ⟨p, member, certifies⟩
  · rw [QC.position, Header.position, position_lt]
    exact .inl (Int.lt_of_lt_of_le Int.one_pos formedWell.view)
  · rw [certifies.position]
    exact chain.lt_last member

theorem Behind.of_header (chain : SingleChain P.getLeader formed (earlier ++ [last]))
    (member : p ∈ earlier ++ [last]) : Behind earlier p.header.qc := by
  rcases chain.predecessor member with root | ⟨q, before, follows⟩
  · left
    rw [Header.qc, root]
    rfl
  · obtain ⟨qc, -, carried, certifies⟩ := follows.certificate
    refine .inr ⟨q, before, ?_⟩
    rw [Header.qc, carried]
    exact certifies

theorem Behind.concat (behind : Behind earlier qc) (p : Proposal) : Behind (earlier ++ [p]) qc := by
  rcases behind with none | ⟨q, member, certifies⟩
  · exact .inl none
  · exact .inr ⟨q, List.mem_append_left [p] member, certifies⟩

theorem Behind.adopt {m : ProposalManager} (generic : Behind earlier m.genericQC)
    (header : Behind earlier qc) : Behind earlier (m.adoptQC qc).genericQC := by
  rcases le_or_gt m.genericQC.position qc.position with newer | older
  · rw [ProposalManager.adoptQC_of_le newer]
    exact header
  · rw [ProposalManager.adoptQC_of_lt older]
    exact generic

theorem Past.slot_of_ne (past : Past P earlier last g) {j : Int}
    (other : j ≠ P.collector last) : (g j).slot = 0 := by
  rw [past.slots, if_neg]
  rintro ⟨sender, notFinal⟩
  apply other
  rw [sender, SlotProtocol.collector, notFinal]
  rfl

theorem Past.update {changed : Gist} (past : Past P earlier last g)
    (slot : changed.slot = (g id).slot) (floor : (g id).floor ≤ changed.floor) :
    Past P earlier last (Function.update g id changed) where
  floors p member := by
    rw [Function.update_apply]
    split_ifs with here
    · exact (here ▸ past.floors p member).trans floor
    · exact past.floors p member
  slots j := by
    by_cases here : j = id
    · rw [here, Function.update_self, slot]
      exact past.slots id
    · rw [Function.update_of_ne here]
      exact past.slots j

theorem Phase.mono (phase : Phase P formed ps g) (more : formed ⊆ formed') :
    Phase P formed' ps g := by
  cases phase with
  | genesis fresh => exact .genesis fresh
  | waiting past idle behind round => exact .waiting past idle behind round
  | holding past idle behind known certifies round closed =>
      exact .holding past idle behind (more known) certifies round closed

theorem Phase.adopt (phase : Phase P formed ps g) (chain : SingleChain P.getLeader formed ps)
    (wellFormed : ∀ p ∈ ps, WellFormed P p) (member : p ∈ ps) {m : ProposalManager}
    (same : m.genericQC = (g id).generic) :
    Phase P formed ps
      (Function.update g id { g id with generic := (m.adoptQC p.header.qc).genericQC }) := by
  cases phase with
  | genesis fresh => exact absurd member List.not_mem_nil
  | @waiting earlier last _ past idle behind round =>
      have adopted := Behind.adopt (same ▸ behind id) (.of_header chain member)
      refine .waiting (past.update rfl le_rfl) ?_ ?_ ?_
      · exact (Function.forall_update_iff g (fun _ x => x.ready = false)).mpr
          ⟨idle id, fun j _ => idle j⟩
      · exact (Function.forall_update_iff g (fun _ x => Behind earlier x.generic)).mpr
          ⟨adopted, fun j _ => behind j⟩
      · by_cases here : last.sender = id
        · rw [here, Function.update_self]
          exact here ▸ round
        · rw [Function.update_of_ne here]
          exact round
  | @holding earlier last _ past idle behind known certifies round closed =>
      have old := (Behind.of_header chain member).lt_last chain (wellFormed last (by simp))
      by_cases holder : id = P.collector last
      · rw [ProposalManager.adoptQC_of_lt (by rw [same, holder, certifies.position]; exact old),
          same, Function.update_eq_self]
        exact .holding past idle behind known certifies round closed
      · have adopted := Behind.adopt (same ▸ behind id holder) (.of_header chain member)
        have kept := Function.update_of_ne (Ne.symm holder)
          { g id with generic := (m.adoptQC p.header.qc).genericQC } g
        refine .holding (past.update rfl le_rfl) ?_ ?_ ?_ ?_ ?_ ?_
        · exact (Function.forall_update_iff g
            (fun j x => j ≠ P.collector last → x.ready = false)).mpr
              ⟨idle id, fun j _ => idle j⟩
        · exact (Function.forall_update_iff g
            (fun j x => j ≠ P.collector last → Behind earlier x.generic)).mpr
              ⟨fun _ => adopted, fun j _ => behind j⟩
        all_goals rw [kept]
        · exact known
        · exact certifies
        · exact round
        · exact closed

structure Proposed (P : SlotProtocol) (id : Int) (own : Gist) (isFinal : Bool) (p : Proposal) :
    Prop where
  hash : p.hash = getHash P.crypto P.codec p
  sender : p.sender = id
  view : p.header.view = own.round
  slot : p.header.slot = own.slot
  isFinal : p.header.isFinal = isFinal
  root : own.generic.hash = [] → p.header.prehash = [] ∧ p.header.qcField = none
  link : own.generic.hash ≠ [] →
    p.header.prehash = own.generic.hash ∧ p.header.qcField = some own.generic

def Gist.sent (own : Gist) (isFinal : Bool) : Gist :=
  { own with ready := false, slot := if isFinal then 0 else own.slot + 1 }

section Proposals
variable {isFinal : Bool}

theorem Proposed.slots (made : Proposed P id (g id) isFinal p)
    (zero : ∀ j, j ≠ id → (g j).slot = 0) (j : Int) :
    (Function.update g id ((g id).sent isFinal) j).slot =
      if j = p.sender ∧ p.header.isFinal = false then p.header.slot + 1 else 0 := by
  rw [made.sender, made.isFinal, made.slot]
  by_cases here : j = id
  · subst here
    rw [Function.update_self, Gist.sent]
    cases isFinal <;> simp
  · rw [Function.update_of_ne here, zero j here, if_neg (fun both => here both.1)]

theorem Proposed.round (made : Proposed P id (g id) isFinal p) :
    (Function.update g id ((g id).sent isFinal) p.sender).round = p.header.view := by
  rw [made.sender, Function.update_self, made.view]
  rfl

theorem Proposed.elected (made : Proposed P id (g id) isFinal p)
    (leads : P.getLeader (g id).round = id) : p.sender = P.getLeader p.header.view := by
  rw [made.sender, made.view, leads]

theorem Proposed.lt (made : Proposed P (P.collector last) (g (P.collector last)) isFinal p)
    (past : Past P earlier last g)
    (round : (g (P.collector last)).round =
      if last.header.isFinal then last.header.view + 1 else last.header.view) :
    last.header.position < p.header.position := by
  rw [Header.position, Header.position, position_lt, made.view, made.slot, round]
  cases final : last.header.isFinal with
  | true => exact .inl (Int.lt_succ _)
  | false =>
      refine .inr ⟨rfl, ?_⟩
      rw [past.slots, if_pos ⟨by simp [SlotProtocol.collector, final], final⟩]
      exact Int.lt_succ _

theorem Past.floors_concat (past : Past P earlier last g)
    (closed : last.header.position ≤ (g (P.collector last)).floor) :
    ∀ q ∈ earlier ++ [last], q.header.position ≤
      (Function.update g id ((g id).sent isFinal) (P.collector q)).floor := by
  intro q member
  have done : q.header.position ≤ (g (P.collector q)).floor := by
    rcases List.mem_append.mp member with old | new
    · exact past.floors q old
    · rw [List.mem_singleton.mp new]
      exact closed
  rw [Function.update_apply]
  split_ifs with here
  · exact here ▸ done
  · exact done

theorem Phase.propose (phase : Phase P formed ps g)
    (chain : SingleChain P.getLeader formed ps) (wellFormed : ∀ p ∈ ps, WellFormed P p)
    (ready : (g id).ready = true) (leads : P.getLeader (g id).round = id)
    (made : Proposed P id (g id) isFinal p) :
    SingleChain P.getLeader formed (ps ++ [p]) ∧ WellFormed P p ∧
      Phase P formed (ps ++ [p]) (Function.update g id ((g id).sent isFinal)) := by
  have elected := made.elected leads
  cases phase with
  | genesis fresh =>
      obtain ⟨none, one, zero, -⟩ := fresh id
      refine ⟨.singleton (made.root (by rw [none])) elected,
        ⟨made.hash, by rw [made.view, one], by rw [made.slot, zero]⟩,
        @Phase.waiting P formed [] p _ ⟨by simp, ?_⟩ ?_ ?_ made.round⟩
      · exact made.slots (fun j _ => (fresh j).2.2.1)
      · refine (Function.forall_update_iff g (fun _ x => x.ready = false)).mpr ⟨rfl, ?_⟩
        intro j other
        rw [(fresh j).2.2.2, SlotProtocol.isLeader, ← one, leads]
        exact decide_eq_false (Ne.symm other)
      · exact (Function.forall_update_iff g (fun _ x => Behind [] x.generic)).mpr
          ⟨.inl none, fun j _ => .inl (fresh j).1⟩
  | waiting past idle behind round =>
      rw [idle id] at ready
      cases ready
  | @holding earlier last _ past idle behind known certifies round closed =>
      have holder : id = P.collector last := by
        by_contra other
        rw [idle id other] at ready
        cases ready
      subst holder
      have formedWell := wellFormed last (by simp)
      have follows : Follows formed last p := by
        obtain ⟨prehash, carried⟩ := made.link (certifies.hash ▸ formedWell.hash_ne)
        exact ⟨made.lt past round, prehash.trans certifies.hash, _, known, carried, certifies⟩
      refine ⟨chain.concat follows elected, ⟨made.hash, ?_, ?_⟩,
        .waiting ⟨past.floors_concat closed, made.slots (fun j => past.slot_of_ne)⟩ ?_ ?_
          made.round⟩
      · have bound := formedWell.view
        rw [made.view, round]
        split_ifs <;> omega
      · have bound := formedWell.slot
        rw [made.slot, past.slots]
        split_ifs <;> omega
      · exact (Function.forall_update_iff g (fun _ x => x.ready = false)).mpr ⟨rfl, idle⟩
      · exact (Function.forall_update_iff g (fun _ x => Behind (earlier ++ [last]) x.generic)).mpr
          ⟨.inr ⟨last, by simp, certifies⟩, fun j other => (behind j other).concat last⟩

end Proposals

theorem Phase.form (phase : Phase P formed ps g) (chain : SingleChain P.getLeader formed ps)
    (wellFormed : ∀ p ∈ ps, WellFormed P p) (member : p ∈ ps)
    (fresh : ¬ p.header.position ≤ (g (P.collector p)).floor) (certifies : qc.Certifies p)
    (known : qc ∈ formed) :
    (g (P.collector p)).generic.position < qc.position ∧
      Phase P formed ps (Function.update g (P.collector p)
        { generic := qc
          round := if qc.isFinal then qc.view + 1 else (g (P.collector p)).round
          slot := (g (P.collector p)).slot
          ready := true
          floor := p.header.position }) := by
  cases phase with
  | genesis => exact absurd member List.not_mem_nil
  | @waiting earlier last _ past idle behind round =>
      rcases List.mem_append.mp member with old | new
      · exact absurd (past.floors p old) fresh
      · obtain rfl := List.mem_singleton.mp new
        refine ⟨?_, .holding (past.update rfl (le_of_not_ge fresh)) ?_ ?_ ?_ ?_ ?_ ?_⟩
        · rw [certifies.position]
          exact (behind _).lt_last chain (wellFormed p member)
        · exact (Function.forall_update_iff g
            (fun j x => j ≠ P.collector p → x.ready = false)).mpr
              ⟨fun own => absurd rfl own, fun j _ _ => idle j⟩
        · exact (Function.forall_update_iff g
            (fun j x => j ≠ P.collector p → Behind earlier x.generic)).mpr
              ⟨fun own => absurd rfl own, fun j _ _ => behind j⟩
        all_goals rw [Function.update_self]
        · exact known
        · exact certifies
        · rw [certifies.isFinal, certifies.view]
          cases final : p.header.isFinal with
          | true => rfl
          | false =>
              rw [SlotProtocol.collector, final]
              exact round
  | @holding earlier last _ past idle behind _ _ round closed =>
      rcases List.mem_append.mp member with old | new
      · exact absurd (past.floors p old) fresh
      · rw [List.mem_singleton.mp new] at fresh
        exact absurd closed fresh

end Phases

/-! ### The invariant -/

structure Certificate.Copies (cert : Certificate) (p : Proposal) : Prop where
  hash : cert.hash = p.hash
  view : cert.view = p.header.view
  slot : cert.slot = p.header.slot
  isFinal : cert.isFinal = p.header.isFinal

theorem Certificate.Copies.position {cert : Certificate} {p : Proposal} (copies : cert.Copies p) :
    cert.position = p.header.position := by
  rw [Certificate.position, Header.position, copies.view, copies.slot]

structure FaultFree (P : SlotProtocol) (floor : P.Votes → Position) (s : System P) : Prop where
  chain : SingleChain P.getLeader s.formed s.broadcasts
  wellFormed : ∀ p ∈ s.broadcasts, WellFormed P p
  proposals : ∀ id p, ⟨id, .newProposal p⟩ ∈ s.network → p ∈ s.broadcasts
  votes : ∀ id cert, ⟨id, .vote cert⟩ ∈ s.network →
    ∃ p ∈ s.broadcasts, cert.Copies p ∧ id = P.collector p
  voted : ∀ vote ∈ s.voted, vote.2 ∈ s.broadcasts
  phase : Phase P s.formed s.broadcasts (fun j => (s.replica j).gist floor)

section Steps
variable {P : SlotProtocol} {floor : P.Votes → Position} {s : System P} {id : Int}

theorem System.gist_set (s : System P) (id : Int) (r : Replica P) :
    (fun j => ((s.set id r).replica j).gist floor) =
      Function.update (fun j => (s.replica j).gist floor) id (r.gist floor) := by
  funext j
  by_cases here : j = id
  · rw [here, set_replica_self, Function.update_self]
  · rw [set_replica_ne s r here, Function.update_of_ne here]

theorem generateProposal_proposed (r : Replica P) (txns : List Transaction) (isFinal : Bool)
    (now : ℕ) : Proposed P id (r.gist floor) isFinal
      (P.generateProposal id r.manager txns r.slot isFinal now) where
  hash := rfl
  sender := rfl
  view := rfl
  slot := rfl
  isFinal := rfl
  root := generateWith_root P.crypto P.codec id r.manager.round r.manager.genericQC txns r.slot
    isFinal now
  link := generateWith_link P.crypto P.codec id r.manager.round r.manager.genericQC txns r.slot
    isFinal now

theorem initial_faultFree : FaultFree P floor P.initial where
  chain := ⟨by simp [SlotProtocol.initial], .nil, by simp [SlotProtocol.initial]⟩
  wellFormed := by simp [SlotProtocol.initial]
  proposals := by simp [SlotProtocol.initial]
  votes := by simp [SlotProtocol.initial]
  voted := by simp [SlotProtocol.initial]
  phase := .genesis (fun _ => ⟨rfl, rfl, rfl, rfl⟩)

theorem accepting_gist (r : Replica P) (p : Proposal) : (P.accepting r p).gist floor =
    { r.gist floor with generic := (r.manager.adoptQC p.header.qc).genericQC } := by
  obtain ⟨generic, -, round, -⟩ := r.manager.addProposal_manager p
  simp only [Replica.gist, SlotProtocol.accepting, generic, round]

theorem FaultFree.keep (inv : FaultFree P floor s) {r : Replica P}
    (same : r.gist floor = (s.replica id).gist floor) : FaultFree P floor (s.set id r) where
  chain := inv.chain
  wellFormed := inv.wellFormed
  proposals := inv.proposals
  votes := inv.votes
  voted := inv.voted
  phase := by
    rw [System.gist_set, same, Function.update_eq_self]
    exact inv.phase

theorem FaultFree.send (calm : P.NoAttack) (inv : FaultFree P floor s) (known : 1 ≤ id)
    {isFinal : Bool} {now : ℕ} {r : Replica P} {made : List Proposal} {sent : List Envelope}
    (iteration : P.asyncSend id (s.replica id) isFinal now = some (r, made, sent)) :
    FaultFree P floor
      { s.set id r with network := s.network ++ sent, broadcasts := s.broadcasts ++ made } := by
  obtain ⟨ready, txn, rest, rfl, rfl, rfl⟩ := SlotProtocol.asyncSend_some calm known iteration
  rw [SlotProtocol.Ready, Bool.and_eq_true, SlotProtocol.isLeader, decide_eq_true_iff] at ready
  obtain ⟨chain, wellFormed, phase⟩ := inv.phase.propose inv.chain inv.wellFormed ready.2 ready.1
    (generateProposal_proposed (s.replica id) [txn] isFinal now)
  refine ⟨chain, ?_, ?_, ?_, ?_, ?_⟩
  · intro p member
    rcases List.mem_append.mp member with old | new
    · exact inv.wellFormed p old
    · rw [List.mem_singleton.mp new]
      exact wellFormed
  · intro j p member
    rcases List.mem_append.mp member with old | new
    · exact List.mem_append_left _ (inv.proposals j p old)
    · cases SlotProtocol.mem_broadcast new
      exact List.mem_append_right _ (List.mem_singleton_self _)
  · intro j cert member
    rcases List.mem_append.mp member with old | new
    · obtain ⟨p, listed, facts⟩ := inv.votes j cert old
      exact ⟨p, List.mem_append_left _ listed, facts⟩
    · cases SlotProtocol.mem_broadcast new
  · intro vote member
    exact List.mem_append_left _ (inv.voted vote member)
  · rw [System.gist_set]
    exact phase

theorem FaultFree.accept (inv : FaultFree P floor s) {p : Proposal}
    (member : ⟨id, .newProposal p⟩ ∈ s.network) :
    FaultFree P floor { s.set id (P.accepting (s.replica id) p) with
      network := s.network ++ [⟨P.collector p, .vote (P.generateCertificate id p)⟩]
      voted := s.voted ++ [(id, p)] } := by
  have listed := inv.proposals id p member
  refine ⟨inv.chain, inv.wellFormed, ?_, ?_, ?_, ?_⟩
  · intro j q sent
    rcases List.mem_append.mp sent with old | new
    · exact inv.proposals j q old
    · cases List.mem_singleton.mp new
  · intro j cert sent
    rcases List.mem_append.mp sent with old | new
    · exact inv.votes j cert old
    · cases List.mem_singleton.mp new
      exact ⟨p, listed, ⟨rfl, rfl, rfl, rfl⟩, rfl⟩
  · intro vote cast
    rcases List.mem_append.mp cast with old | new
    · exact inv.voted vote old
    · rw [List.mem_singleton.mp new]
      exact listed
  · rw [System.gist_set, accepting_gist]
    exact inv.phase.adopt inv.chain inv.wellFormed listed rfl

theorem FaultFree.form (calm : P.NoAttack) (law : P.Lawful floor) (inv : FaultFree P floor s)
    {cert : Certificate} {votes : P.Votes} {qc : QC} (member : ⟨id, .vote cert⟩ ∈ s.network)
    (closed : P.countVote (s.replica id).votes cert = (votes, some qc)) :
    FaultFree P floor { s.set id { s.replica id with
        votes := votes
        manager := P.addQC id (s.replica id).manager qc
        ready := true } with
      formed := s.formed ++ [qc] } := by
  obtain ⟨p, listed, copies, rfl⟩ := inv.votes id cert member
  have wellFormed := inv.wellFormed p listed
  have view : 0 ≤ cert.view := by
    rw [copies.view]
    exact Int.le_trans (by decide) wellFormed.view
  have slot : 0 ≤ cert.slot := by
    rw [copies.slot]
    exact wellFormed.slot
  have fresh : ¬ p.header.position ≤ floor (s.replica (P.collector p)).votes := by
    intro below
    rw [law.stale _ cert view slot (by rw [copies.position]; exact below)] at closed
    cases closed
  obtain ⟨raised, hash, sameView, sameSlot, final⟩ := law.forming _ _ _ _ view slot closed
  have certifies : qc.Certifies p :=
    ⟨hash.trans copies.hash, sameView.trans copies.view, sameSlot.trans copies.slot,
      final.trans copies.isFinal⟩
  have more : s.formed ⊆ s.formed ++ [qc] := List.subset_append_left _ _
  obtain ⟨newer, phase⟩ := (inv.phase.mono more).form (inv.chain.mono more) inv.wellFormed listed
    fresh certifies (List.mem_append_right _ (List.mem_singleton_self qc))
  refine ⟨inv.chain.mono more, inv.wellFormed, inv.proposals, inv.votes, inv.voted, ?_⟩
  rw [System.gist_set]
  have adopted := SlotProtocol.addQC_of_newer calm (P.collector p) (.inr newer)
  simp only [Replica.gist, adopted, raised, copies.position]
  exact phase

theorem FaultFree.step (calm : P.NoAttack) (law : P.Lawful floor) {s' : System P} {a : Action}
    (inv : FaultFree P floor s) (taken : s.step ∅ a = some s') : FaultFree P floor s' := by
  cases System.step_effect taken with
  | transaction honest => exact inv.keep rfl
  | send honest iteration => exact inv.send calm honest.1 iteration
  | refused refuse => exact inv
  | accepted honest member accept => exact inv.accept member
  | counted honest member waiting =>
      apply inv.keep
      simp only [Replica.gist, law.counting _ _ _ waiting]
  | formed honest member closed => exact inv.form calm law member closed
  | inject faulty unforged => exact absurd faulty Finset.not_nonempty_empty

theorem run_faultFree (calm : P.NoAttack) (law : P.Lawful floor) {acts : List Action}
    (ran : Run.exec (System.step ∅) P.initial acts = some s) : FaultFree P floor s :=
  Run.exec_invariant_always (fun _ _ _ inv taken => inv.step calm law taken)
    initial_faultFree ran

end Steps
end ResDB.HotStuff
