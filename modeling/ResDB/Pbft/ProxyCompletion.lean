import ResDB.Library.Backing
import ResDB.Pbft.ResponseManager

/-! Which of its requests the PBFT proxy completes. The numbering is shared, so a proxy sees
the responses for some of the numbers only, and its ring of collectors moves on with those
alone: a number from `2 * C` on has a collector only once the number `C` before it is
completed. -/
namespace ResDB.Pbft
open Client (ResponseMsg)
open PartnerRing (Live)

namespace Deployment
variable (D : Deployment)

/-- The numbers for which `AddResponseMsg` reports a change, in order, and the ring after
all the responses. -/
def completions : (ℕ → Collector) → List ResponseMsg → List ℕ × (ℕ → Collector)
  | pool, [] => ([], pool)
  | pool, msg :: rest =>
      let (pool, code) := D.addResponseMsg pool msg
      let (numbers, last) := completions pool rest
      (if code = .stateChanged then msg.seq :: numbers else numbers, last)

/-- The responses for a number, which agree on a hash, from enough replicas. Responses for
earlier numbers may come between them. -/
structure Block (earlier : List ℕ) (seq : ℕ) (hash : Bytes) (msgs : List ResponseMsg) : Prop where
  numbers : ∀ msg ∈ msgs, msg.seq = seq ∧ msg.hash = hash ∨ msg.seq ∈ earlier
  enough : D.minClientReceiveNum ≤
    (Backing.backers ResponseMsg.senderId (fun msg => msg.seq = seq) msgs).card

inductive InOrder : List ℕ → List ResponseMsg → Prop where
  | nil : InOrder [] []
  | block {earlier : List ℕ} {made msgs : List ResponseMsg} {seq : ℕ} {hash : Bytes}
      (before : InOrder earlier made) (arrives : D.Block earlier seq hash msgs) :
      InOrder (earlier ++ [seq]) (made ++ msgs)

variable {D} {pool : ℕ → Collector} {msg : ResponseMsg} {msgs : List ResponseMsg}

theorem completions_append (pool : ℕ → Collector) (first second : List ResponseMsg) :
    D.completions pool (first ++ second) =
      ((D.completions pool first).1 ++ (D.completions (D.completions pool first).2 second).1,
        (D.completions (D.completions pool first).2 second).2) := by
  induction first generalizing pool with
  | nil => rfl
  | cons msg rest ih =>
      rw [List.cons_append, completions, completions]
      dsimp only
      rw [ih]
      split_ifs <;> rfl

theorem completions_closed (closed : ∀ msg ∈ msgs, D.Closed pool msg.seq) :
    D.completions pool msgs = ([], pool) := by
  induction msgs with
  | nil => rfl
  | cons msg rest ih =>
      obtain ⟨first, later⟩ := List.forall_mem_cons.mp closed
      rw [completions, addResponseMsg_closed first]
      dsimp only
      rw [ih later]
      rfl

/-- The number that the next responses are for. Its collector waits for them, and what
comes for the others is refused. -/
structure Waiting (D : Deployment) (pool : ℕ → Collector) (earlier : List ℕ) (seq : ℕ) : Prop where
  own : (pool (D.index seq)).seq = seq
  fresh : (pool (D.index seq)).status = .none
  uncommitted : (pool (D.index seq)).isCommitted = false
  below : ∀ other ∈ earlier, other < seq
  closed : ∀ other ∈ earlier, D.Closed pool other

theorem Closed.update_of_ne {other seq : ℕ} {c : Collector} (closed : D.Closed pool other)
    (differ : other ≠ seq) (own : c.seq = seq) :
    D.Closed (Function.update pool (D.index seq) c) other := by
  unfold Closed
  by_cases here : D.index other = D.index seq
  · left
    rw [here, Function.update_self, own]
    exact differ.symm
  · rw [Function.update_of_ne here]
    exact closed

theorem Closed.update {other seq : ℕ} (closed : D.Closed pool other) (le : other ≤ seq) :
    D.Closed (D.update pool seq) other := by
  have positive := PartnerRing.capacity_pos D.capacity_power
  unfold Closed Deployment.update
  split_ifs
  · exact closed
  · by_cases here : D.index other = D.index seq ^^^ D.capacity
    · left
      rw [here, Function.update_self]
      dsimp only
      omega
    · rw [Function.update_of_ne here]
      exact closed

theorem Waiting.count {earlier : List ℕ} {seq : ℕ} (waiting : Waiting D pool earlier seq)
    {c : Collector} (own : c.seq = seq) (fresh : c.status = .none)
    (uncommitted : c.isCommitted = false) :
    Waiting D (Function.update pool (D.index seq) c) earlier seq where
  own := by rw [Function.update_self, own]
  fresh := by rw [Function.update_self, fresh]
  uncommitted := by rw [Function.update_self, uncommitted]
  below := waiting.below
  closed := fun other member =>
    (waiting.closed other member).update_of_ne (waiting.below other member).ne own

theorem Waiting.closed_after {earlier : List ℕ} {seq other : ℕ}
    (waiting : Waiting D pool earlier seq) {c : Collector} (own : c.seq = seq)
    (executed : c.status = .executed) (late : other = seq ∨ other ∈ earlier) :
    D.Closed (D.update (Function.update pool (D.index seq) c) seq) other := by
  rcases late with rfl | late
  · refine Closed.update (.inr ?_) le_rfl
    rw [Function.update_self, executed]
  · have less := waiting.below other late
    exact ((waiting.closed other late).update_of_ne less.ne own).update less.le

theorem Waiting.complete {earlier : List ℕ} {seq : ℕ} {hash : Bytes}
    (waiting : Waiting D pool earlier seq)
    (numbers : ∀ msg ∈ msgs, msg.seq = seq ∧ msg.hash = hash ∨ msg.seq ∈ earlier)
    (placed : ∀ msg ∈ msgs, Collector.HasBit msg.senderId)
    (few : ((pool (D.index seq)).senders .response hash).card < D.minClientReceiveNum)
    (enough : D.minClientReceiveNum ≤ ((pool (D.index seq)).senders .response hash ∪
      Backing.backers ResponseMsg.senderId (fun msg => msg.seq = seq) msgs).card) :
    ∃ c : Collector, c.seq = seq ∧ c.status = .executed ∧
      D.completions pool msgs = ([seq], D.update (Function.update pool (D.index seq) c) seq) := by
  induction msgs generalizing pool with
  | nil =>
      rw [Backing.backers, List.filter_nil, List.map_nil, List.toFinset_nil,
        Finset.union_empty] at enough
      omega
  | cons msg rest ih =>
      obtain ⟨first, later⟩ := List.forall_mem_cons.mp numbers
      obtain ⟨placed, placedRest⟩ := List.forall_mem_cons.mp placed
      rw [Backing.backers_cons] at enough
      rcases first with ⟨rfl, rfl⟩ | late
      · rw [if_pos (decide_eq_true rfl), Finset.union_insert, ← Finset.insert_union] at enough
        rw [completions, addResponseMsg_open rfl waiting.own waiting.fresh waiting.uncommitted,
          Collector.setBit, if_pos placed]
        by_cases reached : D.minClientReceiveNum ≤
            (insert msg.senderId ((pool (D.index msg.seq)).senders .response msg.hash)).card
        · rw [if_pos reached]
          refine ⟨((pool (D.index msg.seq)).addSender (responseInfo msg)).finish, waiting.own,
            rfl, ?_⟩
          -- what is left of the block comes too late
          have tooLate := fun m member => waiting.closed_after
            (c := ((pool (D.index msg.seq)).addSender (responseInfo msg)).finish)
            waiting.own rfl ((later m member).imp_left And.left)
          dsimp only
          rw [completions_closed tooLate]
          rfl
        · rw [if_neg reached]
          have counted : ((Function.update pool (D.index msg.seq)
              ((pool (D.index msg.seq)).addSender (responseInfo msg)))
                (D.index msg.seq)).senders .response msg.hash =
              insert msg.senderId ((pool (D.index msg.seq)).senders .response msg.hash) := by
            rw [Function.update_self]
            simp [Collector.addSender, Collector.setBit, responseInfo, placed]
          obtain ⟨c, own, done, rest'⟩ := ih
            (waiting.count (c := (pool (D.index msg.seq)).addSender (responseInfo msg))
              waiting.own waiting.fresh waiting.uncommitted) later placedRest
            (by rw [counted]; omega) (by rw [counted]; exact enough)
          refine ⟨c, own, done, ?_⟩
          dsimp only
          rw [rest', Function.update_idem]
          rfl
      · have other : ¬ msg.seq = seq := (waiting.below _ late).ne
        rw [if_neg (by simpa using other)] at enough
        obtain ⟨c, own, done, rest'⟩ := ih waiting later placedRest few enough
        refine ⟨c, own, done, ?_⟩
        rw [completions, addResponseMsg_closed (waiting.closed _ late)]
        dsimp only
        rw [rest']
        rfl

/-- The ring after the numbers in `done`, of which those in `completed` were completed. -/
structure Served (D : Deployment) (done completed : List ℕ) (pool : ℕ → Collector) : Prop where
  live : ∀ seq, (∀ other ∈ done, other < seq) →
    (Live collectorKind D.capacity pool seq ↔
      seq < 2 * D.capacity ∨ ∃ other ∈ completed, seq = other + D.capacity)
  fresh : ∀ seq, (∀ other ∈ done, other < seq) → Live collectorKind D.capacity pool seq →
    pool (D.index seq) = { seq := seq }
  closed : ∀ other ∈ done, D.Closed pool other
  sub : completed.Sublist done
  chosen : ∀ seq ∈ done, seq ∈ completed ↔
    seq < 2 * D.capacity ∨ ∃ other ∈ completed, seq = other + D.capacity

theorem served_initial : Served D [] [] (fun i => { seq := i }) where
  live := by
    intro seq _
    have place := PartnerRing.index_eq_mod D.capacity_power seq
    have positive := PartnerRing.capacity_pos D.capacity_power
    change PartnerRing.index D.capacity seq = seq ↔ _
    rw [place]
    constructor
    · intro same
      have := Nat.mod_lt seq (show 0 < 2 * D.capacity by omega)
      exact .inl (by omega)
    · rintro (small | ⟨other, member, -⟩)
      · exact Nat.mod_eq_of_lt small
      · exact absurd member List.not_mem_nil
  fresh := by
    intro seq _ live
    have same : D.index seq = seq := live
    rw [same]
  closed := fun _ member => absurd member List.not_mem_nil
  sub := List.Sublist.slnil
  chosen := fun _ member => absurd member List.not_mem_nil

theorem live_put_iff {seq : ℕ} (live : Live collectorKind D.capacity pool seq) {c : Collector}
    (own : c.seq = seq) {later : ℕ} (lt : seq < later) :
    (Live collectorKind D.capacity (Function.update pool (D.index seq) c) later ↔
      Live collectorKind D.capacity pool later) ∧
    (Live collectorKind D.capacity pool later →
      Function.update pool (D.index seq) c (D.index later) = pool (D.index later)) := by
  by_cases here : D.index later = D.index seq
  · have taken : ¬ Live collectorKind D.capacity pool later := by
      intro same
      have number : (pool (D.index later)).seq = later := same
      rw [here] at number
      exact absurd ((show (pool (D.index seq)).seq = seq from live).symm.trans number) lt.ne
    have put : ¬ Live collectorKind D.capacity (Function.update pool (D.index seq) c) later := by
      intro same
      have number : (Function.update pool (D.index seq) c (D.index later)).seq = later := same
      rw [here, Function.update_self, own] at number
      exact lt.ne number
    exact ⟨iff_of_false put taken, fun same => absurd same taken⟩
  · have value := Function.update_of_ne here c pool
    refine ⟨?_, fun _ => value⟩
    change (Function.update pool (D.index seq) c (D.index later)).seq = later ↔ _
    rw [value]
    rfl

theorem live_put_self (D : Deployment) (pool : ℕ → Collector) {seq : ℕ} {c : Collector}
    (own : c.seq = seq) :
    Live collectorKind D.capacity (Function.update pool (D.index seq) c) seq := by
  change (Function.update pool (D.index seq) c (D.index seq)).seq = seq
  rw [Function.update_self, own]

section Step
variable {done completed : List ℕ} {seq : ℕ} (served : Served D done completed pool)
  (above : ∀ other ∈ done, other < seq)
include served above

theorem Served.skip (dead : ¬ Live collectorKind D.capacity pool seq) :
    Served D (done ++ [seq]) completed pool where
  live := fun other later => served.live other (fun t member =>
    later t (List.mem_append_left _ member))
  fresh := fun other later => served.fresh other (fun t member =>
    later t (List.mem_append_left _ member))
  closed := List.forall_mem_append.mpr ⟨served.closed, by
    rw [List.forall_mem_singleton]
    exact .inl dead⟩
  sub := served.sub.trans (List.sublist_append_left _ _)
  chosen := List.forall_mem_append.mpr ⟨served.chosen, by
    rw [List.forall_mem_singleton, ← served.live seq above]
    refine iff_of_false (fun member => ?_) dead
    exact absurd (above seq (served.sub.subset member)) (lt_irrefl _)⟩

section Complete
variable (live : Live collectorKind D.capacity pool seq) {c : Collector} (own : c.seq = seq)
include live own

theorem Served.complete_live {later : ℕ} (beyond : ∀ other ∈ done, other < later)
    (lt : seq < later) :
    Live collectorKind D.capacity (D.update (Function.update pool (D.index seq) c) seq) later ↔
      later < 2 * D.capacity ∨ ∃ other ∈ completed ++ [seq], later = other + D.capacity := by
  have power := D.capacity_power
  have live' := live_put_self D pool own
  simp only [List.mem_append, List.mem_singleton]
  rw [D.update_eq, PartnerRing.live_update_iff power]
  split_ifs with both
  · -- the cell half a turn ahead is the new one
    constructor
    · intro same
      exact .inr ⟨seq, .inr rfl, same⟩
    · rintro (small | ⟨other, old | rfl, same⟩)
      · exact PartnerRing.eq_of_index_eq power both.2 (by omega) (by omega)
      · have := above other (served.sub.subset old)
        exact PartnerRing.eq_of_index_eq power both.2 (by omega) (by omega)
      · exact same
  · rw [(live_put_iff live own lt).1, served.live later beyond]
    refine or_congr_right ⟨?_, ?_⟩
    · rintro ⟨other, member, same⟩
      exact ⟨other, .inl member, same⟩
    · rintro ⟨other, old | rfl, same⟩
      · exact ⟨other, old, same⟩
      · exact absurd ⟨live', by rw [same]⟩ both

omit above in
theorem Served.complete_fresh {later : ℕ} (beyond : ∀ other ∈ done, other < later)
    (lt : seq < later) (alive : Live collectorKind D.capacity
      (D.update (Function.update pool (D.index seq) c) seq) later) :
    D.update (Function.update pool (D.index seq) c) seq (D.index later) = { seq := later } := by
  have power := D.capacity_power
  have live' := live_put_self D pool own
  have kept : ¬ (Function.update pool (D.index seq) c (D.index seq)).seq ≠ seq := not_not.mpr live'
  rw [D.update_eq, PartnerRing.live_update_iff power] at alive
  rw [Deployment.update, if_neg kept, D.index_eq, PartnerRing.index_xor power]
  split_ifs at alive with both
  · rw [alive, Function.update_self]
  · have elsewhere : PartnerRing.index D.capacity later ≠
        PartnerRing.index D.capacity (seq + D.capacity) := fun place => both ⟨live', place⟩
    obtain ⟨same, value⟩ := live_put_iff live own lt
    have alive' := same.mp alive
    rw [Function.update_of_ne elsewhere]
    exact (value alive').trans (served.fresh later beyond alive')

omit own in
theorem Served.complete_chosen : ∀ other ∈ done ++ [seq], other ∈ completed ++ [seq] ↔
    other < 2 * D.capacity ∨ ∃ source ∈ completed ++ [seq], other = source + D.capacity := by
  have positive := PartnerRing.capacity_pos D.capacity_power
  rw [List.forall_mem_append, List.forall_mem_singleton]
  constructor
  · intro other member
    have lt := above other member
    simp only [List.mem_append, List.mem_singleton, lt.ne, or_false, served.chosen other member]
    refine or_congr_right ⟨?_, ?_⟩
    · rintro ⟨source, inside, same⟩
      exact ⟨source, .inl inside, same⟩
    · rintro ⟨source, inside | rfl, same⟩
      · exact ⟨source, inside, same⟩
      · omega
  · refine iff_of_true (List.mem_append_right _ (List.mem_singleton_self seq)) ?_
    refine ((served.live seq above).mp live).imp_right ?_
    rintro ⟨other, member, same⟩
    exact ⟨other, List.mem_append_left _ member, same⟩

theorem Served.complete (executed : c.status = .executed) :
    Served D (done ++ [seq]) (completed ++ [seq])
      (D.update (Function.update pool (D.index seq) c) seq) where
  live := by
    intro later all
    obtain ⟨beyond, last⟩ := List.forall_mem_append.mp all
    exact served.complete_live above live own beyond (last seq (List.mem_singleton_self seq))
  fresh := by
    intro later all
    obtain ⟨beyond, last⟩ := List.forall_mem_append.mp all
    exact served.complete_fresh live own beyond (last seq (List.mem_singleton_self seq))
  closed := by
    rw [List.forall_mem_append, List.forall_mem_singleton]
    constructor
    · intro other member
      have lt := above other member
      exact ((served.closed other member).update_of_ne lt.ne own).update lt.le
    · refine Closed.update (.inr ?_) le_rfl
      rw [Function.update_self, executed]
  sub := served.sub.append (List.Sublist.refl _)
  chosen := served.complete_chosen above live

end Complete

end Step

theorem InOrder.served {seqs : List ℕ} (arrive : D.InOrder seqs msgs)
    (increasing : seqs.Pairwise (· < ·))
    (placed : ∀ msg ∈ msgs, Collector.HasBit msg.senderId) :
    Served D seqs (D.completions (fun i => { seq := i }) msgs).1
      (D.completions (fun i => { seq := i }) msgs).2 := by
  induction arrive with
  | nil => exact served_initial
  | @block earlier made msgs seq hash before arrives ih =>
      obtain ⟨sorted, -, less⟩ := List.pairwise_append.mp increasing
      have above : ∀ other ∈ earlier, other < seq :=
        fun other member => less other member seq (List.mem_singleton_self seq)
      obtain ⟨placedBefore, placed⟩ := List.forall_mem_append.mp placed
      have served := ih sorted placedBefore
      rw [completions_append]
      generalize D.completions (fun i => { seq := i }) made = reached at served ⊢
      obtain ⟨completed, pool⟩ := reached
      dsimp only at served ⊢
      by_cases live : Live collectorKind D.capacity pool seq
      · have slot := served.fresh seq above live
        have waiting : Waiting D pool earlier seq :=
          ⟨live, by rw [slot], by rw [slot], above, served.closed⟩
        have empty : (pool (D.index seq)).senders .response hash = ∅ := by rw [slot]
        obtain ⟨c, own, executed, done⟩ := waiting.complete arrives.numbers placed
          (by rw [empty]; exact minClientReceiveNum_pos)
          (by rw [empty, Finset.empty_union]; exact arrives.enough)
        rw [done]
        exact served.complete above live own executed
      · have refused : ∀ msg ∈ msgs, D.Closed pool msg.seq := by
          intro msg member
          rcases arrives.numbers msg member with ⟨same, -⟩ | late
          · rw [same]
            exact .inl live
          · exact served.closed _ late
        rw [completions_closed refused, List.append_nil]
        exact served.skip above live

/-- When the responses come in the order of the numbers, from replicas that the bit set has
a place for, `AddResponseMsg` reports each number exactly once if and only if every number
from `2 * C` on has the number `C` before it among them. -/
theorem completes_every_number_iff (D : Deployment) (seqs : List ℕ)
    (increasing : seqs.Pairwise (· < ·)) (msgs : List ResponseMsg)
    (arrive : D.InOrder seqs msgs) (placed : ∀ msg ∈ msgs, Collector.HasBit msg.senderId) :
    (∀ seq ∈ seqs, (D.completions (fun i => { seq := i }) msgs).1.count seq = 1) ↔
      ∀ seq ∈ seqs, 2 * D.capacity ≤ seq → seq - D.capacity ∈ seqs := by
  have served := arrive.served increasing placed
  have positive := PartnerRing.capacity_pos D.capacity_power
  generalize (D.completions (fun i => { seq := i }) msgs).1 = completed at served ⊢
  have nodup : completed.Nodup :=
    (increasing.imp (fun less => less.ne)).sublist served.sub
  simp only [List.Nodup.count nodup, ite_eq_left_iff, Nat.zero_ne_one, imp_false, not_not]
  constructor
  · intro all seq member large
    rcases (served.chosen seq member).mp (all seq member) with small | ⟨other, inside, same⟩
    · omega
    · have back : seq - D.capacity = other := by omega
      exact back ▸ served.sub.subset inside
  · intro chained seq
    induction seq using Nat.strong_induction_on with
    | _ seq ih =>
        intro member
        refine (served.chosen seq member).mpr ?_
        by_cases small : seq < 2 * D.capacity
        · exact .inl small
        · have inside := chained seq member (by omega)
          exact .inr ⟨_, ih _ (by omega) inside, by omega⟩

def sampleResponses (seq : ℕ) : List ResponseMsg :=
  [1, 2].map (fun id => { seq := seq, senderId := id })

theorem sampleResponses_inOrder (seqs : List ℕ) :
    sampleProxy.InOrder seqs (seqs.flatMap sampleResponses) := by
  induction seqs using List.reverseRecOn with
  | nil => exact .nil
  | append_singleton earlier seq ih =>
      rw [List.flatMap_append, List.flatMap_singleton]
      refine .block ih (show sampleProxy.Block earlier seq [] (sampleResponses seq) from ⟨?_, ?_⟩)
      · intro msg member
        obtain ⟨id, -, rfl⟩ := List.mem_map.mp member
        exact .inl ⟨rfl, rfl⟩
      · simp only [sampleResponses, List.map_cons, List.map_nil, Backing.backers_cons,
          decide_true, if_true]
        change sampleProxy.minClientReceiveNum ≤ (insert 1 (insert 2 ∅) : Finset Int).card
        decide

theorem chained_numbers_completed :
    [1, 5, 9].Pairwise (· < ·) ∧
      (∀ msg ∈ [1, 5, 9].flatMap sampleResponses, Collector.HasBit msg.senderId) ∧
      ∀ seq ∈ [1, 5, 9], (sampleProxy.completions (fun i => { seq := i })
        ([1, 5, 9].flatMap sampleResponses)).1.count seq = 1 :=
  ⟨by decide, by decide, (completes_every_number_iff sampleProxy [1, 5, 9] (by decide) _
    (sampleResponses_inOrder _) (by decide)).mpr (by decide)⟩

/-- The proxy's second request has the number 9 of all. Its slot in the ring of eight is
still that of number 1, and every response for it is refused. -/
theorem sparse_number_never_completed :
    [1, 9].Pairwise (· < ·) ∧ sampleProxy.InOrder [1, 9] ([1, 9].flatMap sampleResponses) ∧
      (sampleProxy.completions (fun i => { seq := i }) ([1, 9].flatMap sampleResponses)).1 = [1] :=
  ⟨by decide, sampleResponses_inOrder _, by decide +kernel⟩

end Deployment
end ResDB.Pbft
