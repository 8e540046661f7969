import ResDB.Library.Run
import ResDB.Pbft.ResponseManager

/-! What becomes of the requests that the PBFT proxy takes from its queue. A round of the
loop either keeps them for a later round or makes a batch of them, and a batch is sent with
its contexts stored exactly if the ring slot of its local id is its own and it gets signed.
No client is ever told of a failure. -/
namespace ResDB.Pbft
open Client (ResponseCodec)

/-- The batch was sent with the contexts of its clients stored under its local id, or each
of them was told of an error. -/
def BatchOutcome.Settled (o : BatchOutcome) : Prop :=
  (∃ batch, o.sent = some batch ∧
    batch.userRequests.map Prod.fst = o.items.map QueueItem.userRequest ∧
    o.stored = o.items.map QueueItem.context) ∨
  ∀ item ∈ o.items, ∃ client, item.context.bind Context.client = some client ∧ client ∈ o.errors

namespace ResponseManager
variable (D : Deployment) (clientBatchNum : ℕ) (m : ResponseManager)

/-- Every request that was taken from the queue went into a batch or is still in hand. -/
def Whole : Prop := m.taken = m.outcomes.flatMap BatchOutcome.items ++ m.batchReq

/-- Nothing that was taken is lost: it is in hand, or in a batch that is settled. -/
def Accounted : Prop := m.Whole ∧ ∀ o ∈ m.outcomes, o.Settled

def Proposes : Prop :=
  ¬ D.maxProcessTxn < (m.sendNum % 2 ^ 32).toNat ∧
    ¬ (m.batchReq.length < (m.take clientBatchNum).batchReq.length ∧
      (m.take clientBatchNum).batchReq.length < clientBatchNum) ∧
    (m.take clientBatchNum).batchReq ≠ []

/-- The slot of the next local id in the context ring is its own. -/
def HasSlot : Prop := (m.contextPool (D.index m.localId)).seq = m.localId

/-- A round that makes a batch finds the slot and gets the batch signed. -/
def Keeps : ProxyEvent → Prop
  | .batchProposeMsg signs => m.Proposes D clientBatchNum → m.HasSlot D ∧ signs = true
  | _ => True

variable {D clientBatchNum m}

theorem take_frame (clientBatchNum : ℕ) (m : ResponseManager) :
    (m.take clientBatchNum).contextPool = m.contextPool ∧
      (m.take clientBatchNum).localId = m.localId ∧
      (m.take clientBatchNum).outcomes = m.outcomes := by
  unfold take
  split
  · exact ⟨rfl, rfl, rfl⟩
  · split_ifs <;> exact ⟨rfl, rfl, rfl⟩

theorem take_whole (whole : m.Whole) : (m.take clientBatchNum).Whole := by
  unfold take
  split
  · exact whole
  · split_ifs
    · rw [Whole, whole, List.append_assoc]
    · exact whole

structure Proposed (D : Deployment) (m : ResponseManager) (signs : Bool) (o : BatchOutcome)
    (m' : ResponseManager) : Prop where
  outcomes : m'.outcomes = m.outcomes ++ [o]
  items : o.items = m.batchReq
  batchReq : m'.batchReq = []
  taken : m'.taken = m.taken
  errors : o.errors = []
  settled : m.HasSlot D → signs = true → o.Settled
  unsent : ¬ (m.HasSlot D ∧ signs = true) → o.sent = none

theorem propose_proposed (D : Deployment) (m : ResponseManager) (signs : Bool) :
    ∃ o, Proposed D m signs o (m.propose D signs) := by
  unfold propose doBatch
  by_cases slot : m.HasSlot D
  · have own : ¬ (m.contextPool (D.index m.localId)).seq ≠ m.localId := not_not.mpr slot
    cases signs with
    | false =>
        simp only [if_neg own, if_true]
        exact ⟨_, rfl, rfl, rfl, rfl, rfl, fun _ signed => absurd signed (by decide), fun _ => rfl⟩
    | true =>
        simp only [if_neg own, reduceCtorEq, if_false]
        refine ⟨_, rfl, rfl, rfl, rfl, rfl, fun _ _ => .inl ⟨_, rfl, ?_, ?_⟩,
          fun lost => absurd ⟨slot, rfl⟩ lost⟩
        · rw [List.map_map]
          rfl
        · rw [Function.update_self]
  · have other : (m.contextPool (D.index m.localId)).seq ≠ m.localId := slot
    simp only [if_pos other]
    exact ⟨_, rfl, rfl, rfl, rfl, rfl, fun own => absurd own slot, fun _ => rfl⟩

theorem Proposed.whole {signs : Bool} {o : BatchOutcome} {m' : ResponseManager}
    (proposed : Proposed D m signs o m') (whole : m.Whole) : m'.Whole := by
  rw [Whole, proposed.taken, proposed.outcomes, proposed.batchReq, List.append_nil,
    List.flatMap_append, whole, List.flatMap_singleton, proposed.items]

theorem not_settled {o : BatchOutcome} (unsent : o.sent = none) (untold : o.errors = [])
    (some : o.items ≠ []) : ¬ o.Settled := by
  rintro (⟨batch, sent, -⟩ | told)
  · rw [unsent] at sent
    cases sent
  · obtain ⟨item, member⟩ := List.exists_mem_of_ne_nil _ some
    obtain ⟨client, -, listed⟩ := told item member
    rw [untold] at listed
    exact absurd listed List.not_mem_nil

theorem Proposed.settled_iff {signs : Bool} {o : BatchOutcome} {m' : ResponseManager}
    (proposed : Proposed D m signs o m') (some : m.batchReq ≠ []) :
    o.Settled ↔ m.HasSlot D ∧ signs = true := by
  refine ⟨fun settled => ?_, fun kept => proposed.settled kept.1 kept.2⟩
  by_contra lost
  exact not_settled (proposed.unsent lost) proposed.errors (proposed.items ▸ some) settled

theorem batchProposeMsg_cases (D : Deployment) (clientBatchNum : ℕ) (m : ResponseManager)
    (signs : Bool) :
    (¬ m.Proposes D clientBatchNum ∧
      (m.batchProposeMsg D clientBatchNum signs = m ∨
        m.batchProposeMsg D clientBatchNum signs = m.take clientBatchNum)) ∨
    (m.Proposes D clientBatchNum ∧
      m.batchProposeMsg D clientBatchNum signs = (m.take clientBatchNum).propose D signs) := by
  unfold batchProposeMsg Proposes
  dsimp only
  split_ifs with waits short empty
  · exact .inl ⟨fun proposes => proposes.1 waits, .inl rfl⟩
  · exact .inl ⟨fun proposes => proposes.2.1 short, .inr rfl⟩
  · exact .inl ⟨fun proposes => proposes.2.2 (List.isEmpty_iff.mp empty), .inr rfl⟩
  · exact .inr ⟨⟨waits, short, fun nil => empty (List.isEmpty_iff.mpr nil)⟩, rfl⟩

structure SameBatches (m m' : ResponseManager) : Prop where
  taken : m'.taken = m.taken
  outcomes : m'.outcomes = m.outcomes
  batchReq : m'.batchReq = m.batchReq

theorem SameBatches.accounted_iff {m' : ResponseManager} (same : SameBatches m m') :
    m'.Accounted ↔ m.Accounted := by
  rw [Accounted, Accounted, Whole, Whole, same.taken, same.outcomes, same.batchReq]

theorem sendResponseToClient_sameBatches (D : Deployment) (m : ResponseManager)
    (batchResponse : Client.BatchUserResponse) :
    SameBatches m (m.sendResponseToClient D batchResponse) := by
  unfold sendResponseToClient fetchContextList
  dsimp only
  split_ifs <;> exact ⟨rfl, rfl, rfl⟩

theorem processResponseMsg_sameBatches (D : Deployment) (codec : ResponseCodec)
    (m : ResponseManager) (msg : Client.ResponseMsg) :
    SameBatches m (m.processResponseMsg D codec msg).2 := by
  unfold processResponseMsg
  split_ifs
  · exact ⟨rfl, rfl, rfl⟩
  · split
    · split
      · exact { sendResponseToClient_sameBatches D _ _ with }
      · exact ⟨rfl, rfl, rfl⟩
    · exact ⟨rfl, rfl, rfl⟩

theorem batchProposeMsg_accounted_iff (whole : m.Whole) (accounted : m.Accounted)
    (signs : Bool) :
    (m.batchProposeMsg D clientBatchNum signs).Accounted ↔
      m.Keeps D clientBatchNum (.batchProposeMsg signs) := by
  obtain ⟨contextPool, localId, outcomes⟩ := take_frame clientBatchNum m
  have more : (m.take clientBatchNum).Accounted :=
    ⟨take_whole whole, outcomes ▸ accounted.2⟩
  rcases batchProposeMsg_cases D clientBatchNum m signs with
    ⟨idle, same | same⟩ | ⟨proposes, same⟩
  · rw [same]
    exact iff_of_true accounted (fun proposes => absurd proposes idle)
  · rw [same]
    exact iff_of_true more (fun proposes => absurd proposes idle)
  · obtain ⟨o, proposed⟩ := propose_proposed D (m.take clientBatchNum) signs
    have slot : (m.take clientBatchNum).HasSlot D ↔ m.HasSlot D := by
      rw [HasSlot, HasSlot, contextPool, localId]
    have settled := (proposed.settled_iff proposes.2.2).trans (and_congr_left' slot)
    rw [same, Keeps, forall_prop_of_true proposes, ← settled, Accounted, proposed.outcomes,
      List.forall_mem_append, List.forall_mem_singleton]
    exact ⟨fun all => all.2.2, fun last => ⟨proposed.whole more.1, more.2, last⟩⟩

theorem apply_accounted_iff {codec : ResponseCodec} (whole : m.Whole) (accounted : m.Accounted)
    (event : ProxyEvent) :
    (event.apply D codec clientBatchNum m).Accounted ↔ m.Keeps D clientBatchNum event := by
  cases event with
  | newUserRequest context needResponse userRequest =>
      have same : SameBatches m (m.newUserRequest context needResponse userRequest) :=
        ⟨rfl, rfl, rfl⟩
      exact iff_of_true (same.accounted_iff.mpr accounted) trivial
  | batchProposeMsg signs => exact batchProposeMsg_accounted_iff whole accounted signs
  | processResponseMsg msg =>
      exact iff_of_true
        ((processResponseMsg_sameBatches D codec m msg).accounted_iff.mpr accounted) trivial

theorem apply_whole {codec : ResponseCodec} (whole : m.Whole) (event : ProxyEvent) :
    (event.apply D codec clientBatchNum m).Whole := by
  cases event with
  | newUserRequest context needResponse userRequest => exact whole
  | batchProposeMsg signs =>
      rw [ProxyEvent.apply]
      rcases batchProposeMsg_cases D clientBatchNum m signs with
        ⟨-, same | same⟩ | ⟨-, same⟩
      · rwa [same]
      · rw [same]
        exact take_whole whole
      · obtain ⟨o, proposed⟩ := propose_proposed D (m.take clientBatchNum) signs
        rw [same]
        exact proposed.whole (take_whole whole)
  | processResponseMsg msg =>
      have same := processResponseMsg_sameBatches D codec m msg
      change (m.processResponseMsg D codec msg).2.Whole
      rwa [Whole, same.taken, same.outcomes, same.batchReq]

/-- In a run of the proxy no taken request is lost if and only if every round that makes a
batch finds the ring slot of its local id and gets the batch signed. -/
theorem no_request_dropped_iff (D : Deployment) (codec : ResponseCodec) (clientBatchNum : ℕ)
    (events : List ProxyEvent) :
    (∀ made, made <+: events →
      (made.foldl (ProxyEvent.apply D codec clientBatchNum) {}).Accounted) ↔
    ∀ made event, made ++ [event] <+: events →
      (made.foldl (ProxyEvent.apply D codec clientBatchNum) {}).Keeps D clientBatchNum event := by
  have initial : ({} : ResponseManager).Whole := rfl
  have nothing : ({} : ResponseManager).Accounted :=
    ⟨initial, fun _ member => absurd member List.not_mem_nil⟩
  have keeps : ∀ (m : ResponseManager) (event : ProxyEvent), m.Whole →
      (event.apply D codec clientBatchNum m).Whole := fun _ event whole => apply_whole whole event
  exact Run.holds_iff_steps initial keeps nothing
    (fun _ event whole accounted => apply_accounted_iff whole accounted event)

/-- Eight clients ask one after the other, and each batch of one request is rejected. -/
def rejectedBatches : List ProxyEvent :=
  (List.range 8).flatMap (fun i =>
    [.newUserRequest { client := some i } true { hash := [UInt8.ofNat i] },
      .batchProposeMsg true, .processResponseMsg { ret := -2, senderId := 1 }])

/-- A rejection frees no slot, so the eighth request is lost: it was taken, its batch was not
sent, and its client is told nothing. -/
theorem eighth_request_dropped :
    let m := rejectedBatches.foldl (ProxyEvent.apply sampleProxy ⟨fun _ => none⟩ 1) {}
    (m.taken.map (fun item => item.context.bind Context.client)).getLast? = some (some 7) ∧
      m.batchReq = [] ∧
      m.outcomes.map (fun o => (o.sent.map BatchUserRequest.localId, o.errors)) =
        [(some 1, []), (some 2, []), (some 3, []), (some 4, []), (some 5, []), (some 6, []),
          (some 7, []), (none, [])] ∧
      ¬ m.Accounted := by
  have lost : (rejectedBatches.foldl (ProxyEvent.apply sampleProxy ⟨fun _ => none⟩ 1)
      {}).outcomes.any (fun o => o.sent.isNone && o.errors.isEmpty && !o.items.isEmpty) = true := by
    decide +kernel
  refine ⟨by decide +kernel, by decide +kernel, by decide +kernel, fun accounted => ?_⟩
  obtain ⟨o, member, facts⟩ := List.any_eq_true.mp lost
  simp only [Bool.and_eq_true, Option.isNone_iff_eq_none, List.isEmpty_iff, Bool.not_eq_true',
    List.isEmpty_eq_false_iff] at facts
  exact not_settled facts.1.1 facts.1.2 facts.2 (accounted.2 o member)

end ResponseManager
end ResDB.Pbft
