import ResDB.Client.PerformanceManager
import ResDB.Config.ReplicaCounts
import ResDB.TdHotstuff.Election

/-! The back-pressure of the TD-HotStuff load generator. `send_num_` counts the batches
on their way and `inflight_` splits them by the primary they were sent to. A change of the
primary releases all the batches of the old one at once, and responses for them may still
come. -/
namespace ResDB.TdHotstuff
open Client

/-- The part of the manager that the overridden methods read is that of the base class. -/
abbrev TdHotstuffPerformanceManager := PerformanceManager

namespace TdHotstuffPerformanceManager
variable (crypto : Crypto) (weights : List ℕ) (codec : ResponseCodec) (n : ℕ)
  (m : TdHotstuffPerformanceManager) (request : ResponseMsg) (batchResponse : BatchUserResponse)

/-- The constructor: the first primary is the elected leader of view 1. -/
def init : TdHotstuffPerformanceManager := { primary := performancePrimary crypto weights }

/-- `AddResponseMsg`. The first response is reported as such even if it is enough. -/
def addResponseMsg :
    CollectorResultCode × Option BatchUserResponse × TdHotstuffPerformanceManager :=
  match codec.parse request.data with
  | none => (.invalid, none, m)
  | some batchResponse =>
      match m.tally (Config.minDataReceiveNum n) batchResponse.localId with
      | (none, m) => (.ok, none, m)
      | (some (count, done), m) =>
          if count = 1 then (.firstResponse, some batchResponse, m)
          else if done then (.stateChanged, some batchResponse, m)
          else (.ok, none, m)

/-- A new primary: the slots held at the old one are released. -/
def changePrimary (nextPrimary : Int) : TdHotstuffPerformanceManager :=
  if nextPrimary = 0 then m
  else
    let m : TdHotstuffPerformanceManager :=
      if nextPrimary ≠ m.primary ∧ 0 < m.inflight m.primary then
        { m with
          sendNum := m.sendNum - m.inflight m.primary
          inflight := Function.update m.inflight m.primary 0 }
      else m
    { m with primary := nextPrimary }

/-- The slot of a completed batch, and `SendResponseToClient` unless it was released
before. -/
def release (primaryId : Int) : TdHotstuffPerformanceManager :=
  if 0 < m.inflight primaryId then
    { m with
      inflight := Function.update m.inflight primaryId (m.inflight primaryId - 1)
      sendNum := m.sendNum - 1 }
  else m

def processResponseMsg : TdHotstuffPerformanceManager :=
  if request.ret = -2 then { m with sendNum := m.sendNum - 1 }
  else
    match addResponseMsg codec n m request with
    | (.stateChanged, some batchResponse, m) =>
        release (changePrimary m batchResponse.nextPrimary) batchResponse.primaryId
    | (_, _, m) => m

def sendMessage : TdHotstuffPerformanceManager :=
  { m with
    inflight := Function.update m.inflight m.primary (m.inflight m.primary + 1)
    sendNum := m.sendNum + 1 }

end TdHotstuffPerformanceManager

/-- `DoBatch` is two events: it registers the batch and, once that is signed, sends it. -/
inductive ClientEvent where
  | register
  | sendMessage
  | processResponseMsg (request : ResponseMsg)
  deriving DecidableEq

def ClientEvent.apply (codec : ResponseCodec) (n : ℕ) (m : TdHotstuffPerformanceManager) :
    ClientEvent → TdHotstuffPerformanceManager
  | .register => PerformanceManager.register m
  | .sendMessage => TdHotstuffPerformanceManager.sendMessage m
  | .processResponseMsg request => TdHotstuffPerformanceManager.processResponseMsg codec n m request

/-- What a replica running this code sends: no rejection, and the ids of replicas. -/
def ClientEvent.Regular (codec : ResponseCodec) (n : ℕ) : ClientEvent → Prop
  | .processResponseMsg request => request.ret ≠ -2 ∧
      ∀ batchResponse, codec.parse request.data = some batchResponse →
        (1 ≤ batchResponse.primaryId ∧ batchResponse.primaryId ≤ n) ∧
          0 ≤ batchResponse.nextPrimary ∧ batchResponse.nextPrimary ≤ n
  | _ => True

/-- Every batch on its way holds a slot at one replica. -/
structure Balanced (n : ℕ) (m : TdHotstuffPerformanceManager) : Prop where
  primary : m.primary ∈ replicas n
  nonneg : ∀ i, 0 ≤ m.inflight i
  total : ∑ i ∈ replicas n, m.inflight i = m.sendNum

namespace Balanced
variable {n : ℕ} {m : TdHotstuffPerformanceManager}

theorem sendNum_nonneg (balanced : Balanced n m) : 0 ≤ m.sendNum :=
  balanced.total ▸ Finset.sum_nonneg (fun i _ => balanced.nonneg i)

theorem update (balanced : Balanced n m) {i : Int} (replica : i ∈ replicas n) {slots : Int}
    (nonneg : 0 ≤ slots) {m' : TdHotstuffPerformanceManager}
    (inflight : m'.inflight = Function.update m.inflight i slots)
    (sendNum : m'.sendNum = m.sendNum + (slots - m.inflight i))
    (primary : m'.primary ∈ replicas n) :
    Balanced n m' where
  primary := primary
  nonneg := by
    intro j
    rw [inflight, Function.update_apply]
    split_ifs
    · exact nonneg
    · exact balanced.nonneg j
  total := by
    rw [inflight, sendNum, ← balanced.total, Finset.sum_update_of_mem replica,
      ← Finset.add_sum_erase _ _ replica, Finset.sdiff_singleton_eq_erase]
    ring

theorem sendMessage (balanced : Balanced n m) :
    Balanced n (TdHotstuffPerformanceManager.sendMessage m) := by
  have room : 0 ≤ m.inflight m.primary + 1 := by
    have := balanced.nonneg m.primary
    omega
  refine balanced.update balanced.primary room rfl ?_ balanced.primary
  change m.sendNum + 1 = _
  ring

theorem changePrimary (balanced : Balanced n m) {nextPrimary : Int}
    (known : 0 ≤ nextPrimary ∧ nextPrimary ≤ n) :
    Balanced n (TdHotstuffPerformanceManager.changePrimary m nextPrimary) := by
  unfold TdHotstuffPerformanceManager.changePrimary
  split_ifs with kept released
  · exact balanced
  all_goals
    have replica : nextPrimary ∈ replicas n := by
      rw [mem_replicas]
      omega
  · refine balanced.update balanced.primary le_rfl rfl ?_ replica
    change m.sendNum - m.inflight m.primary = _
    ring
  · exact ⟨replica, balanced.nonneg, balanced.total⟩

theorem release (balanced : Balanced n m) {primaryId : Int} (replica : primaryId ∈ replicas n) :
    Balanced n (TdHotstuffPerformanceManager.release m primaryId) := by
  unfold TdHotstuffPerformanceManager.release
  split_ifs with held
  · have room : 0 ≤ m.inflight primaryId - 1 := by omega
    refine balanced.update replica room rfl ?_ balanced.primary
    change m.sendNum - 1 = _
    ring
  · exact balanced

theorem table (balanced : Balanced n m) (response : AssocMap ℕ ℕ) :
    Balanced n { m with response } :=
  ⟨balanced.primary, balanced.nonneg, balanced.total⟩

theorem processResponseMsg (balanced : Balanced n m) {codec : ResponseCodec}
    {request : ResponseMsg} (regular : (ClientEvent.processResponseMsg request).Regular codec n) :
    Balanced n (TdHotstuffPerformanceManager.processResponseMsg codec n m request) := by
  unfold TdHotstuffPerformanceManager.processResponseMsg
  rw [if_neg regular.1, TdHotstuffPerformanceManager.addResponseMsg]
  cases parsed : codec.parse request.data with
  | none => exact balanced
  | some batchResponse =>
      obtain ⟨primaryId, nextPrimary⟩ := regular.2 batchResponse parsed
      obtain ⟨response, counted⟩ := PerformanceManager.tally_frame
        (Config.minDataReceiveNum n) m batchResponse.localId
      have replica : batchResponse.primaryId ∈ replicas n := mem_replicas.mpr primaryId
      have kept : Balanced n (m.tally (Config.minDataReceiveNum n) batchResponse.localId).2 :=
        counted ▸ balanced.table response
      dsimp only
      generalize m.tally (Config.minDataReceiveNum n) batchResponse.localId = result at kept ⊢
      obtain ⟨outcome, m'⟩ := result
      cases outcome with
      | none => exact kept
      | some outcome =>
          simp only []
          split_ifs
          · exact kept
          · exact (kept.changePrimary nextPrimary).release replica
          · exact kept

theorem apply (balanced : Balanced n m) {codec : ResponseCodec} {event : ClientEvent}
    (regular : event.Regular codec n) : Balanced n (event.apply codec n m) := by
  cases event with
  | register => exact ⟨balanced.primary, balanced.nonneg, balanced.total⟩
  | sendMessage => exact balanced.sendMessage
  | processResponseMsg request => exact balanced.processResponseMsg regular

theorem run (balanced : Balanced n m) {codec : ResponseCodec} {events : List ClientEvent}
    (regular : ∀ event ∈ events, event.Regular codec n) :
    Balanced n (events.foldl (ClientEvent.apply codec n) m) := by
  induction events generalizing m with
  | nil => exact balanced
  | cons event rest ih =>
      obtain ⟨first, later⟩ := List.forall_mem_cons.mp regular
      exact ih (balanced.apply first) later

end Balanced

theorem performancePrimary_mem (crypto : Crypto) {weights : List ℕ} (some : weights ≠ []) :
    performancePrimary crypto weights ∈ replicas weights.length := by
  have positive : 0 < weights.length := List.length_pos_iff.mpr some
  rw [performancePrimary, searchLeader_eq_locate, mem_replicas]
  cases located : Intervals.locate (prefixWeight weights) weights.length _ with
  | none => simp only []; omega
  | some i =>
      have inside := ((Intervals.locate_eq_some_iff (prefixWeight_mono weights) _ i _).mp located).1
      simp only []
      omega

theorem balanced_init (crypto : Crypto) {weights : List ℕ} (some : weights ≠ []) :
    Balanced weights.length (TdHotstuffPerformanceManager.init crypto weights) where
  primary := performancePrimary_mem crypto some
  nonneg := fun _ => le_rfl
  total := Finset.sum_const_zero

/-- In every interleaving of sends and regular responses the slots held at the replicas
add up to the batches on their way, and none of the counters is negative. -/
theorem back_pressure_balanced (crypto : Crypto) (codec : ResponseCodec) (weights : List ℕ)
    (some : weights ≠ []) (events : List ClientEvent)
    (regular : ∀ event ∈ events, event.Regular codec weights.length) :
    let m := events.foldl (ClientEvent.apply codec weights.length)
      (TdHotstuffPerformanceManager.init crypto weights)
    ∑ i ∈ replicas weights.length, m.inflight i = m.sendNum ∧
      (∀ i, 0 ≤ m.inflight i) ∧ 0 ≤ m.sendNum := by
  have balanced := (balanced_init crypto some).run regular
  exact ⟨balanced.total, balanced.nonneg, balanced.sendNum_nonneg⟩

/-- Two batches are sent to replica 1. The last response for the first of them names
replica 2, which releases both slots before the responses for the second come. -/
def leaderChange : List ClientEvent :=
  let response (localId : ℕ) (primaryId nextPrimary : Int) : ClientEvent :=
    .processResponseMsg { data := [UInt8.ofNat localId, UInt8.ofNat primaryId.toNat,
      UInt8.ofNat nextPrimary.toNat] }
  [.register, .sendMessage, .register, .sendMessage,
    response 1 1 0, response 1 1 0, response 1 1 2, .register, .sendMessage,
    response 2 1 0, response 2 1 0, response 2 1 0,
    response 3 2 0, response 3 2 0, response 3 2 0]

def threeByteCodec : ResponseCodec where
  parse
    | [localId, primaryId, nextPrimary] => some {
        localId := localId.toNat, primaryId := primaryId.toNat, nextPrimary := nextPrimary.toNat }
    | _ => none

instance (codec : ResponseCodec) (n : ℕ) (event : ClientEvent) :
    Decidable (event.Regular codec n) :=
  match event with
  | .register => .isTrue trivial
  | .sendMessage => .isTrue trivial
  | .processResponseMsg request =>
      match parsed : codec.parse request.data with
      | none => decidable_of_iff (request.ret ≠ -2)
          ⟨fun kept => ⟨kept, by simp [parsed]⟩, fun regular => regular.1⟩
      | some batchResponse => decidable_of_iff (request.ret ≠ -2 ∧
          (1 ≤ batchResponse.primaryId ∧ batchResponse.primaryId ≤ n) ∧
            0 ≤ batchResponse.nextPrimary ∧ batchResponse.nextPrimary ≤ n)
          ⟨fun kept => ⟨kept.1, by simpa [parsed] using kept.2⟩,
            fun regular => ⟨regular.1, regular.2 batchResponse parsed⟩⟩

theorem leaderChange_balanced :
    (∀ event ∈ leaderChange, event.Regular threeByteCodec [3, 1, 1, 1].length) ∧
    let m := leaderChange.foldl (ClientEvent.apply threeByteCodec 4)
      (TdHotstuffPerformanceManager.init Crypto.sample [3, 1, 1, 1])
    ∑ i ∈ replicas 4, m.inflight i = m.sendNum ∧ (∀ i, 0 ≤ m.inflight i) ∧ 0 ≤ m.sendNum :=
  ⟨by decide, back_pressure_balanced Crypto.sample threeByteCodec [3, 1, 1, 1] (by decide)
    leaderChange (by decide)⟩

end ResDB.TdHotstuff
