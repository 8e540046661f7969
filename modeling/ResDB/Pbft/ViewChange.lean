import Mathlib.Tactic
import ResDB.Pbft.Replica

/-! `ViewChangeManager`: what a replica announces of its state when it gives up on a view,
and how a NEW-VIEW message is built from such announcements and checked. A handler takes the
parsed message, or `none` where the data does not parse; it returns `none` where the source
reads memory that is not there or does not come to an end. -/
namespace ResDB.Pbft

/-- The conversion of a `uint64` to `int`. -/
def toInt32 (n : ℕ) : Int := if n % 2 ^ 32 < 2 ^ 31 then n % 2 ^ 32 else n % 2 ^ 32 - 2 ^ 32

/-- The values of an `int` loop from `lo` to `hi`, each converted to `uint64`. It ends here also
for a `hi` of `2 ^ 31 - 1`, which no `int` is above. -/
def intLoop (lo hi : Int) : List ℕ :=
  (List.range (hi + 1 - lo).toNat).map (fun k => ((lo + k) % 2 ^ 64).toNat)

/-- `"null" + std::to_string(i)`. -/
def nullHash (i : ℕ) : Bytes :=
  [110, 117, 108, 108] ++ (Nat.toDigits 10 i).map (fun c => UInt8.ofNat c.toNat)

/-- `GetAllStoredHash`. The request that was handed over is gone by then. -/
def Collector.getAllStoredHash (c : Collector) : Option (List Bytes) :=
  if c.isCommitted then none
  else some ((c.mainRequest.toList ++ c.otherMainRequest).map (fun info => info.request.hash))

namespace NewViewMessage
variable (nv : NewViewMessage)

/-- All that the view-change messages report as prepared, in the order of the messages. -/
def prepared : List PreparedMessage := nv.viewchangeMessages.flatMap (fun vc => vc.preparedMsg)

/-- The entry for a number in the map that `GetPrepareMsg` fills: the last one wins. -/
def lastPrepared (seq : ℕ) : Option PreparedMessage :=
  nv.prepared.reverse.find? (fun entry => entry.seq = seq)

def minStable : ℕ :=
  (nv.viewchangeMessages.map (fun vc => vc.stableCkpt.seq)).foldr min (2 ^ 64 - 1)

def maxStable : ℕ := (nv.viewchangeMessages.map (fun vc => vc.stableCkpt.seq)).foldr max 0

/-- The largest number in the map, or 1 when the map is empty. -/
def maxSeq : ℕ :=
  if nv.prepared.isEmpty then 1 else (nv.prepared.map (fun entry => entry.seq)).foldr max 0

/-- `min_s + 1`. -/
def start : ℕ := (nv.minStable + 1) % 2 ^ 64

end NewViewMessage

namespace Deployment
variable (D : Deployment) (id : Int) (r : Replica)

def primaryOf (view : ℕ) : Int := ((view + 2 ^ 64 - 1) % 2 ^ 64 % D.totalNum : ℕ) + 1

/-- `IsValidCheckpointProof`. The signatures are those of the replica's own stable
checkpoint; of the argument only the sequence number is read. -/
def isValidCheckpointProof (stableCkpt : StableCheckPoint) : Bool :=
  let senders := (r.ckpt.stableCkpt.signatures.map (fun sign => sign.nodeId)).toFinset
  r.ckpt.stableCkpt.signatures.all (fun sign =>
    D.crypto.verifyMessage r.ckpt.stableCkpt.hash sign) ∧
    (D.quorum ≤ senders.card ∨ stableCkpt.seq = 0 ∧ senders.card = 0)

def isValidProof (seq : ℕ) (proof : RequestInfo) : Bool :=
  proof.request.seq = seq ∧
    D.crypto.verifyMessage (D.codec.request proof.request) proof.signature

def isValidViewChangeMsg (vc : ViewChangeMessage) : Bool :=
  r.view < vc.viewNumber ∧ D.isValidCheckpointProof r vc.stableCkpt ∧
    vc.preparedMsg.all (fun entry => entry.seq ≤ vc.stableCkpt.seq ∨
      D.quorum ≤ entry.proof.length ∧ entry.proof.all (D.isValidProof entry.seq))

def nullRequest (view seq : ℕ) (needSign : Bool) : Request :=
  { type := .prePrepare, senderId := id, seq := seq, currentView := view, hash := nullHash seq
    dataSignature := if needSign then some (D.crypto.signMessage id []) else none }

def redoRequest (nv : NewViewMessage) (needSign : Bool) (seq : ℕ) : Request :=
  match (nv.lastPrepared seq).bind (fun entry => entry.proof.head?) with
  | none => D.nullRequest id nv.viewNumber seq needSign
  | some proof =>
      { newRequest .commit proof.request id with seq := seq, currentView := nv.viewNumber }

def redoList (nv : NewViewMessage) (needSign : Bool) : List Request :=
  (List.range' nv.start (nv.maxSeq + 1 - nv.start)).map (D.redoRequest id nv needSign)

/-- `GetPrepareMsg`. The first proof of an entry is read without a check that there is one,
and the loop does not end at the largest number there is. -/
def getPrepareMsg (nv : NewViewMessage) (needSign : Bool) : Option (List Request) :=
  if nv.prepared.any (fun entry => entry.proof.isEmpty) then none
  else if 2 ^ 64 - 1 ≤ nv.maxSeq then none
  else some (D.redoList id nv needSign)

/-- What `ProcessNewView` does for one request of the message. -/
def redo (request : Request) : Option Replica :=
  match request.type with
  | .prePrepare =>
      if D.enableViewchange then
        (D.collector r request.seq).getAllStoredHash.map (fun hashes =>
          { r with proposed := r.proposed.filter (fun hash => hash ∉ hashes) })
      else none
  | _ => some { r with highestPreparedSeq := max r.highestPreparedSeq request.seq }

/-- `SetCurrentViewAndNewPrimary` and `SetNextSeq`. -/
def enterView (view maxSeq : ℕ) : Replica :=
  { r with view := view, primary := D.primaryOf view, nextSeq := (maxSeq + 1) % 2 ^ 64 }

/-- The numbers in the list, or the largest stable checkpoint when there are none. -/
def lastSeq (nv : NewViewMessage) (list : List Request) : ℕ :=
  if list.isEmpty then nv.maxStable else (list.map (fun request => request.seq)).foldr max 0

/-- The part of `ProcessNewView` after all the checks. Where the view manager was set up
without a pool, or a request of the message meets a committed collector, it crashes. -/
def installView (nv : NewViewMessage) (list : List Request) :
    Option (Replica × Int × List RequestInfo) :=
  (nv.request.foldlM D.redo (D.enterView r nv.viewNumber (lastSeq nv list))).map (fun r =>
    ({ r with viewChangeStatus := .none }, if id = r.primary then -4 else 0,
      nv.request.map (D.message id)))

/-- The numbers from the smallest to the largest stable checkpoint are in the list. -/
def covers (nv : NewViewMessage) (list : List Request) : Bool :=
  (List.range' nv.start (nv.maxStable + 1 - nv.start)).all (fun seq =>
    seq ∈ list.map (fun request => request.seq))

/-- `ProcessNewView`. Of the requests only the data is compared. -/
def processNewView (message : Option NewViewMessage) :
    Option (Replica × Int × List RequestInfo) :=
  match message with
  | none => some (r, -2, [])
  | some nv =>
      if nv.viewNumber ≠ (r.view + r.viewChangeCounter) % 2 ^ 64 then some (r, -2, [])
      else if nv.viewchangeMessages.all (D.isValidViewChangeMsg r) = false then some (r, -2, [])
      else
        match D.getPrepareMsg id nv false with
        | none => none
        | some list =>
            if list.map (fun request => request.data) ≠
                nv.request.map (fun request => request.data) then some (r, -2, [])
            else if covers nv list = false then some (r, -2, [])
            else D.installView id r nv list

/-- `SendNewViewMsg`, which sends one NEW-VIEW message in the life of a replica. -/
def sendNewViewMsg (view : ℕ) : Option (Replica × List NewViewMessage) :=
  if r.newViewIsSent then some (r, [])
  else
    let nv : NewViewMessage := {
      viewNumber := view
      viewchangeMessages := (r.viewchangeRequest view).entries.map (fun entry =>
        { entry.2 with viewNumber := view }) }
    (D.getPrepareMsg id nv true).map (fun list =>
      ({ r with newViewIsSent := true }, [{ nv with request := list }]))

/-- `AddRequest`: the message is kept under its view and the id of its sender. -/
def addViewChange (sender : Int) (vc : ViewChangeMessage) : Replica :=
  { r with
    viewchangeRequest := Function.update r.viewchangeRequest vc.viewNumber
      ((r.viewchangeRequest vc.viewNumber).set sender vc) }

def processViewChange (sender : Int) (message : Option ViewChangeMessage) :
    Option (Replica × Int × List NewViewMessage) :=
  match message with
  | none => some (r, -2, [])
  | some vc =>
      if D.isValidViewChangeMsg r vc = false then some (r, -2, [])
      else
        let r := addViewChange r sender vc
        if (r.viewchangeRequest vc.viewNumber).size < D.quorum then some (r, 0, [])
        else if D.primaryOf vc.viewNumber = id then
          (D.sendNewViewMsg id r vc.viewNumber).map (fun (r, sent) =>
            ({ r with viewChangeStatus := .readyNewView }, 0, sent))
        else some ({ r with viewChangeStatus := .readyNewView }, 0, [])

def reportPrepared (seq : ℕ) : Option PreparedMessage :=
  if Status.readyCommit.rank ≤ (D.collector r seq).status.rank then
    some ⟨seq, (D.collector r seq).preparedProof⟩
  else none

def sendViewChangeMsg : ViewChangeMessage where
  viewNumber := (r.view + r.viewChangeCounter) % 2 ^ 64
  stableCkpt := r.ckpt.stableCkpt
  preparedMsg :=
    (intLoop (toInt32 (r.ckpt.stableCkpt.seq + 1)) (toInt32 r.highestPreparedSeq)).filterMap
      (D.reportPrepared r)

/-- The handler that `MayStart` sets: the next view is announced. After a NEW-VIEW that did
not come the view after that is. -/
def startViewChange : Replica :=
  { r with
    viewChangeCounter :=
      match r.viewChangeStatus with
      | .none => 1
      | .readyNewView => (r.viewChangeCounter + 1) % 2 ^ 32
      | _ => r.viewChangeCounter
    viewChangeStatus := .readyViewChange }

variable {D id r}

theorem getPrepareMsg_eq_some {nv : NewViewMessage} {needSign : Bool} {list : List Request} :
    D.getPrepareMsg id nv needSign = some list ↔
      (∀ entry ∈ nv.prepared, entry.proof ≠ []) ∧ nv.maxSeq < 2 ^ 64 - 1 ∧
        list = D.redoList id nv needSign := by
  unfold getPrepareMsg
  split_ifs with empty endless
  · obtain ⟨entry, member, bare⟩ := List.any_eq_true.mp empty
    refine ⟨nofun, fun ⟨full, _⟩ => ?_⟩
    exact absurd (List.isEmpty_iff.mp bare) (full entry member)
  · refine ⟨nofun, fun ⟨_, small, _⟩ => ?_⟩
    omega
  · have full : ∀ entry ∈ nv.prepared, entry.proof ≠ [] := by
      intro entry member bare
      exact empty (List.any_eq_true.mpr ⟨entry, member, List.isEmpty_iff.mpr bare⟩)
    rw [Option.some_inj]
    exact ⟨fun same => ⟨full, not_le.mp endless, same.symm⟩, fun ⟨_, _, same⟩ => same.symm⟩

structure Redone (r r' : Replica) : Prop where
  view : r'.view = r.view
  primary : r'.primary = r.primary
  nextSeq : r'.nextSeq = r.nextSeq
  pool : r'.pool = r.pool
  ckpt : r'.ckpt = r.ckpt
  viewchangeRequest : r'.viewchangeRequest = r.viewchangeRequest
  newViewIsSent : r'.newViewIsSent = r.newViewIsSent
  handed : r'.handed = r.handed
  highestPreparedSeq : r.highestPreparedSeq ≤ r'.highestPreparedSeq

def Readable (D : Deployment) (r : Replica) (request : Request) : Prop :=
  request.type = .prePrepare →
    D.enableViewchange = true ∧ (D.collector r request.seq).isCommitted = false

theorem Redone.refl (r : Replica) : Redone r r := ⟨rfl, rfl, rfl, rfl, rfl, rfl, rfl, rfl, le_rfl⟩

theorem Redone.trans {r r' r'' : Replica} (first : Redone r r') (second : Redone r' r'') :
    Redone r r'' where
  view := second.view.trans first.view
  primary := second.primary.trans first.primary
  nextSeq := second.nextSeq.trans first.nextSeq
  pool := second.pool.trans first.pool
  ckpt := second.ckpt.trans first.ckpt
  viewchangeRequest := second.viewchangeRequest.trans first.viewchangeRequest
  newViewIsSent := second.newViewIsSent.trans first.newViewIsSent
  handed := second.handed.trans first.handed
  highestPreparedSeq := first.highestPreparedSeq.trans second.highestPreparedSeq

theorem redo_redone {request : Request} {r' : Replica} (done : D.redo r request = some r') :
    Redone r r' := by
  unfold redo at done
  split at done
  · split_ifs at done
    obtain ⟨hashes, -, rfl⟩ := Option.map_eq_some_iff.mp done
    exact ⟨rfl, rfl, rfl, rfl, rfl, rfl, rfl, rfl, le_rfl⟩
  · cases done
    exact ⟨rfl, rfl, rfl, rfl, rfl, rfl, rfl, rfl, le_max_left _ _⟩

theorem redo_isSome_iff (request : Request) :
    (D.redo r request).isSome ↔ D.Readable r request := by
  unfold redo Readable
  split
  · rename_i pre
    by_cases on : D.enableViewchange = true
    · by_cases committed : (D.collector r request.seq).isCommitted = true
      · simp [on, pre, Collector.getAllStoredHash, committed]
      · simp [on, pre, Collector.getAllStoredHash, committed]
    · simp [on, pre]
  · rename_i other
    exact ⟨fun _ pre => absurd pre (fun pre => other pre), fun _ => rfl⟩

theorem foldlM_redo_redone {requests : List Request} {r' : Replica}
    (done : requests.foldlM D.redo r = some r') : Redone r r' := by
  induction requests generalizing r with
  | nil =>
      cases done
      exact .refl _
  | cons request rest ih =>
      obtain ⟨mid, first, later⟩ := Option.bind_eq_some_iff.mp done
      exact (redo_redone first).trans (ih later)

theorem foldlM_redo_isSome_iff (requests : List Request) :
    (requests.foldlM D.redo r).isSome ↔ ∀ request ∈ requests, D.Readable r request := by
  induction requests generalizing r with
  | nil => simp
  | cons request rest ih =>
      rw [List.forall_mem_cons, ← redo_isSome_iff, List.foldlM_cons]
      cases first : D.redo r request with
      | none => simp
      | some mid =>
          have pool := (redo_redone first).pool
          have same : ∀ later, D.Readable mid later ↔ D.Readable r later := by
            intro later
            rw [Readable, Readable, collector, collector, pool]
          simp only [Option.bind_eq_bind, Option.bind_some, Option.isSome_some, true_and, ih, same]

end Deployment
end ResDB.Pbft
