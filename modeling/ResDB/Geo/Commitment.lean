import Mathlib.Data.Finset.Card
import Mathlib.Tactic
import ResDB.Library.TableCode
import ResDB.Pbft.Request

/-! `GeoPBFTCommitment`: which messages of the other regions get to the executor. A message is
put down in a check list by its region and its number modulo `2 ^ 20`, before it is looked at,
and nothing is ever taken off the list. -/
namespace ResDB.Geo

structure UserRequest where
  request : Pbft.Request
  signature : SignatureInfo
  id : ℤ
  deriving DecidableEq, Encodable

/-- A batch as `TransactionExecutor` completes it: the number, the hash, the proxy and the
certificates are those of the request that was committed. -/
structure BatchUserRequest where
  userRequests : List UserRequest := []
  createtime : ℕ := 0
  localId : ℕ := 0
  seq : ℕ := 0
  committedCerts : Option (List SignatureInfo) := none
  hash : Bytes := []
  proxyId : ℤ := 0
  deriving DecidableEq, Encodable

/-- How a batch is written. The empty text is the message that has no field set. -/
structure BatchFormat where
  serialize : BatchUserRequest → Bytes
  parse : Bytes → Option BatchUserRequest
  parse_nil : parse [] = some {}

/-- A request between regions. The region is whatever `int32` it carries. -/
structure GeoRequest where
  data : Bytes
  seq : ℕ
  regionId : ℤ
  senderId : ℤ := 0
  deriving DecidableEq

/-- `verifies` is whether there is a `verifier_`. -/
structure GeoConfig where
  format : BatchFormat
  crypto : Crypto
  verifies : Bool
  selfId : ℤ
  selfRegionId : ℤ

namespace GeoConfig
variable (cfg : GeoConfig)

/-- `VerifyCerts`: every certificate there is has to be valid for the hash that the batch
declares. -/
def verifyCerts (batch : BatchUserRequest) : Bool :=
  if cfg.verifies then
    (batch.committedCerts.getD []).all (fun sig => cfg.crypto.verifyMessage batch.hash sig)
  else true

/-- The checks of `GeoProcessCcm` on the data; it returns -2 if one of them fails. -/
def accepts (data : Bytes) : Bool :=
  match cfg.format.parse data with
  | none => false
  | some batch => batch.committedCerts.isSome && cfg.verifyCerts batch

end GeoConfig

/-- An `int32` as the `uint32_t` that `AddNewReq` takes. -/
def toUInt32 (region : ℤ) : ℕ := (region % 2 ^ 32).toNat

def slot (seq : ℕ) : ℕ := seq % 2 ^ 20

/-- The history is the requests that were not below `min_seq_` when they came, those given to
the executor and those broadcast in the own region. -/
structure Commitment where
  minSeq : ℕ := 0
  checklist : ℕ → Finset ℕ := fun _ => ∅
  timely : List GeoRequest := []
  forwarded : List GeoRequest := []
  broadcasts : List GeoRequest := []

namespace Commitment
variable (cfg : GeoConfig) (s : Commitment)

def addNewReq (seq senderRegion : ℕ) : Bool × Commitment :=
  if seq < s.minSeq then (false, s)
  else if senderRegion ∈ s.checklist (slot seq) then (false, s)
  else (true, { s with
    checklist := Function.update s.checklist (slot seq)
      (insert senderRegion (s.checklist (slot seq))) })

def updateSeq (seq : ℕ) : Commitment := if s.minSeq < seq then { s with minSeq := seq } else s

/-- The end of `GeoProcessCcm`. A request of another region is broadcast in the own one. -/
def forward (request : GeoRequest) : Commitment :=
  { s with
    forwarded := s.forwarded ++ [request]
    broadcasts :=
      if request.regionId ≠ cfg.selfRegionId then
        s.broadcasts ++ [{ request with senderId := cfg.selfId }]
      else s.broadcasts }

def note (request : GeoRequest) : Commitment :=
  if request.seq < s.minSeq then s else { s with timely := s.timely ++ [request] }

def geoProcessCcm (request : GeoRequest) : ℤ × Commitment :=
  match (s.note request).addNewReq request.seq (toUInt32 request.regionId) with
  | (false, s) => (1, s)
  | (true, s) => if cfg.accepts request.data then (0, s.forward cfg request) else (-2, s)

inductive Event where
  | geoProcessCcm (request : GeoRequest)
  | updateSeq (seq : ℕ)

def step : Event → Commitment
  | .geoProcessCcm request => (s.geoProcessCcm cfg request).2
  | .updateSeq seq => s.updateSeq seq

def run (events : List Event) : Commitment := events.foldl (step cfg) {}

end Commitment

def GeoRequest.SameSlot (request other : GeoRequest) : Prop :=
  slot request.seq = slot other.seq ∧ toUInt32 request.regionId = toUInt32 other.regionId

instance decidableSameSlot (request other : GeoRequest) : Decidable (request.SameSlot other) :=
  inferInstanceAs (Decidable (_ ∧ _))

theorem GeoRequest.SameSlot.symm {r r' : GeoRequest} (same : r.SameSlot r') : r'.SameSlot r :=
  ⟨same.1.symm, same.2.symm⟩

theorem GeoRequest.SameSlot.trans {r r' r'' : GeoRequest} (same : r.SameSlot r')
    (same' : r'.SameSlot r'') : r.SameSlot r'' :=
  ⟨same.1.trans same'.1, same.2.trans same'.2⟩

def GeoRequest.SameKey (request other : GeoRequest) : Prop :=
  request.seq = other.seq ∧ request.regionId = other.regionId

instance decidableSameKey (request other : GeoRequest) : Decidable (request.SameKey other) :=
  inferInstanceAs (Decidable (_ ∧ _))

theorem GeoRequest.SameKey.sameSlot {r r' : GeoRequest} (same : r.SameKey r') : r.SameSlot r' :=
  ⟨congrArg slot same.1, congrArg toUInt32 same.2⟩

/-- The first request that was put down where a request would be. -/
def firstInSlot (timely : List GeoRequest) (request : GeoRequest) : Option GeoRequest :=
  timely.find? (fun earlier => request.SameSlot earlier)

section Slots
variable {timely : List GeoRequest} {request other first : GeoRequest}

theorem firstInSlot_concat :
    firstInSlot (timely ++ [other]) request =
      (firstInSlot timely request).or (if request.SameSlot other then some other else none) := by
  rw [firstInSlot, List.find?_append, List.find?_singleton]
  simp only [decide_eq_true_eq]
  rfl

theorem firstInSlot_some (found : firstInSlot timely request = some first) :
    first ∈ timely ∧ request.SameSlot first :=
  ⟨List.mem_of_find?_eq_some found, by simpa using List.find?_some found⟩

theorem firstInSlot_none :
    firstInSlot timely request = none ↔ ∀ earlier ∈ timely, ¬ request.SameSlot earlier := by
  simp [firstInSlot]

theorem firstInSlot_congr (same : request.SameSlot other) :
    firstInSlot timely request = firstInSlot timely other := by
  refine congrArg (fun p => timely.find? p) (funext (fun earlier => ?_))
  exact decide_eq_decide.mpr ⟨fun there => same.symm.trans there, fun there => same.trans there⟩

theorem firstInSlot_listed (taken : firstInSlot timely other ≠ none) :
    firstInSlot (timely ++ [other]) request = firstInSlot timely request := by
  rw [firstInSlot_concat]
  split_ifs with same
  · obtain ⟨earlier, found⟩ := Option.ne_none_iff_exists'.mp taken
    rw [firstInSlot_congr same, found, Option.some_or]
  · exact Option.or_none

theorem firstInSlot_free (free : firstInSlot timely request = none) (r : GeoRequest) :
    firstInSlot (timely ++ [request]) r =
      if r.SameSlot request then some request else firstInSlot timely r := by
  rw [firstInSlot_concat]
  split_ifs with there
  · rw [firstInSlot_congr there, free, Option.none_or]
  · exact Option.or_none

end Slots

namespace Commitment
variable {cfg : GeoConfig} {s : Commitment}

/-- What the check list and the forwarded requests are, by the requests that came in time. -/
structure Tracks (cfg : GeoConfig) (s : Commitment) : Prop where
  listed : ∀ seq region, region ∈ s.checklist (slot seq) ↔
    ∃ r ∈ s.timely, slot seq = slot r.seq ∧ region = toUInt32 r.regionId
  forwarded : ∀ r, r ∈ s.forwarded ↔
    firstInSlot s.timely r = some r ∧ cfg.accepts r.data = true
  distinct : s.forwarded.Pairwise (fun r r' => ¬ r.SameSlot r')

theorem Tracks.listed_iff (tracks : Tracks cfg s) (request : GeoRequest) :
    toUInt32 request.regionId ∈ s.checklist (slot request.seq) ↔
      firstInSlot s.timely request ≠ none := by
  rw [tracks.listed, Ne, firstInSlot_none]
  push Not
  exact Iff.rfl

theorem geoProcessCcm_cases (tracks : Tracks cfg s) (request : GeoRequest) :
    (request.seq < s.minSeq ∧ s.geoProcessCcm cfg request = (1, s)) ∨
    (s.minSeq ≤ request.seq ∧ firstInSlot s.timely request ≠ none ∧
      s.geoProcessCcm cfg request = (1, { s with timely := s.timely ++ [request] })) ∨
    (s.minSeq ≤ request.seq ∧ firstInSlot s.timely request = none ∧
      s.geoProcessCcm cfg request =
        let s' : Commitment := { s with
          timely := s.timely ++ [request]
          checklist := Function.update s.checklist (slot request.seq)
            (insert (toUInt32 request.regionId) (s.checklist (slot request.seq))) }
        if cfg.accepts request.data then (0, s'.forward cfg request) else (-2, s')) := by
  by_cases stale : request.seq < s.minSeq
  · exact .inl ⟨stale, by simp only [geoProcessCcm, note, addNewReq, if_pos stale]⟩
  · right
    have inTime := Nat.le_of_not_lt stale
    by_cases taken : toUInt32 request.regionId ∈ s.checklist (slot request.seq)
    · refine .inl ⟨inTime, (tracks.listed_iff request).mp taken, ?_⟩
      simp only [geoProcessCcm, note, addNewReq, if_neg stale, if_pos taken]
    · refine .inr ⟨inTime, ?_, ?_⟩
      · by_contra first
        exact taken ((tracks.listed_iff request).mpr first)
      · simp only [geoProcessCcm, note, addNewReq, if_neg stale, if_neg taken]

theorem Tracks.listed_concat (tracks : Tracks cfg s) (request : GeoRequest) (seq region : ℕ) :
    region ∈ Function.update s.checklist (slot request.seq)
        (insert (toUInt32 request.regionId) (s.checklist (slot request.seq))) (slot seq) ↔
      ∃ r ∈ s.timely ++ [request], slot seq = slot r.seq ∧ region = toUInt32 r.regionId := by
  simp only [List.mem_append, List.mem_singleton, or_and_right, exists_or, exists_eq_left]
  by_cases same : slot seq = slot request.seq
  · rw [same, Function.update_self, Finset.mem_insert, tracks.listed, eq_self_iff_true, true_and,
      or_comm]
  · rw [Function.update_of_ne same, tracks.listed]
    simp only [same, false_and, or_false]

theorem Tracks.noted (tracks : Tracks cfg s) {request : GeoRequest}
    (taken : firstInSlot s.timely request ≠ none) :
    Tracks cfg { s with timely := s.timely ++ [request] } := by
  refine ⟨fun seq region => ?_, fun r => ?_, tracks.distinct⟩
  · rw [tracks.listed]
    constructor
    · rintro ⟨r, inside, eq⟩
      exact ⟨r, List.mem_append_left _ inside, eq⟩
    · rintro ⟨r, inside, eq⟩
      rcases List.mem_append.mp inside with before | new
      · exact ⟨r, before, eq⟩
      · obtain ⟨earlier, found⟩ := Option.ne_none_iff_exists'.mp taken
        obtain ⟨member, there⟩ := firstInSlot_some found
        rw [List.mem_singleton.mp new] at eq
        exact ⟨earlier, member, eq.1.trans there.1, eq.2.trans there.2⟩
  · rw [tracks.forwarded, firstInSlot_listed taken]

theorem Tracks.apart (tracks : Tracks cfg s) {request : GeoRequest}
    (free : firstInSlot s.timely request = none) :
    ∀ r ∈ s.forwarded, ¬ r.SameSlot request := by
  intro r inside there
  have own := ((tracks.forwarded r).mp inside).1
  rw [firstInSlot_congr there, free] at own
  cases own

theorem Tracks.rejected (tracks : Tracks cfg s) {request : GeoRequest}
    (free : firstInSlot s.timely request = none) (invalid : ¬ cfg.accepts request.data = true) :
    Tracks cfg { s with
      timely := s.timely ++ [request]
      checklist := Function.update s.checklist (slot request.seq)
        (insert (toUInt32 request.regionId) (s.checklist (slot request.seq))) } := by
  refine ⟨tracks.listed_concat request, fun r => ?_, tracks.distinct⟩
  rw [firstInSlot_free free]
  split_ifs with there
  · constructor
    · intro inside
      exact absurd there (tracks.apart free r inside)
    · rintro ⟨new, accepted⟩
      rw [← Option.some.inj new] at accepted
      exact absurd accepted invalid
  · exact tracks.forwarded r

theorem Tracks.accepted (tracks : Tracks cfg s) {request : GeoRequest}
    (free : firstInSlot s.timely request = none) (valid : cfg.accepts request.data = true) :
    Tracks cfg (forward cfg { s with
      timely := s.timely ++ [request]
      checklist := Function.update s.checklist (slot request.seq)
        (insert (toUInt32 request.regionId) (s.checklist (slot request.seq))) } request) := by
  refine ⟨tracks.listed_concat request, fun r => ?_, ?_⟩
  · rw [forward, List.mem_append, List.mem_singleton, firstInSlot_free free]
    split_ifs with there
    · constructor
      · rintro (inside | new)
        · exact absurd there (tracks.apart free r inside)
        · rw [new]
          exact ⟨rfl, valid⟩
      · rintro ⟨new, -⟩
        exact .inr (Option.some.inj new).symm
    · rw [tracks.forwarded]
      constructor
      · rintro (kept | new)
        · exact kept
        · rw [new] at there
          exact absurd ⟨rfl, rfl⟩ there
      · exact .inl
  · refine List.pairwise_append.mpr ⟨tracks.distinct, List.pairwise_singleton _ _, ?_⟩
    intro r inside r' new
    rw [List.mem_singleton.mp new]
    exact tracks.apart free r inside

theorem step_tracks (tracks : Tracks cfg s) (event : Event) : Tracks cfg (s.step cfg event) := by
  cases event with
  | updateSeq seq =>
      change Tracks cfg (s.updateSeq seq)
      unfold updateSeq
      split_ifs
      · exact ⟨tracks.listed, tracks.forwarded, tracks.distinct⟩
      · exact tracks
  | geoProcessCcm request =>
      change Tracks cfg (s.geoProcessCcm cfg request).2
      rcases geoProcessCcm_cases tracks request with
        ⟨-, same⟩ | ⟨-, taken, same⟩ | ⟨-, free, same⟩
      · rw [same]
        exact tracks
      · rw [same]
        exact tracks.noted taken
      · rw [same]
        split_ifs with valid
        · exact tracks.accepted free valid
        · exact tracks.rejected free valid

theorem run_tracks (cfg : GeoConfig) (events : List Event) : Tracks cfg (run cfg events) := by
  refine List.foldlRecOn events (step cfg) ?_ (fun s tracks event _ => step_tracks tracks event)
  exact ⟨by simp, fun r => by simp [firstInSlot], List.Pairwise.nil⟩

theorem forwards_iff (tracks : Tracks cfg s) {request : GeoRequest}
    (inTime : s.minSeq ≤ request.seq) (valid : cfg.accepts request.data = true) :
    ((s.geoProcessCcm cfg request).1 = 0 ∧
      (s.geoProcessCcm cfg request).2.forwarded = s.forwarded ++ [request]) ↔
      firstInSlot s.timely request = none := by
  rcases geoProcessCcm_cases tracks request with
    ⟨stale, -⟩ | ⟨-, taken, same⟩ | ⟨-, free, same⟩
  · exact absurd inTime (Nat.not_le.mpr stale)
  · refine iff_of_false (fun done => ?_) taken
    rw [same] at done
    exact absurd done.1 one_ne_zero
  · refine iff_of_true ?_ free
    rw [same, if_pos valid]
    exact ⟨rfl, rfl⟩

/-- A valid request that comes in time is forwarded, or one for its number and region was
before, exactly if the first request in its place of the check list is for this number and
region, and valid. -/
theorem admitted_iff_first_of_slot (cfg : GeoConfig) (events : List Event) (request : GeoRequest)
    (inTime : (run cfg events).minSeq ≤ request.seq)
    (valid : cfg.accepts request.data = true) :
    ((¬ ∃ earlier ∈ (run cfg events).forwarded, request.SameKey earlier ∧
        cfg.accepts earlier.data = true) →
      ((run cfg events).geoProcessCcm cfg request).1 = 0 ∧
        ((run cfg events).geoProcessCcm cfg request).2.forwarded =
          (run cfg events).forwarded ++ [request]) ↔
      ∀ first, firstInSlot (run cfg events).timely request = some first →
        request.SameKey first ∧ cfg.accepts first.data = true := by
  have tracks := run_tracks cfg events
  rw [forwards_iff tracks inTime valid]
  constructor
  · intro admitted first found
    by_contra other
    have free := admitted (fun ⟨earlier, inside, key, accepted⟩ => other ?_)
    · rw [found] at free
      cases free
    · -- what was forwarded for the key is the first in its place
      have own := ((tracks.forwarded earlier).mp inside).1
      rw [← firstInSlot_congr key.sameSlot, found] at own
      rw [Option.some.inj own]
      exact ⟨key, accepted⟩
  · intro first none'
    by_contra taken
    obtain ⟨earlier, found⟩ := Option.ne_none_iff_exists'.mp taken
    obtain ⟨key, accepted⟩ := first earlier found
    refine none' ⟨earlier, (tracks.forwarded earlier).mpr ⟨?_, accepted⟩, key, accepted⟩
    rw [← firstInSlot_congr key.sameSlot, found]

/-- The text of a batch in the table has as many bytes as its place, from 1 on. -/
def tableFormat (table : List BatchUserRequest) : BatchFormat where
  serialize := TableCode.serialize ({} :: table)
  parse := TableCode.parse ({} :: table)
  parse_nil := rfl

def sampleBatch : BatchUserRequest :=
  { hash := [9]
    committedCerts := some [⟨.none, 1, [1, 9]⟩, ⟨.none, 2, [2, 9]⟩, ⟨.none, 3, [3, 9]⟩] }

def sampleGeoConfig : GeoConfig where
  format := tableFormat [sampleBatch]
  crypto := Crypto.sample
  verifies := true
  selfId := 5
  selfRegionId := 2

theorem other_region_admitted :
    ((run sampleGeoConfig [.updateSeq 3, .geoProcessCcm ⟨[0], 5, 2, 0⟩]).geoProcessCcm
      sampleGeoConfig ⟨[1], 5, 1, 0⟩).1 = 0 := by
  refine ((admitted_iff_first_of_slot sampleGeoConfig _ ⟨[1], 5, 1, 0⟩ (by decide)
    (by decide)).mpr ?_ ?_).1
  · intro first found
    have none' : firstInSlot (run sampleGeoConfig
        [.updateSeq 3, .geoProcessCcm ⟨[0], 5, 2, 0⟩]).timely ⟨[1], 5, 1, 0⟩ = none := by decide
    rw [none'] at found
    cases found
  · rintro ⟨earlier, inside, -⟩
    have empty : (run sampleGeoConfig
        [.updateSeq 3, .geoProcessCcm ⟨[0], 5, 2, 0⟩]).forwarded = [] := by decide
    rw [empty] at inside
    cases inside

/-- A message that does not parse keeps out the valid one that follows, and so does a valid one
for a number `2 ^ 20` before. -/
theorem earlier_message_suppresses :
    (sampleGeoConfig.accepts [1] = true ∧ sampleGeoConfig.accepts [0] = false) ∧
      ((run sampleGeoConfig [.geoProcessCcm ⟨[0], 5, 1, 0⟩]).geoProcessCcm
          sampleGeoConfig ⟨[1], 5, 1, 0⟩).1 = 1 ∧
        (run sampleGeoConfig [.geoProcessCcm ⟨[0], 5, 1, 0⟩,
          .geoProcessCcm ⟨[1], 5, 1, 0⟩]).forwarded = [] ∧
      ((run sampleGeoConfig [.geoProcessCcm ⟨[1], 1, 1, 0⟩]).geoProcessCcm
          sampleGeoConfig ⟨[1], 1 + 2 ^ 20, 1, 0⟩).1 = 1 ∧
        (run sampleGeoConfig [.geoProcessCcm ⟨[1], 1, 1, 0⟩,
          .geoProcessCcm ⟨[1], 1 + 2 ^ 20, 1, 0⟩]).forwarded = [⟨[1], 1, 1, 0⟩] := by
  decide +kernel

end Commitment
end ResDB.Geo
