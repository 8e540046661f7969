import Mathlib.Tactic
import ResDB.Library.HashChain
import ResDB.Pbft.Replica

/-! The rounds of `UpdateStableCheckPointStatus`: a replica that lags behind a checkpoint
fetches the requests it has missed from one of the replicas that vouch for the checkpoint,
and hands them to its executor. What is fetched is checked against the digest of the
checkpoint. -/
namespace ResDB.Pbft
open HashChain (chain)

def chainHash (crypto : Crypto) (digest : Bytes) (requests : List Request) : Bytes :=
  chain crypto.sha256 digest (requests.map (fun request => request.hash))

namespace Deployment
variable (D : Deployment) (r : Replica) (votes : CheckPointVotes)

def minCheckpointReceiveNum : ℕ := max (Config.faultBound D.totalNum + 1) 1

def replicaIds : List Int := (List.range D.totalNum).map (fun k => (k : Int) + 1)

/-- The checks of a reply. The sequence numbers in it are not looked at. -/
def acceptsReply (requests : List Request) : Bool :=
  requests.all (fun request => D.crypto.sha256 request.data = request.hash) ∧
    chainHash D.crypto r.ckpt.lastHash requests = votes.hash

/-- What is fetched for a checkpoint: the first reply that is accepted, of the replicas that
voted for it in the order of the configuration. -/
def fetched (reply : Int → ℕ → ℕ → Option (List Request)) : Option (List Request) :=
  if D.minCheckpointReceiveNum ≤ votes.senders.card ∧ r.ckpt.lastSeq < votes.seq ∧
      r.ckpt.lastCommittableSeq < votes.seq then
    D.replicaIds.findSome? (fun i =>
      if i ∈ votes.senders then
        (reply i (r.ckpt.lastSeq + 1) votes.seq).filter (D.acceptsReply r votes)
      else none)
  else none

/-- What a round does for the votes of one checkpoint. -/
def transfer (reply : Int → ℕ → ℕ → Option (List Request)) : Replica :=
  let ckpt :=
    if D.minCheckpointReceiveNum ≤ votes.senders.card then
      { r.ckpt with committableSeq := votes.seq }
    else r.ckpt
  match D.fetched r votes reply with
  | none => { r with ckpt := ckpt }
  | some requests =>
      { r with
        ckpt := { ckpt with lastCommittableSeq := votes.seq }
        executor := requests.foldl Executor.commit r.executor
        highestPreparedSeq := votes.seq }

/-- A round of `UpdateStableCheckPointStatus`, which waits for new votes. -/
def updateStableCheckPointStatus (reply : Int → ℕ → ℕ → Option (List Request)) :
    Option Replica :=
  if r.ckpt.newData = 0 then none
  else
    let r := r.ckpt.votes.entries.foldl (fun r entry => D.transfer r entry.2 reply) r
    some { r with ckpt := { r.ckpt.installStable D with newData := 0 } }

/-- `UpdateCheckPointStatus` takes the next executed request. One that was replayed from the
log does not reach it. -/
def updateCheckPointStatus (id : Int) : Option (Replica × List CheckPointData) :=
  match r.executor.executeQueue[r.ckpt.taken]? with
  | none => none
  | some request =>
      let ckpt := { r.ckpt with taken := r.ckpt.taken + 1 }
      if request.isRecovery then some ({ r with ckpt := ckpt }, [])
      else
        let (ckpt, sent) := ckpt.digest D id request
        some ({ r with ckpt := ckpt }, sent)

end Deployment

/-- The digest that the votes are for is that of `truth` after what the replica has executed,
and all hashes have the length of a digest. -/
structure CorrectDigest (D : Deployment) (ckpt : CheckPointManager) (votes : CheckPointVotes)
    (history truth : List Request) : Prop where
  lastSeq : ckpt.lastSeq = history.length
  lastHash : ckpt.lastHash = chainHash D.crypto [] history
  sized : ∀ request ∈ history, request.hash.length = 32
  length : truth.length = votes.seq - ckpt.lastSeq
  hashed : ∀ request ∈ truth, D.crypto.sha256 request.data = request.hash
  digest : votes.hash = chainHash D.crypto ckpt.lastHash truth

/-- The strings that are hashed for a list of requests after a history. -/
def hashedStrings (crypto : Crypto) (history requests : List Request) : Set Bytes :=
  HashChain.inputs crypto.sha256 [] ((history ++ requests).map (fun request => request.hash)) ∪
    {data | ∃ request ∈ requests, request.data = data}

/-- For every number there is exactly one request, and it is that of `truth`. -/
def Faithful (lastSeq : ℕ) (truth requests : List Request) : Prop :=
  ∀ k right, truth[k]? = some right →
    ∃ request, requests.filter (fun request => request.seq = lastSeq + 1 + k) = [request] ∧
      request.hash = right.hash ∧ request.data = right.data

/-- The sequence numbers are those that were asked for, each once, and a request that is out
of its place has the hash of the one in its place. -/
def WellPlaced (lastSeq : ℕ) (requests : List Request) : Prop :=
  (requests.map (fun request => request.seq)).Perm (List.range' (lastSeq + 1) requests.length) ∧
    ∀ request ∈ requests, ∀ inPlace, requests[request.seq - (lastSeq + 1)]? = some inPlace →
      request.hash = inPlace.hash

section Transfer
variable {D : Deployment} {r : Replica} {votes : CheckPointVotes}
  {history truth requests : List Request}

theorem fetched_accepted {reply : Int → ℕ → ℕ → Option (List Request)}
    (fetches : D.fetched r votes reply = some requests) :
    D.acceptsReply r votes requests = true := by
  unfold Deployment.fetched at fetches
  split_ifs at fetches
  obtain ⟨i, -, found⟩ := List.exists_of_findSome?_eq_some fetches
  split_ifs at found
  exact (Option.filter_eq_some_iff.mp found).2

theorem hashes_eq (correct : CorrectDigest D r.ckpt votes history truth)
    (free : Set.InjOn D.crypto.sha256
      (hashedStrings D.crypto history truth ∪ hashedStrings D.crypto history requests))
    (accepted : D.acceptsReply r votes requests = true) :
    requests.map (fun request => request.hash) = truth.map (fun request => request.hash) := by
  obtain ⟨hashed, digest⟩ := of_decide_eq_true accepted
  have sizes : ∀ {list : List Request},
      (∀ request ∈ list, D.crypto.sha256 request.data = request.hash) →
      ∀ h ∈ (history ++ list).map (fun request => request.hash), h.length = 32 := by
    intro list good h member
    obtain ⟨request, inside, rfl⟩ := List.mem_map.mp member
    cases List.mem_append.mp inside with
    | inl old => exact correct.sized request old
    | inr new =>
        rw [← good request new]
        exact D.crypto.sha256_length _
  have good : ∀ request ∈ requests, D.crypto.sha256 request.data = request.hash := by
    intro request member
    exact of_decide_eq_true (List.all_eq_true.mp hashed request member)
  have whole : ∀ list : List Request,
      chain D.crypto.sha256 [] ((history ++ list).map (fun request => request.hash)) =
        chainHash D.crypto r.ckpt.lastHash list := by
    intro list
    rw [List.map_append, HashChain.chain_append, correct.lastHash]
    rfl
  have both : (history ++ requests).map (fun request => request.hash) =
      (history ++ truth).map (fun request => request.hash) := by
    apply HashChain.eq_of_chain_eq (by decide) D.crypto.sha256_length (sizes good)
      (sizes correct.hashed)
    · apply free.mono
      rw [Set.union_comm]
      exact Set.union_subset_union Set.subset_union_left Set.subset_union_left
    · rw [whole, whole, digest, correct.digest]
  rw [List.map_append, List.map_append] at both
  exact List.append_cancel_left both

theorem faithful_iff_wellPlaced {lastSeq : ℕ}
    (same : requests.map (fun request => request.hash) = truth.map (fun request => request.hash))
    (binding : ∀ request ∈ requests, ∀ right ∈ truth, request.hash = right.hash →
      request.data = right.data) :
    Faithful lastSeq truth requests ↔ WellPlaced lastSeq requests := by
  have length : requests.length = truth.length := by
    simpa using congrArg List.length same
  have distinct : (List.range' (lastSeq + 1) requests.length).Nodup := List.nodup_range' _
  have place : ∀ {k : ℕ} {request right : Request}, requests[k]? = some request →
      truth[k]? = some right → request.hash = right.hash := by
    intro k request right here there
    have hashes := congrArg (fun list => list[k]?) same
    simpa [here, there] using hashes
  constructor
  · intro faithful
    have covered : List.range' (lastSeq + 1) requests.length ⊆
        requests.map (fun request => request.seq) := by
      intro seq member
      obtain ⟨k, small, rfl⟩ := List.mem_range'.mp member
      obtain ⟨request, only, -⟩ := faithful k truth[k] (List.getElem?_eq_getElem (by omega))
      have inside : request ∈ requests.filter (fun q => q.seq = lastSeq + 1 + k) := by
        rw [only]
        exact List.mem_singleton_self request
      obtain ⟨member, seq⟩ := List.mem_filter.mp inside
      exact List.mem_map.mpr ⟨request, member, by simpa using of_decide_eq_true seq⟩
    have perm : (List.range' (lastSeq + 1) requests.length).Perm
        (requests.map (fun request => request.seq)) :=
      (List.subperm_of_subset distinct covered).perm_of_length_le (by simp)
    refine ⟨perm.symm, fun request member inPlace found => ?_⟩
    have numbered := perm.symm.subset (List.mem_map.mpr ⟨request, member, rfl⟩)
    obtain ⟨k, small, seq⟩ := List.mem_range'.mp numbered
    have right : truth[k]? = some truth[k] := List.getElem?_eq_getElem (by omega)
    obtain ⟨only, alone, hash, -⟩ := faithful k truth[k] right
    have inside : request ∈ requests.filter (fun q => q.seq = lastSeq + 1 + k) :=
      List.mem_filter.mpr ⟨member, decide_eq_true (by omega)⟩
    rw [alone, List.mem_singleton] at inside
    rw [inside, hash]
    have index : request.seq - (lastSeq + 1) = k := by omega
    rw [index] at found
    exact (place found right).symm
  · rintro ⟨perm, swapped⟩ k right found
    have small : k < requests.length := by
      rw [length]
      exact (List.getElem?_eq_some_iff.mp found).1
    have once : (requests.map (fun request => request.seq)).count (lastSeq + 1 + k) = 1 := by
      rw [perm.count_eq]
      exact List.count_eq_one_of_mem distinct (List.mem_range'.mpr ⟨k, small, by omega⟩)
    rw [List.count, List.countP_map, List.countP_eq_length_filter] at once
    obtain ⟨request, only⟩ := List.length_eq_one_iff.mp once
    have alone : requests.filter (fun request => request.seq = lastSeq + 1 + k) = [request] := by
      rw [← only]
      apply List.filter_congr
      intro q _
      rfl
    have inside : request ∈ requests.filter (fun q => q.seq = lastSeq + 1 + k) := by
      rw [alone]
      exact List.mem_singleton_self request
    obtain ⟨member, seq⟩ := List.mem_filter.mp inside
    have numbered := of_decide_eq_true seq
    have inPlace : requests[request.seq - (lastSeq + 1)]? = some requests[k] := by
      rw [show request.seq - (lastSeq + 1) = k by omega]
      exact List.getElem?_eq_getElem small
    have hash : request.hash = right.hash :=
      (swapped request member _ inPlace).trans (place (List.getElem?_eq_getElem small) found)
    exact ⟨request, alone, hash,
      binding request member right (List.mem_of_getElem? found) hash⟩

/-- What a lagging replica hands to its executor is what the checkpoint stands for exactly if
the reply numbers its requests as they are placed. -/
theorem transfer_faithful_iff (correct : CorrectDigest D r.ckpt votes history truth)
    {reply : Int → ℕ → ℕ → Option (List Request)}
    (fetches : D.fetched r votes reply = some requests)
    (free : Set.InjOn D.crypto.sha256
      (hashedStrings D.crypto history truth ∪ hashedStrings D.crypto history requests)) :
    (D.transfer r votes reply).executor = requests.foldl Executor.commit r.executor ∧
      (Faithful r.ckpt.lastSeq truth requests ↔ WellPlaced r.ckpt.lastSeq requests) := by
  have accepted := fetched_accepted fetches
  refine ⟨?_, faithful_iff_wellPlaced (hashes_eq correct free accepted) ?_⟩
  · simp only [Deployment.transfer, fetches]
  · intro request member right inside hash
    obtain ⟨hashed, -⟩ := of_decide_eq_true accepted
    apply free (.inr (.inr ⟨request, member, rfl⟩)) (.inl (.inr ⟨right, inside, rfl⟩))
    rw [of_decide_eq_true (List.all_eq_true.mp hashed request member),
      correct.hashed right inside, hash]

end Transfer

/-- A digest that tells the few strings of the sample apart. -/
def checksum (data : Bytes) : Bytes :=
  List.replicate 31 0 ++ [data.foldl (fun sum byte => 3 * sum + byte) 0]

def checkedTransfer : Deployment where
  crypto := { Crypto.sample with sha256 := checksum, sha256_length := by simp [checksum] }
  codec := ⟨fun request => request.hash⟩
  totalNum := 4

def checked (seq : ℕ) (data : Bytes) : Request :=
  { seq := seq, data := data, hash := checksum data }

/-- A replica has executed the first request and has missed two. -/
def sampleHistory : List Request := [checked 1 [11]]

def sampleMissed : List Request := [checked 2 [12], checked 3 [13]]

def sampleBehind : Replica :=
  { ckpt := { lastSeq := 1, lastHash := chainHash checkedTransfer.crypto [] sampleHistory } }

def sampleAhead : CheckPointVotes :=
  { seq := 3, hash := chainHash checkedTransfer.crypto sampleBehind.ckpt.lastHash sampleMissed
    senders := {1, 2} }

theorem sampleBehind_correct :
    CorrectDigest checkedTransfer sampleBehind.ckpt sampleAhead sampleHistory sampleMissed where
  lastSeq := rfl
  lastHash := rfl
  sized := by decide
  length := rfl
  hashed := by decide
  digest := rfl

def sampleStrings : List Bytes :=
  let first := checksum [11]
  let second := checksum first ++ checksum [12]
  [first, second, checksum second ++ checksum [13], [12], [13]]

theorem sampleStrings_collision_free :
    Set.InjOn checksum (hashedStrings checkedTransfer.crypto sampleHistory sampleMissed) := by
  have listed : ∀ data ∈ hashedStrings checkedTransfer.crypto sampleHistory sampleMissed,
      data ∈ sampleStrings := by
    intro data member
    simpa [hashedStrings, HashChain.inputs, sampleHistory, sampleMissed, sampleStrings, checked,
      checkedTransfer, or_assoc, eq_comm] using member
  have apart : ∀ a ∈ sampleStrings, ∀ b ∈ sampleStrings, checksum a = checksum b → a = b := by
    decide +kernel
  exact fun a member b member' => apart a (listed a member) b (listed b member')

theorem sampleMissed_transferred :
    (checkedTransfer.transfer sampleBehind sampleAhead
        (fun _ _ _ => some sampleMissed)).executor.commitQueue = sampleMissed ∧
      Faithful 1 sampleMissed sampleMissed := by
  have fetches : checkedTransfer.fetched sampleBehind sampleAhead (fun _ _ _ => some sampleMissed) =
      some sampleMissed := by decide +kernel
  have free : Set.InjOn checkedTransfer.crypto.sha256
      (hashedStrings checkedTransfer.crypto sampleHistory sampleMissed ∪
        hashedStrings checkedTransfer.crypto sampleHistory sampleMissed) := by
    rw [Set.union_self]
    exact sampleStrings_collision_free
  obtain ⟨executor, faithful⟩ := transfer_faithful_iff sampleBehind_correct fetches free
  exact ⟨by rw [executor]; rfl, faithful.mpr (by unfold WellPlaced; decide +kernel)⟩

/-- A string that is its own digest under the sample hash. -/
def sampleBlock : Bytes := List.replicate 32 1

def sampleTransfer : Deployment where
  crypto := .sample
  codec := ⟨fun request => request.hash⟩
  totalNum := 4

def sampleVotes : CheckPointVotes := { seq := 1, hash := sampleBlock, senders := {1, 2} }

def numbered (seq : ℕ) : Request := { seq := seq, hash := sampleBlock, data := sampleBlock }

theorem sample_correct :
    CorrectDigest sampleTransfer ({} : Replica).ckpt sampleVotes [] [numbered 1] where
  lastSeq := rfl
  lastHash := rfl
  sized := fun _ member => absurd member List.not_mem_nil
  length := rfl
  hashed := by decide
  digest := by decide

theorem sample_collision_free (seq : ℕ) : Set.InjOn sampleTransfer.crypto.sha256
    (hashedStrings sampleTransfer.crypto [] [numbered 1] ∪
      hashedStrings sampleTransfer.crypto [] [numbered seq]) := by
  apply Set.Subsingleton.injOn
  apply Set.subsingleton_of_subset_singleton (a := sampleBlock)
  rintro data (member | member) <;>
    simpa [hashedStrings, HashChain.inputs, numbered, eq_comm] using member

/-- A reply with the right request under the number 7 is handed to the executor. -/
theorem misnumbered_reply_transferred :
    CorrectDigest sampleTransfer ({} : Replica).ckpt sampleVotes [] [numbered 1] ∧
      Set.InjOn sampleTransfer.crypto.sha256
        (hashedStrings sampleTransfer.crypto [] [numbered 1] ∪
          hashedStrings sampleTransfer.crypto [] [numbered 7]) ∧
      (sampleTransfer.transfer {} sampleVotes (fun _ _ _ => some [numbered 7])).executor.commitQueue
        = [numbered 7] ∧
      ¬ Faithful 0 [numbered 1] [numbered 7] := by
  refine ⟨sample_correct, sample_collision_free 7, by decide, fun faithful => ?_⟩
  obtain ⟨request, only, -⟩ := faithful 0 (numbered 1) rfl
  have none : [numbered 7].filter (fun request => request.seq = 0 + 1 + 0) = [] := by decide
  rw [none] at only
  cases only

end ResDB.Pbft
