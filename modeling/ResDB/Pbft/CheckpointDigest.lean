import Mathlib.Tactic
import ResDB.Pbft.StableCheckpoint

/-! What the digest of a checkpoint stands for. The executor hands the requests on in the
order of their numbers, `UpdateCheckPointStatus` hashes them into one string, and the string
at a number determines all hashes up to it. -/
namespace ResDB.Pbft
open Deployment (sampleDeployment)

namespace CheckPointManager
variable (D : Deployment) (id : Int) (m : CheckPointManager) {request : Request}

theorem digest_skips (other : request.seq ≠ m.lastSeq + 1) : m.digest D id request = (m, []) :=
  if_pos other

theorem digest_lastSeq (next : request.seq = m.lastSeq + 1) :
    (m.digest D id request).1.lastSeq = m.lastSeq + 1 := by
  unfold digest
  rw [if_neg (not_not.mpr next)]
  dsimp only
  split_ifs <;> rfl

theorem digest_lastHash (next : request.seq = m.lastSeq + 1) :
    (m.digest D id request).1.lastHash = getHash D.crypto m.lastHash request.hash := by
  unfold digest
  rw [if_neg (not_not.mpr next)]
  dsimp only
  split_ifs <;> rfl

theorem digest_sent {data : CheckPointData} (sent : data ∈ (m.digest D id request).2) :
    request.seq = m.lastSeq + 1 ∧
      data = ⟨request.seq, getHash D.crypto m.lastHash request.hash,
        D.crypto.signMessage id (getHash D.crypto m.lastHash request.hash)⟩ := by
  unfold digest at sent
  dsimp only at sent
  split_ifs at sent with other due
  · cases sent
  · exact ⟨not_not.mp other, List.mem_singleton.mp sent⟩
  · cases sent

/-- The loop of `UpdateCheckPointStatus` over the requests that it is given. -/
def digestAll : CheckPointManager → List Request → CheckPointManager × List CheckPointData
  | m, [] => (m, [])
  | m, request :: rest =>
      let (m', sent) := m.digest D id request
      let (m'', later) := digestAll m' rest
      (m'', sent ++ later)

theorem installStable_last : (m.installStable D).lastSeq = m.lastSeq ∧
    (m.installStable D).lastHash = m.lastHash := by
  unfold installStable
  split
  · exact ⟨rfl, rfl⟩
  · split_ifs <;> exact ⟨rfl, rfl⟩

theorem processCheckPoint_last (sender : Int) (data : Option CheckPointData) :
    (m.processCheckPoint D sender data).1.lastSeq = m.lastSeq ∧
      (m.processCheckPoint D sender data).1.lastHash = m.lastHash := by
  unfold processCheckPoint
  split
  · exact ⟨rfl, rfl⟩
  · split_ifs <;> exact ⟨rfl, rfl⟩

end CheckPointManager

def inOrder (last : ℕ) : List Request → List Request
  | [] => []
  | request :: rest =>
      if request.seq = last + 1 then request :: inOrder (last + 1) rest else inOrder last rest

theorem digestAll_inOrder (D : Deployment) (id : Int) (requests : List Request)
    (m : CheckPointManager) :
    m.digestAll D id requests = m.digestAll D id (inOrder m.lastSeq requests) := by
  induction requests generalizing m with
  | nil => rfl
  | cons request rest ih =>
      unfold inOrder
      split_ifs with next
      · simp only [CheckPointManager.digestAll]
        rw [ih, CheckPointManager.digest_lastSeq D id m next]
      · simp only [CheckPointManager.digestAll, CheckPointManager.digest_skips D id m next]
        rw [ih]
        rfl

def Replica.broadcast (D : Deployment) (id : Int) (r : Replica) :
    CheckpointEvent → List CheckPointData
  | .digest => ((D.updateCheckPointStatus r id).map Prod.snd).getD []
  | _ => []

def broadcasts (D : Deployment) (id : Int) : Replica → List CheckpointEvent → List CheckPointData
  | _, [] => []
  | r, e :: rest => r.broadcast D id e ++ broadcasts D id (r.checkpointStep D id e) rest

/-- The hashes of the requests that were executed with numbers up to `k`. -/
def Replica.executedHashes (r : Replica) (k : ℕ) : List Bytes :=
  (r.executor.executeQueue.filter (fun request => request.seq ≤ k)).map (fun q => q.hash)

/-- The executor hands on one request for every number, from 1 on. -/
structure Sequenced (e : Executor) : Prop where
  next : e.nextExecuteSeq = e.executeQueue.length + 1
  keyed : ∀ entry ∈ e.candidates.entries, entry.2.seq = entry.1
  numbered : e.executeQueue.map (fun request => request.seq) =
    List.range' 1 e.executeQueue.length

namespace Sequenced
variable {e e' : Executor}

theorem initial : Sequenced {} where
  next := rfl
  keyed := fun _ member => absurd member List.not_mem_nil
  numbered := rfl

theorem order (sequenced : Sequenced e) (done : e.order = some e') : Sequenced e' := by
  unfold Executor.order at done
  split at done
  · cases done
  · split_ifs at done
    · cases done
      exact ⟨sequenced.next, sequenced.keyed, sequenced.numbered⟩
    · cases done
      refine ⟨sequenced.next, fun entry member => ?_, sequenced.numbered⟩
      rcases (SortedMap.mem_insertNew _ _ _ _).mp member with old | ⟨rfl, -⟩
      · exact sequenced.keyed entry old
      · rfl

theorem order_executeQueue (done : e.order = some e') : e'.executeQueue = e.executeQueue := by
  unfold Executor.order at done
  split at done
  · cases done
  · split_ifs at done <;> cases done <;> rfl

theorem execute (sequenced : Sequenced e) (done : e.next = some e') :
    Sequenced e' ∧ ∃ request, e'.executeQueue = e.executeQueue ++ [request] := by
  unfold Executor.next at done
  split at done
  · cases done
  · rename_i seq message rest sorted entries
    split_ifs at done with head
    cases done
    have keyed : ∀ entry ∈ (seq, message) :: rest, entry.2.seq = entry.1 := by
      have all := sequenced.keyed
      rwa [entries] at all
    refine ⟨⟨?_, fun entry member => keyed entry (List.mem_cons_of_mem _ member), ?_⟩, message, rfl⟩
    · rw [List.length_append, sequenced.next]
      rfl
    · have last : message.seq = 1 + 1 * e.executeQueue.length := by
        have number := keyed (seq, message) List.mem_cons_self
        have next := sequenced.next
        dsimp only at number
        omega
      rw [List.map_append, sequenced.numbered, List.length_append, List.length_singleton,
        List.range'_concat, ← last]
      rfl

theorem seq_eq (sequenced : Sequenced e) {k : ℕ} {request : Request}
    (found : e.executeQueue[k]? = some request) : request.seq = k + 1 := by
  have bound : k < e.executeQueue.length := (List.getElem?_eq_some_iff.mp found).1
  have place := congrArg (fun list => list[k]?) sequenced.numbered
  simp only [List.getElem?_map, found, Option.map_some, List.getElem?_range' bound,
    Option.some_inj] at place
  omega

theorem filter_eq_take (sequenced : Sequenced e) (k : ℕ) :
    e.executeQueue.filter (fun request => request.seq ≤ k) = e.executeQueue.take k := by
  have numbered := sequenced.numbered
  revert numbered
  generalize e.executeQueue = queue
  intro numbered
  induction queue using List.reverseRecOn with
  | nil => rw [List.filter_nil, List.take_nil]
  | append_singleton queue request ih =>
      rw [List.map_append, List.length_append, List.length_singleton,
        List.range'_concat] at numbered
      obtain ⟨earlier, last⟩ := List.append_inj' numbered rfl
      have number : request.seq = 1 + 1 * queue.length := by simpa using last
      rw [List.filter_append, ih earlier, List.take_append]
      by_cases small : request.seq ≤ k
      · have whole : [request].length ≤ k - queue.length := by
          rw [List.length_singleton]
          omega
        rw [List.take_of_length_le (l := [request]) whole]
        simp [small]
      · rw [show k - queue.length = 0 by omega, List.take_zero]
        simp [small]

end Sequenced

/-- The digest covers a first part of what was executed, and so does each that was sent. -/
structure Digests (crypto : Crypto) (r : Replica) (sent : List CheckPointData) : Prop where
  sequenced : Sequenced r.executor
  within : r.ckpt.lastSeq ≤ r.executor.executeQueue.length
  lastHash : r.ckpt.lastHash =
    chainHash crypto [] (r.executor.executeQueue.take r.ckpt.lastSeq)
  sent : ∀ data ∈ sent, data.seq ≤ r.ckpt.lastSeq ∧
    data.hash = chainHash crypto [] (r.executor.executeQueue.take data.seq)

namespace Digests
variable {D : Deployment} {id : Int} {r r' : Replica} {sent : List CheckPointData}

theorem grown (digests : Digests D.crypto r sent) (sequenced : Sequenced r'.executor)
    (lastSeq : r'.ckpt.lastSeq = r.ckpt.lastSeq) (lastHash : r'.ckpt.lastHash = r.ckpt.lastHash)
    {more : List Request} (queue : r'.executor.executeQueue = r.executor.executeQueue ++ more) :
    Digests D.crypto r' sent := by
  have covered : ∀ k ≤ r.ckpt.lastSeq,
      r'.executor.executeQueue.take k = r.executor.executeQueue.take k := by
    intro k small
    rw [queue, List.take_append_of_le_length (small.trans digests.within)]
  refine ⟨sequenced, ?_, ?_, fun data member => ?_⟩
  · rw [lastSeq, queue, List.length_append]
    exact digests.within.trans (Nat.le_add_right _ _)
  · rw [lastSeq, lastHash, covered _ le_rfl, digests.lastHash]
  · obtain ⟨small, hash⟩ := digests.sent data member
    rw [lastSeq, covered _ small]
    exact ⟨small, hash⟩

theorem updateCheckPointStatus_cases {more : List CheckPointData}
    (done : D.updateCheckPointStatus r id = some (r', more)) :
    ∃ request, r.executor.executeQueue[r.ckpt.taken]? = some request ∧ ∃ before,
      before.lastSeq = r.ckpt.lastSeq ∧ before.lastHash = r.ckpt.lastHash ∧
      (r' = { r with ckpt := before } ∧ more = [] ∨
        r' = { r with ckpt := (before.digest D id request).1 } ∧
          more = (before.digest D id request).2) := by
  unfold Deployment.updateCheckPointStatus at done
  split at done
  · cases done
  · rename_i request found
    refine ⟨request, found, { r.ckpt with taken := r.ckpt.taken + 1 }, rfl, rfl, ?_⟩
    split_ifs at done with recovered
    · simp only [Option.some.injEq, Prod.mk.injEq] at done
      exact .inl ⟨done.1.symm, done.2.symm⟩
    · simp only [Option.some.injEq, Prod.mk.injEq] at done
      exact .inr ⟨done.1.symm, done.2.symm⟩

theorem digested (digests : Digests D.crypto r sent) {more : List CheckPointData}
    (done : D.updateCheckPointStatus r id = some (r', more)) :
    Digests D.crypto r' (sent ++ more) := by
  obtain ⟨request, found, before, lastSeqBefore, lastHashBefore, ⟨rfl, rfl⟩ | ⟨rfl, rfl⟩⟩ :=
    updateCheckPointStatus_cases done
  · rw [List.append_nil]
    exact digests.grown digests.sequenced lastSeqBefore lastHashBefore (List.append_nil _).symm
  by_cases next : request.seq = before.lastSeq + 1
  · have lastSeq := CheckPointManager.digest_lastSeq D id before next
    have lastHash := CheckPointManager.digest_lastHash D id before next
    -- the request is the one after those that the digest covers
    have number := digests.sequenced.seq_eq found
    rw [lastSeqBefore] at next
    have place : r.ckpt.taken = r.ckpt.lastSeq := Nat.succ.inj (number.symm.trans next)
    rw [place] at found
    obtain ⟨bound, here⟩ := List.getElem?_eq_some_iff.mp found
    have take : r.executor.executeQueue.take (r.ckpt.lastSeq + 1) =
        r.executor.executeQueue.take r.ckpt.lastSeq ++ [request] := by
      rw [List.take_succ_eq_append_getElem bound, here]
    have hash : CheckPointManager.getHash D.crypto r.ckpt.lastHash request.hash =
        chainHash D.crypto [] (r.executor.executeQueue.take (r.ckpt.lastSeq + 1)) := by
      rw [take, chainHash, List.map_append, HashChain.chain_append, digests.lastHash]
      rfl
    rw [lastSeqBefore] at lastSeq
    rw [lastHashBefore] at lastHash
    refine ⟨digests.sequenced, ?_, ?_, fun data member => ?_⟩
    · exact lastSeq.trans_le bound
    · rw [lastHash, lastSeq, hash]
    · rw [lastSeq]
      cases List.mem_append.mp member with
      | inl old =>
          obtain ⟨small, same⟩ := digests.sent data old
          exact ⟨small.trans (Nat.le_succ _), same⟩
      | inr new =>
          obtain ⟨-, rfl⟩ := CheckPointManager.digest_sent D id before new
          rw [next, lastHashBefore]
          exact ⟨le_rfl, hash⟩
  · rw [CheckPointManager.digest_skips D id before next, List.append_nil]
    exact digests.grown digests.sequenced lastSeqBefore lastHashBefore (List.append_nil _).symm

theorem foldl_commit_keeps (requests : List Request) (e : Executor) :
    (requests.foldl Executor.commit e).executeQueue = e.executeQueue ∧
      (Sequenced e → Sequenced (requests.foldl Executor.commit e)) := by
  induction requests generalizing e with
  | nil => exact ⟨rfl, id⟩
  | cons request rest ih =>
      obtain ⟨queue, sequenced⟩ := ih (e.commit request)
      exact ⟨queue, fun before => sequenced ⟨before.next, before.keyed, before.numbered⟩⟩

variable {reply : Int → ℕ → ℕ → Option (List Request)}

theorem transfer_keeps (r : Replica) (votes : CheckPointVotes) :
    (D.transfer r votes reply).ckpt.lastSeq = r.ckpt.lastSeq ∧
      (D.transfer r votes reply).ckpt.lastHash = r.ckpt.lastHash ∧
      ∃ requests : List Request,
        (D.transfer r votes reply).executor = requests.foldl Executor.commit r.executor := by
  unfold Deployment.transfer
  cases D.fetched r votes reply with
  | none => refine ⟨?_, ?_, [], rfl⟩ <;> dsimp only <;> split_ifs <;> rfl
  | some requests => refine ⟨?_, ?_, requests, rfl⟩ <;> dsimp only <;> split_ifs <;> rfl

theorem transfer (digests : Digests D.crypto r sent) (votes : CheckPointVotes) :
    Digests D.crypto (D.transfer r votes reply) sent := by
  obtain ⟨lastSeq, lastHash, requests, executor⟩ := transfer_keeps r votes
  obtain ⟨queue, sequenced⟩ := foldl_commit_keeps requests r.executor
  rw [← executor] at queue sequenced
  exact digests.grown (sequenced digests.sequenced) lastSeq lastHash
    (queue.trans (List.append_nil _).symm)

theorem round (digests : Digests D.crypto r sent)
    (done : D.updateStableCheckPointStatus r reply = some r') : Digests D.crypto r' sent := by
  have folded : ∀ (list : List ((ℕ ×ₗ List ℕ) × CheckPointVotes)) (r : Replica),
      Digests D.crypto r sent →
      Digests D.crypto (list.foldl (fun r entry => D.transfer r entry.2 reply) r) sent := by
    intro list
    induction list with
    | nil => exact fun _ digests => digests
    | cons entry rest ih => exact fun r digests => ih _ (digests.transfer entry.2)
  unfold Deployment.updateStableCheckPointStatus at done
  split_ifs at done
  cases done
  have before := folded r.ckpt.votes.entries r digests
  refine before.grown before.sequenced ?_ ?_ (List.append_nil _).symm
  · exact (CheckPointManager.installStable_last D _).1
  · exact (CheckPointManager.installStable_last D _).2

theorem step (digests : Digests D.crypto r sent) (e : CheckpointEvent) :
    Digests D.crypto (r.checkpointStep D id e) (sent ++ r.broadcast D id e) := by
  cases e with
  | message origin sender data =>
      simp only [Replica.broadcast, List.append_nil]
      refine digests.grown digests.sequenced ?_ ?_ (List.append_nil _).symm
      · exact (CheckPointManager.processCheckPoint_last D _ sender data).1
      · exact (CheckPointManager.processCheckPoint_last D _ sender data).2
  | round reply =>
      simp only [Replica.broadcast, List.append_nil, Replica.checkpointStep]
      cases done : D.updateStableCheckPointStatus r reply with
      | none => exact digests
      | some r' => exact digests.round done
  | commit request =>
      simp only [Replica.broadcast, List.append_nil]
      have same := digests.sequenced
      exact digests.grown ⟨same.next, same.keyed, same.numbered⟩ rfl rfl (List.append_nil _).symm
  | order =>
      simp only [Replica.broadcast, List.append_nil, Replica.checkpointStep]
      cases done : r.executor.order with
      | none => exact digests
      | some e' =>
          exact digests.grown (digests.sequenced.order done) rfl rfl
            ((Sequenced.order_executeQueue done).trans (List.append_nil _).symm)
  | execute =>
      simp only [Replica.broadcast, List.append_nil, Replica.checkpointStep]
      cases done : D.executeNext r with
      | none => exact digests
      | some r' =>
          obtain ⟨e', next, rfl⟩ := Option.map_eq_some_iff.mp done
          obtain ⟨sequenced, request, queue⟩ := digests.sequenced.execute next
          exact digests.grown sequenced rfl rfl queue
  | digest =>
      rw [Replica.broadcast, Replica.checkpointStep]
      cases done : D.updateCheckPointStatus r id with
      | none => exact (List.append_nil sent).symm ▸ digests
      | some out => exact digests.digested done

theorem run (digests : Digests D.crypto r sent) (id : Int) (events : List CheckpointEvent) :
    Digests D.crypto (events.foldl (Replica.checkpointStep D id) r)
      (sent ++ broadcasts D id r events) := by
  induction events generalizing r sent with
  | nil =>
      rw [broadcasts, List.append_nil]
      exact digests
  | cons e rest ih =>
      rw [broadcasts, ← List.append_assoc]
      exact ih (digests.step e)

theorem initial (crypto : Crypto) : Digests crypto {} [] where
  sequenced := .initial
  within := le_rfl
  lastHash := rfl
  sent := fun _ member => absurd member List.not_mem_nil

end Digests

theorem broadcast_digest {D : Deployment} {id : Int} {events : List CheckpointEvent}
    {data : CheckPointData} (sent : data ∈ broadcasts D id {} events) :
    data.hash = HashChain.chain D.crypto.sha256 []
        ((checkpointRun D id events).executedHashes data.seq) ∧
      ((checkpointRun D id events).executedHashes data.seq).length = data.seq := by
  have digests := (Digests.initial D.crypto).run id events
  obtain ⟨small, hash⟩ := digests.sent data sent
  rw [Replica.executedHashes, checkpointRun, digests.sequenced.filter_eq_take]
  refine ⟨hash, ?_⟩
  rw [List.length_map, List.length_take_of_le (small.trans digests.within)]

/-- Equal digests for a number are digests of equal hashes, at any two replicas, unless the
hash function has a collision among the strings that they hashed. And a digest does not
depend on what the loop skips. -/
theorem checkpoint_digest_binding (D : Deployment) :
    (∀ (i j : Int) (events events' : List CheckpointEvent) (data data' : CheckPointData),
      data ∈ broadcasts D i {} events → data' ∈ broadcasts D j {} events' →
      data.seq = data'.seq → data.hash = data'.hash →
      Set.InjOn D.crypto.sha256
        (HashChain.inputs D.crypto.sha256 []
            ((checkpointRun D i events).executedHashes data.seq) ∪
          HashChain.inputs D.crypto.sha256 []
            ((checkpointRun D j events').executedHashes data.seq)) →
      (checkpointRun D i events).executedHashes data.seq =
        (checkpointRun D j events').executedHashes data.seq) ∧
      ∀ (id : Int) (m : CheckPointManager) (requests : List Request),
        m.digestAll D id requests = m.digestAll D id (inOrder m.lastSeq requests) := by
  refine ⟨?_, fun id m requests => digestAll_inOrder D id requests m⟩
  intro i j events events' data data' sent sent' number same free
  obtain ⟨digest, count⟩ := broadcast_digest sent
  obtain ⟨digest', count'⟩ := broadcast_digest sent'
  rw [← number] at digest' count'
  apply HashChain.eq_of_chain_eq_of_length D.crypto.sha256_length (count.trans count'.symm) free
  rw [← digest, ← digest', same]

def sampleExecution (hashes : List Bytes) : List CheckpointEvent :=
  (hashes.mapIdx (fun k hash =>
    [.commit { seq := k + 1, hash := hash }, .order, .execute, .digest])).flatten

/-- Five hashes whose chain hashes one string over and over. -/
def sampleHashes : List Bytes := [sampleBlock ++ [7], [7], [7], [7], [7]]

def sampleCheckpoint (id : Int) : CheckPointData :=
  ⟨5, sampleBlock, Crypto.sample.signMessage id sampleBlock⟩

/-- Replica 2 sees another request for number 1, too late. -/
theorem sample_digests_bind :
    sampleCheckpoint 1 ∈ broadcasts sampleDeployment 1 {} (sampleExecution sampleHashes) ∧
      (checkpointRun sampleDeployment 1 (sampleExecution sampleHashes)).executedHashes 5 =
        (checkpointRun sampleDeployment 2 (sampleExecution sampleHashes ++
          [.commit { seq := 1, hash := [9] }, .order, .execute, .digest])).executedHashes 5 := by
  have sent : sampleCheckpoint 1 ∈
      broadcasts sampleDeployment 1 {} (sampleExecution sampleHashes) := by decide +kernel
  refine ⟨sent, (checkpoint_digest_binding sampleDeployment).1 1 2 _ _ (sampleCheckpoint 1)
    (sampleCheckpoint 2) sent (by decide +kernel) rfl rfl ?_⟩
  have first : (checkpointRun sampleDeployment 1
      (sampleExecution sampleHashes)).executedHashes 5 = sampleHashes := by decide +kernel
  have second : (checkpointRun sampleDeployment 2 (sampleExecution sampleHashes ++
      [.commit { seq := 1, hash := [9] }, .order, .execute, .digest])).executedHashes 5 =
        sampleHashes := by decide +kernel
  change Set.InjOn _ (HashChain.inputs _ [] (Replica.executedHashes _ 5) ∪
    HashChain.inputs _ [] (Replica.executedHashes _ 5))
  rw [first, second, Set.union_self]
  have hashed : Crypto.sample.sha256 (sampleBlock ++ [7]) = sampleBlock := by decide
  refine Set.InjOn.mono ?_ (Set.injOn_singleton _ (sampleBlock ++ [7]))
  intro string member
  simpa [sampleHashes, HashChain.inputs, sampleDeployment, hashed] using member

end ResDB.Pbft
