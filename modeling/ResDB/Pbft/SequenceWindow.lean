import ResDB.Library.PartnerRing
import ResDB.Pbft.Agreement

/-! The numbers that a replica has collectors for, and the numbers that `AssignNextSeq`
gives out. The executor completes the numbers in order, so the ring moves on by one with
each of them. -/
namespace ResDB.Pbft

/-- `GetCapacity` in its 32 bits: the loop ends at the first power of two above the size. -/
def getCapacity32 (size : UInt32) : Option UInt32 :=
  ((List.range 32).find? (fun i => size < 1 <<< UInt32.ofNat i)).map (fun i =>
    1 <<< UInt32.ofNat i)

/-- `capacity_` and `mask_` of `LockFreeCollectorPool::LockFreeCollectorPool`. -/
def poolShape (size : UInt32) : Option (UInt32 × UInt32) :=
  (getCapacity32 (size * 2)).map (fun capacity => (capacity, (capacity <<< 1) - 1))

theorem getCapacity_power (size : ℕ) : ∃ b, getCapacity size = 2 ^ b := by
  unfold getCapacity
  split_ifs
  · exact ⟨0, rfl⟩
  · exact ⟨_, rfl⟩

theorem lt_getCapacity (size : ℕ) : size < getCapacity size := by
  unfold getCapacity
  split_ifs with empty
  · omega
  · exact Nat.lt_log2_self

theorem two_pow_le_of_lt_getCapacity {size i : ℕ} (below : 2 ^ i < getCapacity size) :
    2 ^ i ≤ size := by
  unfold getCapacity at below
  split_ifs at below with empty
  · have := Nat.two_pow_pos i
    omega
  · have small : i ≤ Nat.log2 size := by
      have := (Nat.pow_lt_pow_iff_right (by decide)).mp below
      omega
    exact (Nat.pow_le_pow_right (by decide) small).trans (Nat.log2_self_le empty)

theorem toNat_one_shiftLeft {i : ℕ} (below : i < 32) :
    ((1 : UInt32) <<< UInt32.ofNat i).toNat = 2 ^ i := by
  have place : (UInt32.ofNat i).toNat % 32 = i := by
    rw [UInt32.toNat_ofNat']
    omega
  have fits : 2 ^ i < 2 ^ 32 := Nat.pow_lt_pow_right (by decide) below
  rw [UInt32.toNat_shiftLeft, place, UInt32.toNat_one, Nat.one_shiftLeft, Nat.mod_eq_of_lt fits]

theorem getCapacity32_eq (size : UInt32) (small : size.toNat < 2 ^ 31) :
    ∃ capacity, getCapacity32 size = some capacity ∧ capacity.toNat = getCapacity size.toNat := by
  obtain ⟨b, power⟩ := getCapacity_power size.toNat
  have place : b < 32 := by
    by_contra large
    have below : 2 ^ 31 < getCapacity size.toNat := by
      rw [power]
      exact Nat.pow_lt_pow_right (by decide) (by omega)
    have := two_pow_le_of_lt_getCapacity below
    omega
  refine ⟨1 <<< UInt32.ofNat b, ?_, by rw [toNat_one_shiftLeft place, power]⟩
  rw [getCapacity32, Option.map_eq_some_iff]
  refine ⟨b, List.find?_range_eq_some.mpr ⟨?_, List.mem_range.mpr place, ?_⟩, rfl⟩
  · rw [decide_eq_true_eq, UInt32.lt_iff_toNat_lt, toNat_one_shiftLeft place, ← power]
    exact lt_getCapacity _
  · intro j earlier
    have below : 2 ^ j < getCapacity size.toNat := by
      rw [power]
      exact Nat.pow_lt_pow_right (by decide) earlier
    have reached := two_pow_le_of_lt_getCapacity below
    rw [Bool.not_eq_true', decide_eq_false_iff_not, UInt32.lt_iff_toNat_lt,
      toNat_one_shiftLeft (by omega)]
    omega

theorem poolShape_eq (size : UInt32) (small : size.toNat < 2 ^ 29) :
    ∃ capacity mask, poolShape size = some (capacity, mask) ∧
      capacity.toNat = getCapacity (2 * size.toNat) ∧
      mask.toNat = 2 * getCapacity (2 * size.toNat) - 1 := by
  have double : (size * 2).toNat = 2 * size.toNat := by
    rw [UInt32.toNat_mul]
    change size.toNat * 2 % 2 ^ 32 = _
    omega
  obtain ⟨capacity, found, value⟩ := getCapacity32_eq (size * 2) (by omega)
  rw [double] at value
  have bound : getCapacity (2 * size.toNat) ≤ 2 ^ 30 := by
    by_contra large
    have := two_pow_le_of_lt_getCapacity (not_le.mp large)
    omega
  have positive := lt_getCapacity (2 * size.toNat)
  have shifted : (capacity <<< 1).toNat = 2 * getCapacity (2 * size.toNat) := by
    rw [UInt32.toNat_shiftLeft, value, UInt32.toNat_one, Nat.shiftLeft_eq,
      Nat.mod_eq_of_lt (show 1 < 32 by decide), pow_one]
    omega
  refine ⟨capacity, (capacity <<< 1) - 1, by rw [poolShape, found]; rfl, value, ?_⟩
  rw [UInt32.toNat_sub_of_le, shifted, UInt32.toNat_one]
  rw [UInt32.le_iff_toNat_le, shifted, UInt32.toNat_one]
  omega

def collectorKind : PartnerRing.Kind Collector where
  seq := Collector.seq
  fresh s := { seq := s }
  seq_fresh _ := rfl

namespace Deployment
variable (D : Deployment)

theorem capacity_power : ∃ b, D.capacity = 2 ^ b := getCapacity_power _

theorem index_eq : D.index = PartnerRing.index D.capacity := rfl

theorem update_eq (pool : ℕ → Collector) (seq : ℕ) :
    D.update pool seq = PartnerRing.update collectorKind D.capacity pool seq := rfl

theorem assignNextSeq_fst (r : Replica) (bounded : r.nextSeq < 2 ^ 64)
    (limit : D.maxProcessTxn < 2 ^ 32) :
    (D.assignNextSeq r).map Prod.fst =
      if r.executor.getMaxPendingExecutedSeq % 2 ^ 32 ≤ r.nextSeq ∧
          r.nextSeq ≤ r.executor.getMaxPendingExecutedSeq % 2 ^ 32 + D.maxProcessTxn
      then some r.nextSeq else none := by
  have cut := Nat.mod_lt r.executor.getMaxPendingExecutedSeq (show 0 < 2 ^ 32 by decide)
  unfold assignNextSeq
  dsimp only
  generalize r.executor.getMaxPendingExecutedSeq % 2 ^ 32 = executed at cut ⊢
  by_cases inside : executed ≤ r.nextSeq ∧ r.nextSeq ≤ executed + D.maxProcessTxn
  · rw [if_pos inside, if_neg (by omega)]
    rfl
  · rw [if_neg inside, if_pos (by omega)]
    rfl

/-- `AssignNextSeq` succeeds with the next number exactly inside the window above the
executed one. -/
def AdmitsWindow (r : Replica) : Prop :=
  (D.assignNextSeq r).map Prod.fst = some r.nextSeq ↔
    r.executor.getMaxPendingExecutedSeq < r.nextSeq ∧
      r.nextSeq ≤ r.executor.getMaxPendingExecutedSeq + D.maxProcessTxn

/-- With an executed number of 32 bits only the executed number itself is admitted
wrongly. With a larger one the window is that of its lower 32 bits. -/
theorem admitsWindow_iff (r : Replica) (bounded : r.nextSeq < 2 ^ 64)
    (limit : D.maxProcessTxn < 2 ^ 32) :
    D.AdmitsWindow r ↔
      if r.executor.getMaxPendingExecutedSeq < 2 ^ 32 then
        r.nextSeq ≠ r.executor.getMaxPendingExecutedSeq
      else
        (r.nextSeq < r.executor.getMaxPendingExecutedSeq % 2 ^ 32 ∨
          r.executor.getMaxPendingExecutedSeq % 2 ^ 32 + D.maxProcessTxn < r.nextSeq) ∧
        (r.nextSeq ≤ r.executor.getMaxPendingExecutedSeq ∨
          r.executor.getMaxPendingExecutedSeq + D.maxProcessTxn < r.nextSeq) := by
  rw [AdmitsWindow, assignNextSeq_fst D r bounded limit]
  generalize r.executor.getMaxPendingExecutedSeq = executed
  rw [ite_eq_left_iff]
  simp only [reduceCtorEq, imp_false, not_not]
  split_ifs with small
  · rw [Nat.mod_eq_of_lt small]
    omega
  · have cut : executed % 2 ^ 32 + 2 ^ 32 ≤ executed := by omega
    omega

/-- A replica that has executed 41 requests and given out the numbers up to 44. -/
def sampleBusy : Replica := { nextSeq := 45, executor := { nextExecuteSeq := 42 } }

theorem admitsWindow_busy : sampleBusy.executor.getMaxPendingExecutedSeq = 41 ∧
    (sampleDeployment.assignNextSeq sampleBusy).map Prod.fst = some 45 := by
  have window := (admitsWindow_iff sampleDeployment sampleBusy (by decide) (by decide)).mpr
    (by decide)
  exact ⟨rfl, window.mpr (by decide)⟩

end Deployment

/-! ### The window along a run -/

theorem Collector.addRequest_seq (quorum : ℕ) (enableViewchange : Bool) (c : Collector)
    (info : RequestInfo) : (c.addRequest quorum enableViewchange info).1.seq = c.seq := by
  have main : (c.addMain quorum info).1.seq = c.seq := by
    unfold addMain
    dsimp only
    split <;> rfl
  have prepare : (c.addPrepare quorum info).1.seq = c.seq := by
    unfold addPrepare
    dsimp only
    split_ifs <;> rfl
  have vote : (c.addVote quorum info).1.seq = c.seq := by
    obtain ⟨certs, noted⟩ := noteCert_cases c info
    unfold addVote
    rw [noted]
    dsimp only
    split_ifs
    · exact commit_seq _
    · rfl
  unfold addRequest
  split_ifs
  · rfl
  · rfl
  · rfl
  · exact main
  · exact prepare
  · exact vote

namespace Deployment
variable {D : Deployment} {id : Int} {r : Replica} {info : RequestInfo}

/-- The executor's next number and the numbers of the collectors stay as they are. -/
structure Unmoved (r r' : Replica) : Prop where
  nextExecuteSeq : r'.executor.nextExecuteSeq = r.executor.nextExecuteSeq
  seq : ∀ i, (r'.pool i).seq = (r.pool i).seq

theorem Unmoved.refl (r : Replica) : Unmoved r r := ⟨rfl, fun _ => rfl⟩

theorem Unmoved.trans {r r' r'' : Replica} (first : Unmoved r r') (second : Unmoved r' r'') :
    Unmoved r r'' :=
  ⟨second.nextExecuteSeq.trans first.nextExecuteSeq, fun i => (second.seq i).trans (first.seq i)⟩

theorem addConsensusMsg_unmoved (r : Replica) (info : RequestInfo) :
    Unmoved r (D.addConsensusMsg r info).1 := by
  have added := Collector.addRequest_seq D.quorum D.enableViewchange
    (D.collector r info.request.seq) info
  unfold addConsensusMsg
  dsimp only
  generalize (D.collector r info.request.seq).addRequest D.quorum D.enableViewchange info =
    result at added ⊢
  have moved : ∀ handed, Unmoved r { r with
      pool := Function.update r.pool (D.index info.request.seq) result.1
      executor := result.2.handed.elim r.executor r.executor.commit
      handed := handed } := by
    intro handed
    constructor
    · cases result.2.handed <;> rfl
    · intro i
      dsimp only
      by_cases here : i = D.index info.request.seq
      · rw [here, Function.update_self]
        exact added
      · rw [Function.update_of_ne here]
  split_ifs
  · exact moved _
  · exact moved _
  · exact moved _
  · exact .refl r

theorem processProposeMsg_unmoved (id : Int) (r : Replica) (info : RequestInfo) :
    Unmoved r (D.processProposeMsg id r info).1 := by
  have recovered : Unmoved r (noteRecovered r info) := by
    unfold noteRecovered
    split_ifs <;> exact ⟨rfl, fun _ => rfl⟩
  have proposed : Unmoved r (noteProposed id r info) := by
    unfold noteProposed
    split_ifs <;> exact ⟨rfl, fun _ => rfl⟩
  unfold processProposeMsg
  dsimp only
  split_ifs
  · exact .refl r
  · exact recovered.trans (addConsensusMsg_unmoved _ info)
  · exact .refl r
  · exact .refl r
  · exact proposed.trans (addConsensusMsg_unmoved _ info)
  · exact proposed.trans (addConsensusMsg_unmoved _ info)

theorem processNewRequest_unmoved (id : Int) (r : Replica) (info : RequestInfo) :
    Unmoved r (D.processNewRequest id r info).1 := by
  unfold processNewRequest
  split_ifs
  · exact .refl r
  · exact .refl r
  · exact .refl r
  · exact .refl r
  · exact .refl r
  · split
    · exact .refl r
    · rename_i seq r' assigned
      simp only [assignNextSeq] at assigned
      split_ifs at assigned
      cases assigned
      exact ⟨rfl, fun _ => rfl⟩

theorem internalConsensusCommit_unmoved (id : Int) (r : Replica) (info : RequestInfo) :
    Unmoved r (D.internalConsensusCommit id r info).1 := by
  have added := addConsensusMsg_unmoved (D := D) r info
  unfold internalConsensusCommit
  split
  · exact processNewRequest_unmoved id r info
  · exact processProposeMsg_unmoved id r info
  · unfold processPrepareMsg
    dsimp only
    split_ifs
    · exact .refl r
    · exact added
    · exact ⟨added.nextExecuteSeq, added.seq⟩
    · exact added
  · unfold processCommitMsg
    dsimp only
    split_ifs
    · exact .refl r
    · exact added
    · exact added
  · exact .refl r

theorem redo_unmoved {request : Request} {r' : Replica} (done : D.redo r request = some r') :
    Unmoved r r' := by
  unfold redo at done
  split at done
  · split_ifs at done
    obtain ⟨hashes, -, rfl⟩ := Option.map_eq_some_iff.mp done
    exact ⟨rfl, fun _ => rfl⟩
  · cases done
    exact ⟨rfl, fun _ => rfl⟩

theorem foldlM_redo_unmoved {requests : List Request} {r' : Replica}
    (done : requests.foldlM D.redo r = some r') : Unmoved r r' := by
  induction requests generalizing r with
  | nil =>
      cases done
      exact .refl _
  | cons request rest ih =>
      obtain ⟨mid, first, later⟩ := Option.bind_eq_some_iff.mp done
      exact (redo_unmoved first).trans (ih later)

theorem processNewView_unmoved {nv : NewViewMessage} {r' : Replica} {ret : Int}
    {sent : List RequestInfo} (done : D.processNewView id r (some nv) = some (r', ret, sent)) :
    Unmoved r r' := by
  rcases processNewView_cases (D := D) id r nv with
    ⟨-, refused⟩ | ⟨-, -, crashed⟩ | ⟨-, -, ⟨-, refused⟩ | ⟨-, installs⟩⟩
  · rw [refused] at done
    cases done
    exact .refl _
  · rw [crashed] at done
    cases done
  · rw [refused] at done
    cases done
    exact .refl _
  · rw [installs] at done
    obtain ⟨last, redone, same⟩ := Option.map_eq_some_iff.mp done
    cases same
    have moved := foldlM_redo_unmoved redone
    exact ⟨moved.nextExecuteSeq, moved.seq⟩

theorem transfer_unmoved (r : Replica) (votes : CheckPointVotes)
    (reply : Int → ℕ → ℕ → Option (List Request)) : Unmoved r (D.transfer r votes reply) := by
  have queued : ∀ (requests : List Request) (e : Executor),
      (requests.foldl Executor.commit e).nextExecuteSeq = e.nextExecuteSeq := by
    intro requests
    induction requests with
    | nil => exact fun _ => rfl
    | cons request rest ih => exact fun e => ih (e.commit request)
  unfold transfer
  dsimp only
  split
  · exact ⟨rfl, fun _ => rfl⟩
  · exact ⟨queued _ _, fun _ => rfl⟩

theorem updateStableCheckPointStatus_unmoved {r' : Replica}
    {reply : Int → ℕ → ℕ → Option (List Request)}
    (done : D.updateStableCheckPointStatus r reply = some r') : Unmoved r r' := by
  have folded : ∀ (list : List ((ℕ ×ₗ List ℕ) × CheckPointVotes)) (r : Replica),
      Unmoved r (list.foldl (fun r entry => D.transfer r entry.2 reply) r) := by
    intro list
    induction list with
    | nil => exact Unmoved.refl
    | cons entry rest ih => exact fun r => (transfer_unmoved r entry.2 reply).trans (ih _)
  unfold updateStableCheckPointStatus at done
  split_ifs at done
  cases done
  have moved := folded r.ckpt.votes.entries r
  exact ⟨moved.nextExecuteSeq, moved.seq⟩

/-- The numbers around the executed one have their own collectors. -/
structure Centred (D : Deployment) (r : Replica) : Prop where
  positive : 1 ≤ r.executor.nextExecuteSeq
  window : PartnerRing.Window collectorKind D.capacity r.executor.getMaxPendingExecutedSeq r.pool

theorem Centred.of_unmoved {r' : Replica} (centred : Centred D r) (moved : Unmoved r r') :
    Centred D r' where
  positive := moved.nextExecuteSeq ▸ centred.positive
  window := by
    intro s lower upper
    rw [Executor.getMaxPendingExecutedSeq, moved.nextExecuteSeq] at lower upper
    exact (moved.seq _).trans (centred.window s lower upper)

theorem Centred.executeNext {r' : Replica} (centred : Centred D r)
    (done : D.executeNext r = some r') : Centred D r' := by
  obtain ⟨pool, -, -⟩ := System.executeNext_pool done
  have next : r'.executor.nextExecuteSeq = r.executor.nextExecuteSeq + 1 := by
    obtain ⟨e, next, rfl⟩ := Option.map_eq_some_iff.mp done
    unfold Executor.next at next
    split at next
    · cases next
    · split_ifs at next
      cases next
      rfl
  have positive := centred.positive
  have executed : r'.executor.getMaxPendingExecutedSeq =
      r.executor.getMaxPendingExecutedSeq + 1 := by
    unfold Executor.getMaxPendingExecutedSeq
    omega
  have number : r.executor.nextExecuteSeq = r.executor.getMaxPendingExecutedSeq + 1 := by
    unfold Executor.getMaxPendingExecutedSeq
    omega
  refine ⟨by omega, ?_⟩
  rw [pool, executed, update_eq, number]
  exact centred.window.update D.capacity_power

theorem centred_initial : Centred D {} :=
  ⟨le_rfl, PartnerRing.window_initial D.capacity_power⟩

end Deployment

namespace System
open Deployment (sampleDeployment bareNewView)
variable {D : Deployment} {byz : Finset Int} {s s' : System} {a : Action}

theorem receive_unmoved {id : Int} {m : Message} (done : s.receive D id m = some s') :
    ∃ r sent, s' = s.update id r sent ∧ Deployment.Unmoved (s.replica id) r := by
  cases m with
  | consensus info =>
      rw [receive, Option.ite_none_right_eq_some] at done
      cases done.2
      exact ⟨_, _, rfl, Deployment.internalConsensusCommit_unmoved id _ info⟩
  | checkpoint sender data =>
      cases done
      exact ⟨_, _, rfl, ⟨rfl, fun _ => rfl⟩⟩
  | viewChange sender vc =>
      obtain ⟨⟨r, ret, sent⟩, processed, rfl⟩ := Option.map_eq_some_iff.mp done
      obtain ⟨stored, status, told, rfl⟩ := processViewChange_same processed
      exact ⟨_, _, rfl, ⟨rfl, fun _ => rfl⟩⟩
  | newView sender nv =>
      obtain ⟨⟨r, ret, sent⟩, processed, rfl⟩ := Option.map_eq_some_iff.mp done
      exact ⟨_, _, rfl, Deployment.processNewView_unmoved processed⟩

theorem act_unmoved {id : Int} {r : Replica} {sent : List Message}
    (done : s.act D a = some (id, r, sent)) :
    Deployment.Unmoved (s.replica id) r ∨ D.executeNext (s.replica id) = some r := by
  cases a with
  | order id =>
      obtain ⟨e, ordered, same⟩ := Option.map_eq_some_iff.mp done
      cases same
      refine .inl ⟨?_, fun _ => rfl⟩
      unfold Executor.order at ordered
      split at ordered
      · cases ordered
      · split_ifs at ordered <;>
        · cases ordered
          rfl
  | execute id =>
      obtain ⟨r', executed, same⟩ := Option.map_eq_some_iff.mp done
      cases same
      exact .inr executed
  | digest id =>
      rw [act, Option.ite_none_right_eq_some] at done
      obtain ⟨⟨r', sent'⟩, digested, same⟩ := Option.map_eq_some_iff.mp done.2
      cases same
      obtain ⟨ckpt, rfl⟩ := updateCheckPoint_same digested
      exact .inl ⟨rfl, fun _ => rfl⟩
  | stabilise id reply =>
      rw [act, Option.ite_none_right_eq_some] at done
      obtain ⟨r', stable, same⟩ := Option.map_eq_some_iff.mp done.2
      cases same
      exact .inl (Deployment.updateStableCheckPointStatus_unmoved stable)
  | timeout id =>
      rw [act, Option.ite_none_right_eq_some] at done
      cases done.2
      exact .inl ⟨rfl, fun _ => rfl⟩
  | resume id =>
      rw [act, Option.ite_none_right_eq_some] at done
      cases done.2
      exact .inl ⟨rfl, fun _ => rfl⟩
  | expire id hash =>
      cases done
      exact .inl ⟨rfl, fun _ => rfl⟩
  | _ => cases done

theorem step_unmoved (taken : s.step D byz a = some s') (j : Int) :
    Deployment.Unmoved (s.replica j) (s'.replica j) ∨
      D.executeNext (s.replica j) = some (s'.replica j) := by
  have stays : ∀ j, Deployment.Unmoved (s.replica j) (s.replica j) ∨
      D.executeNext (s.replica j) = some (s.replica j) := fun _ => .inl (.refl _)
  have moved : ∀ {id : Int} {r : Replica} (sent : List Message),
      Deployment.Unmoved (s.replica id) r ∨ D.executeNext (s.replica id) = some r →
      Deployment.Unmoved (s.replica j) ((s.update id r sent).replica j) ∨
        D.executeNext (s.replica j) = some ((s.update id r sent).replica j) :=
    fun sent one => update_forall (fun j r => Deployment.Unmoved (s.replica j) r ∨
      D.executeNext (s.replica j) = some r) s sent one stays j
  cases a with
  | client info =>
      rw [step, Option.ite_none_right_eq_some] at taken
      cases taken.2
      exact stays j
  | inject m =>
      cases taken
      exact stays j
  | deliver id m =>
      rw [step, Option.ite_none_right_eq_some] at taken
      obtain ⟨r, sent, rfl, one⟩ := receive_unmoved taken.2
      exact moved sent (.inl one)
  | expire id hash =>
      obtain ⟨id, r, sent, acted, -, rfl⟩ := step_act (a := .expire id hash) taken
      exact moved sent (act_unmoved acted)
  | _ =>
      obtain ⟨id, r, sent, acted, -, rfl⟩ := step_act taken
      exact moved sent (act_unmoved acted)

theorem run_centred {as : List Action} (ran : Run.exec (step D byz) {} as = some s) :
    ∀ j, Deployment.Centred D (s.replica j) := by
  have keep : ∀ (s : System) (a : Action) (s' : System),
      (∀ j, Deployment.Centred D (s.replica j)) → s.step D byz a = some s' →
        ∀ j, Deployment.Centred D (s'.replica j) := by
    intro s a s' centred taken j
    rcases step_unmoved taken j with moved | done
    · exact (centred j).of_unmoved moved
    · exact (centred j).executeNext done
  exact Run.exec_invariant_always keep (fun _ => Deployment.centred_initial) ran

/-- The window of the ring: it is the one the constructor lays out, it follows the
completed numbers, an update leaves alone the numbers less than half a turn away, and what
`AssignNextSeq` gives out is inside. It is so even between the step of the executor and
the update that the ring gets for it, since the number is below the end of the window. -/
theorem ring_window (D : Deployment) (small : D.maxProcessTxn < 2 ^ 29) :
    (∃ capacity mask, poolShape (UInt32.ofNat D.maxProcessTxn) = some (capacity, mask) ∧
      capacity.toNat = D.capacity ∧ mask.toNat = D.mask) ∧
    (∀ k seq, k + 1 ≤ seq + D.capacity → seq ≤ k + D.capacity →
      ((List.range' 1 k).foldl D.update (fun i => { seq := i }) (D.index seq)).seq = seq) ∧
    (∀ (pool : ℕ → Collector) (j seq : ℕ), j + 1 ≤ seq + D.capacity → seq + 1 ≤ j + D.capacity →
      D.update pool j (D.index seq) = pool (D.index seq)) ∧
    ∀ (byz : Finset Int) (as : List Action) (s : System) (id : Int) (seq : ℕ) (r : Replica),
      Run.exec (step D byz) {} as = some s →
      (s.replica id).nextSeq < 2 ^ 32 →
      (s.replica id).executor.getMaxPendingExecutedSeq < 2 ^ 32 →
      D.assignNextSeq (s.replica id) = some (seq, r) →
      (s.replica id).executor.getMaxPendingExecutedSeq + 1 ≤ seq + D.capacity ∧
        seq + 1 ≤ (s.replica id).executor.getMaxPendingExecutedSeq + D.capacity ∧
        (D.collector (s.replica id) seq).seq = seq := by
  have power := D.capacity_power
  refine ⟨?_, fun k seq => PartnerRing.window_range' (K := collectorKind) power k seq,
    fun pool j seq lower upper =>
      PartnerRing.update_of_near (K := collectorKind) power lower upper, ?_⟩
  · have size : (UInt32.ofNat D.maxProcessTxn).toNat = D.maxProcessTxn := by
      rw [UInt32.toNat_ofNat']
      omega
    obtain ⟨capacity, mask, shape, first, second⟩ :=
      poolShape_eq (UInt32.ofNat D.maxProcessTxn) (by omega)
    rw [size, Nat.mul_comm 2 D.maxProcessTxn] at first second
    exact ⟨capacity, mask, shape, first, second⟩
  · intro byz as s id seq r ran bounded executed assigned
    have given := Deployment.assignNextSeq_fst D (s.replica id) (by omega) (by omega)
    rw [assigned, Option.map_some, Nat.mod_eq_of_lt executed, eq_comm,
      Option.ite_none_right_eq_some, Option.some_inj] at given
    obtain ⟨⟨lower, upper⟩, rfl⟩ := given
    have room : D.maxProcessTxn * 2 < D.capacity := lt_getCapacity _
    have positive := PartnerRing.capacity_pos power
    refine ⟨by omega, by omega, ?_⟩
    exact (run_centred ran id).window _ (by omega) (by omega)

theorem ring_window_sample : sampleDeployment.maxProcessTxn < 2 ^ 29 ∧
    (sampleDeployment.update (fun i => { seq := i }) 1 (sampleDeployment.index 257)).seq = 257 :=
  ⟨by decide, (ring_window sampleDeployment (by decide)).2.1 1 257 (by decide) (by decide)⟩

/-- Replica 2 has executed two numbers when the Byzantine replica 4 sends it a message for
view 2 that names no view-change messages. It is the primary of that view, and its next
number is again 2. -/
def sampleRewound : List Action :=
  sampleAgreement sampleDeployment 1 ++ sampleAgreement sampleDeployment 2 ++
    [Action.order 2, .order 2, .execute 2, .execute 2, .inject (.newView 4 bareNewView),
      .deliver 2 (.newView 4 bareNewView)]

theorem executed_number_assigned : ∃ s,
    Run.exec (step sampleDeployment {4}) {} sampleRewound = some s ∧
      (s.replica 2).primary = 2 ∧ (s.replica 2).executor.getMaxPendingExecutedSeq = 2 ∧
      (sampleDeployment.assignNextSeq (s.replica 2)).map Prod.fst = some 2 ∧
      ¬ sampleDeployment.AdmitsWindow (s.replica 2) := by
  obtain ⟨s, ran, facts⟩ := (Option.any_eq_true _ _).mp
    (show (Run.exec (step sampleDeployment {4}) {} sampleRewound).any (fun s =>
      decide ((s.replica 2).primary = 2 ∧ (s.replica 2).nextSeq = 2 ∧
        (s.replica 2).executor.getMaxPendingExecutedSeq = 2 ∧
        (sampleDeployment.assignNextSeq (s.replica 2)).map Prod.fst = some 2)) = true by
      decide +kernel)
  obtain ⟨primary, next, executed, assigned⟩ := of_decide_eq_true facts
  refine ⟨s, ran, primary, executed, assigned, fun admits => ?_⟩
  have above := (admits.mp (assigned.trans (congrArg some next.symm))).1
  omega

end System
end ResDB.Pbft
