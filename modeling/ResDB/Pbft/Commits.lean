import Mathlib.Tactic
import ResDB.Pbft.NewView
import ResDB.Pbft.System

/-! The COMMITs of a run: who sends them, which collectors count them, and what they say
about the requests that reach an executor. -/
namespace ResDB.Pbft
open TdHotstuff (replicas)
open Deployment (Collected Redone)

namespace System
variable {D : Deployment} {byz : Finset Int} {s s' : System} {a : Action}

def Sent (s : System) (request : Request) : Prop :=
  ∃ sign, Message.consensus ⟨request, sign⟩ ∈ s.network

inductive PoolMove (D : Deployment) (s : System) (a : Action) (id : Int) (r r' : Replica) :
    Prop where
  | same (pool : r'.pool = r.pool) (handed : r'.handed = r.handed)
  | collected {info : RequestInfo} {result : Collector × AddResult}
      (taken : a = .deliver id (.consensus info)) (member : .consensus info ∈ s.network)
      (valid : admissible D.crypto D.codec info = true)
      (reached : Collected D r info result r')
  | replaced (taken : a = .execute id)
      (pool : r'.pool = D.update r.pool r.executor.nextExecuteSeq)
      (handed : r'.handed = r.handed) (view : r'.view = r.view)

theorem executeNext_pool {r r' : Replica} (done : D.executeNext r = some r') :
    r'.pool = D.update r.pool r.executor.nextExecuteSeq ∧ r'.handed = r.handed ∧
      r'.view = r.view := by
  obtain ⟨e, next, rfl⟩ := Option.map_eq_some_iff.mp done
  have moved : e.nextExecuteSeq - 1 = r.executor.nextExecuteSeq := by
    unfold Executor.next at next
    split at next
    · cases next
    · split_ifs at next
      cases next
      exact Nat.add_sub_cancel _ _
  exact ⟨by rw [moved], rfl, rfl⟩

theorem transfer_same (r : Replica) (votes : CheckPointVotes)
    (reply : Int → ℕ → ℕ → Option (List Request)) :
    ∃ ckpt executor highest, D.transfer r votes reply =
      { r with ckpt := ckpt, executor := executor, highestPreparedSeq := highest } := by
  unfold Deployment.transfer
  cases D.fetched r votes reply with
  | none => exact ⟨_, r.executor, r.highestPreparedSeq, rfl⟩
  | some requests => exact ⟨_, _, _, rfl⟩

theorem updateStable_same {r r' : Replica} {reply : Int → ℕ → ℕ → Option (List Request)}
    (done : D.updateStableCheckPointStatus r reply = some r') :
    ∃ ckpt executor highest, r' =
      { r with ckpt := ckpt, executor := executor, highestPreparedSeq := highest } := by
  have folded : ∀ (list : List ((ℕ ×ₗ List ℕ) × CheckPointVotes)) (r : Replica),
      ∃ ckpt executor highest, list.foldl (fun r entry => D.transfer r entry.2 reply) r =
        { r with ckpt := ckpt, executor := executor, highestPreparedSeq := highest } := by
    intro list
    induction list with
    | nil => exact fun r => ⟨r.ckpt, r.executor, r.highestPreparedSeq, rfl⟩
    | cons entry rest ih =>
        intro r
        obtain ⟨ckpt, executor, highest, first⟩ := transfer_same (D := D) r entry.2 reply
        obtain ⟨ckpt', executor', highest', later⟩ := ih (D.transfer r entry.2 reply)
        refine ⟨ckpt', executor', highest', later.trans ?_⟩
        rw [first]
  unfold Deployment.updateStableCheckPointStatus at done
  split_ifs at done
  obtain ⟨ckpt, executor, highest, same⟩ := folded r.ckpt.votes.entries r
  rw [same] at done
  cases done
  exact ⟨_, executor, highest, rfl⟩

theorem updateCheckPoint_same {r r' : Replica} {id : Int} {sent : List CheckPointData}
    (done : D.updateCheckPointStatus r id = some (r', sent)) :
    ∃ ckpt, r' = { r with ckpt := ckpt } := by
  unfold Deployment.updateCheckPointStatus at done
  split at done
  · cases done
  · dsimp only at done
    split_ifs at done <;>
    · cases done
      exact ⟨_, rfl⟩

theorem sendNewViewMsg_same {r r' : Replica} {id : Int} {view : ℕ} {sent : List NewViewMessage}
    (done : D.sendNewViewMsg id r view = some (r', sent)) :
    ∃ told, r' = { r with newViewIsSent := told } := by
  unfold Deployment.sendNewViewMsg at done
  split_ifs at done
  · cases done
    exact ⟨r.newViewIsSent, rfl⟩
  · obtain ⟨list, -, same⟩ := Option.map_eq_some_iff.mp done
    cases same
    exact ⟨true, rfl⟩

theorem processViewChange_same {r r' : Replica} {id sender : Int} {vc : ViewChangeMessage}
    {ret : Int} {sent : List NewViewMessage}
    (done : D.processViewChange id r sender (some vc) = some (r', ret, sent)) :
    ∃ stored status told, r' = { r with
      viewchangeRequest := stored, viewChangeStatus := status, newViewIsSent := told } := by
  unfold Deployment.processViewChange at done
  dsimp only at done
  split_ifs at done
  · cases done
    exact ⟨r.viewchangeRequest, r.viewChangeStatus, r.newViewIsSent, rfl⟩
  · cases done
    exact ⟨_, _, _, rfl⟩
  · obtain ⟨⟨r'', sent'⟩, told, same⟩ := Option.map_eq_some_iff.mp done
    obtain ⟨flag, rfl⟩ := sendNewViewMsg_same told
    cases same
    exact ⟨_, _, flag, rfl⟩
  · cases done
    exact ⟨_, _, _, rfl⟩

theorem processNewView_moves {r r' : Replica} {id : Int} {nv : NewViewMessage} {ret : Int}
    {sent : List RequestInfo} (done : D.processNewView id r (some nv) = some (r', ret, sent)) :
    (r' = r ∧ ret = -2 ∧ sent = []) ∨
      (D.Expected r nv ∧ D.DataMatches id nv ∧ sent = nv.request.map (D.message id) ∧ ret ≠ -2 ∧
        ∃ last, Redone (D.enterView r nv.viewNumber last) r') := by
  rcases Deployment.processNewView_cases (D := D) id r nv with
    ⟨-, refused⟩ | ⟨-, -, crashed⟩ | ⟨checks, -, ⟨-, refused⟩ | ⟨data, installs⟩⟩
  · rw [refused] at done
    cases done
    exact .inl ⟨rfl, rfl, rfl⟩
  · rw [crashed] at done
    cases done
  · rw [refused] at done
    cases done
    exact .inl ⟨rfl, rfl, rfl⟩
  · rw [installs] at done
    obtain ⟨redone, code, out⟩ := Deployment.installView_installs done
    refine .inr ⟨checks, data, out, ?_, _, redone⟩
    rcases code with code | code <;>
    · rw [code]
      decide

inductive Move (D : Deployment) (s : System) (a : Action) (id : Int) (r r' : Replica) : Prop where
  | idle (same : r.Same r')
  | collected {info : RequestInfo} {result : Collector × AddResult}
      (taken : a = .deliver id (.consensus info)) (member : .consensus info ∈ s.network)
      (valid : admissible D.crypto D.codec info = true) (reached : Collected D r info result r')
  | voted (sender : Int) (data : CheckPointData)
      (moved : r' = { r with ckpt := (r.ckpt.processCheckPoint D sender (some data)).1 })
  | stored {requests : ℕ → SortedMap Int ViewChangeMessage} {status : ViewChangeStatus}
      {told : Bool} (moved : r' = { r with
        viewchangeRequest := requests, viewChangeStatus := status, newViewIsSent := told })
  | entered {sender : Int} {nv : NewViewMessage} {last : ℕ}
      (taken : a = .deliver id (.newView sender nv)) (checks : D.Expected r nv)
      (data : D.DataMatches id nv) (redone : Redone (D.enterView r nv.viewNumber last) r')
  | executed (taken : a = .execute id) (done : D.executeNext r = some r')
  | digested {sent : List CheckPointData}
      (done : D.updateCheckPointStatus r id = some (r', sent))
  | stabilised {reply : Int → ℕ → ℕ → Option (List Request)} (taken : a = .stabilise id reply)
      (done : D.updateStableCheckPointStatus r reply = some r')

theorem effect_move (effect : Effect D byz s a s') (j : Int) :
    Move D s a j (s.replica j) (s'.replica j) := by
  have stays : ∀ j, Move D s a j (s.replica j) (s.replica j) := fun _ => .idle (.refl _)
  have moved : ∀ {id : Int} {r : Replica} {sent : List Message}, Move D s a id (s.replica id) r →
      Move D s a j (s.replica j) ((s.update id r sent).replica j) :=
    fun move => update_forall (fun j r => Move D s a j (s.replica j) r) s _ move stays j
  cases effect with
  | client _ => exact stays j
  | inject => exact stays j
  | consensus honest member valid handled =>
      cases handled with
      | idle same others => exact moved (.idle same)
      | collected reached others => exact moved (.collected rfl member valid reached)
      | committing reached prepare changed raised =>
          exact moved (.collected rfl member valid reached)
  | checkpoint honest member => exact moved (.voted _ _ rfl)
  | viewChange honest member done =>
      obtain ⟨requests, status, told, same⟩ := processViewChange_same done
      exact moved (.stored same)
  | newView honest member done =>
      rcases processNewView_moves done with ⟨rfl, -⟩ | ⟨checks, data, -, -, last, redone⟩
      · exact moved (stays _)
      · exact moved (.entered rfl checks data redone)
  | execute honest done => exact moved (.executed rfl done)
  | digest honest done => exact moved (.digested done)
  | stabilise honest done => exact moved (.stabilised rfl done)
  | _ => exact moved (.idle ⟨rfl, rfl, rfl, rfl, rfl, rfl, rfl⟩)

theorem effect_pool (effect : Effect D byz s a s') (j : Int) :
    PoolMove D s a j (s.replica j) (s'.replica j) := by
  cases effect_move effect j with
  | idle same => exact .same same.pool same.handed
  | collected taken member valid reached => exact .collected taken member valid reached
  | voted sender data moved =>
      rw [moved]
      exact .same rfl rfl
  | stored moved =>
      rw [moved]
      exact .same rfl rfl
  | entered taken checks data redone => exact .same redone.pool redone.handed
  | executed taken done =>
      obtain ⟨pool, handed, view⟩ := executeNext_pool done
      exact .replaced taken pool handed view
  | digested done =>
      obtain ⟨ckpt, same⟩ := updateCheckPoint_same done
      rw [same]
      exact .same rfl rfl
  | stabilised taken done =>
      obtain ⟨ckpt, executor, highest, same⟩ := updateStable_same done
      rw [same]
      exact .same rfl rfl

theorem PoolMove.collector {id : Int} {r r' : Replica} (move : PoolMove D s a id r r')
    (index : ℕ) :
    r'.pool index = r.pool index ∨ (∃ seq, r'.pool index = { seq := seq }) ∨
      ∃ info result, .consensus info ∈ s.network ∧
        D.crypto.verifyMessage (D.codec.request info.request) info.signature = true ∧
        Collector.Added D.quorum D.enableViewchange (r.pool index) info result ∧
        r'.pool index = result.1 := by
  cases move with
  | same pool handed => exact .inl (congrFun pool index)
  | @collected info result taken member valid reached =>
      by_cases here : index = D.index info.request.seq
      · subst here
        refine .inr (.inr ⟨info, result, member, ?_, reached.added, ?_⟩)
        · exact verifyMessage_of_admissible valid reached.signed
        · rw [reached.pool, Function.update_self]
      · left
        rw [reached.pool, Function.update_of_ne here]
  | replaced taken pool handed view =>
      rw [pool]
      unfold Deployment.update
      split_ifs
      · exact .inl rfl
      · by_cases here : index = D.index r.executor.nextExecuteSeq ^^^ D.capacity
        · subst here
          exact .inr (.inl ⟨_, Function.update_self _ _ _⟩)
        · exact .inl (Function.update_of_ne here _ _)

theorem effect_collectors {Q : Collector → Prop} (effect : Effect D byz s a s')
    (fresh : ∀ seq, Q { seq := seq })
    (added : ∀ c info result,
      D.crypto.verifyMessage (D.codec.request info.request) info.signature = true →
      Collector.Added D.quorum D.enableViewchange c info result → Q c → Q result.1)
    (before : ∀ id index, Q ((s.replica id).pool index)) (id : Int) (index : ℕ) :
    Q ((s'.replica id).pool index) := by
  rcases (effect_pool effect id).collector index with
    same | ⟨seq, new⟩ | ⟨info, result, -, valid, add, moved⟩
  · rw [same]
    exact before id index
  · rw [new]
    exact fresh seq
  · rw [moved]
    exact added _ info result valid add (before id index)

theorem effect_resting (effect : Effect D byz s a s') (resting : s.Resting) : s'.Resting :=
  effect_collectors effect (fun _ => Status.noConfusion) (fun _ _ _ _ add before =>
    add.resting before) resting

theorem initial_resting : (({} : System)).Resting := fun _ _ => Status.noConfusion

inductive NewCommit (D : Deployment) (byz : Finset Int) (s : System) (request : Request) :
    Action → System → Prop where
  | faulty {a : Action} {s' : System} (faulty : request.senderId ∈ byz)
      (member : request.senderId ∈ replicas D.totalNum) : NewCommit D byz s request a s'
  | prepared {id : Int} {info : RequestInfo} {result : Collector × AddResult} {s' : System}
      (honest : Honest D byz id) (reached : Collected D (s.replica id) info result (s'.replica id))
      (prepare : info.request.type = .prepare) (changed : result.2.changed = true)
      (raised : info.request.seq ≤ (s'.replica id).highestPreparedSeq)
      (copied : request = D.commitRequest id info.request) :
      NewCommit D byz s request (.deliver id (.consensus info)) s'
  | redone {id sender : Int} {nv : NewViewMessage} {s' : System} (honest : Honest D byz id)
      (checks : D.Expected (s.replica id) nv) (data : D.DataMatches id nv)
      (listed : request ∈ nv.request) (same : ∀ j, (s'.replica j).pool = (s.replica j).pool) :
      NewCommit D byz s request (.deliver id (.newView sender nv)) s'

theorem sent_append {network : List Message} {more : List Message} {replica : Int → Replica}
    {request : Request} (sent : System.Sent ⟨replica, network ++ more⟩ request) :
    System.Sent ⟨replica, network⟩ request ∨ ∃ sign, Message.consensus ⟨request, sign⟩ ∈ more := by
  obtain ⟨sign, member⟩ := sent
  cases List.mem_append.mp member with
  | inl old => exact .inl ⟨sign, old⟩
  | inr new => exact .inr ⟨sign, new⟩

theorem effect_network (effect : Effect D byz s a s') :
    ∃ more, s'.network = s.network ++ more := by
  cases effect <;> exact ⟨_, rfl⟩

theorem effect_sent (effect : Effect D byz s a s') {request : Request} (sent : s.Sent request) :
    s'.Sent request := by
  obtain ⟨sign, member⟩ := sent
  obtain ⟨more, network⟩ := effect_network effect
  refine ⟨sign, ?_⟩
  rw [network]
  exact List.mem_append_left _ member

theorem effect_commit (effect : Effect D byz s a s') (authentic : Authentic D byz a)
    {request : Request}
    (sent : s'.Sent request) (commit : request.type = .commit) :
    s.Sent request ∨ NewCommit D byz s request a s' := by
  cases effect with
  | client new =>
      refine (sent_append sent).imp_right (fun ⟨sign, member⟩ => ?_)
      cases List.mem_singleton.mp member
      rw [new] at commit
      cases commit
  | inject =>
      refine (sent_append sent).imp_right (fun ⟨sign, member⟩ => ?_)
      cases List.mem_singleton.mp member
      exact .faulty authentic.1 authentic.2
  | @consensus id info r sent' honest member valid handled =>
      refine (sent_append sent).imp_right (fun ⟨sign, member'⟩ => ?_)
      obtain ⟨info', inside, same⟩ := List.mem_map.mp member'
      cases same
      cases handled with
      | idle same others => exact absurd commit (others _ inside)
      | collected reached others => exact absurd commit (others _ inside)
      | committing reached prepare changed raised =>
          have copied : request = D.commitRequest id info.request :=
            congrArg RequestInfo.request (List.mem_singleton.mp inside)
          refine .prepared honest ?_ prepare changed ?_ copied
          · rw [update_replica_self]
            exact reached
          · rw [update_replica_self]
            exact raised
  | @newView id sender nv r ret sent' honest member done =>
      refine (sent_append sent).imp_right (fun ⟨sign, member'⟩ => ?_)
      obtain ⟨info', inside, same⟩ := List.mem_map.mp member'
      cases same
      rcases processNewView_moves done with ⟨-, -, rfl⟩ | ⟨checks, data, rfl, -, last, redone⟩
      · cases inside
      · obtain ⟨request', listed, made⟩ := List.mem_map.mp inside
        cases made
        refine .redone honest checks data listed (fun j => ?_)
        exact update_forall (fun j r => r.pool = (s.replica j).pool) s _ redone.pool
          (fun _ => rfl) j
  | viewChange honest member done =>
      refine (sent_append sent).imp_right (fun ⟨sign, member'⟩ => ?_)
      obtain ⟨_, -, same⟩ := List.mem_map.mp member'
      cases same
  | digest honest done =>
      refine (sent_append sent).imp_right (fun ⟨sign, member'⟩ => ?_)
      obtain ⟨_, -, same⟩ := List.mem_map.mp member'
      cases same
  | timeout honest on =>
      refine (sent_append sent).imp_right (fun ⟨sign, member'⟩ => ?_)
      cases List.mem_singleton.mp member'
  | _ => exact (sent_append sent).imp_right (fun ⟨_, member'⟩ => absurd member' List.not_mem_nil)

end System
end ResDB.Pbft
