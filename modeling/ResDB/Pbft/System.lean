import Mathlib.Tactic
import ResDB.Library.Run
import ResDB.Pbft.ViewChange
import ResDB.Pbft.StateTransfer

/-! All replicas of PBFT with the messages between them. A message stays in the network once
it is sent and may reach any replica, at any time and any number of times. A Byzantine replica
sends what it likes, under any id. -/
namespace ResDB.Pbft
open TdHotstuff (replicas)

/-- The messages that the handlers read, the payload of the others parsed. -/
inductive Message where
  | consensus (info : RequestInfo)
  | checkpoint (sender : Int) (data : CheckPointData)
  | viewChange (sender : Int) (vc : ViewChangeMessage)
  | newView (sender : Int) (nv : NewViewMessage)
  deriving DecidableEq

def Message.senderId : Message → Int
  | .consensus info => info.request.senderId
  | .checkpoint sender _ => sender
  | .viewChange sender _ => sender
  | .newView sender _ => sender

structure System where
  replica : Int → Replica := fun _ => {}
  network : List Message := []

/-- `stabilise` is a round of `UpdateStableCheckPointStatus` with the replies it gets;
`resume` is `MonitoringCheckpointState`, and `expire` the cleaning of `DuplicateManager`. -/
inductive Action where
  | client (info : RequestInfo)
  | inject (m : Message)
  | deliver (id : Int) (m : Message)
  | order (id : Int)
  | execute (id : Int)
  | digest (id : Int)
  | stabilise (id : Int) (reply : Int → ℕ → ℕ → Option (List Request))
  | timeout (id : Int)
  | resume (id : Int)
  | expire (id : Int) (hash : Bytes)

namespace System
variable (D : Deployment) (byz : Finset Int)

def Honest (id : Int) : Prop := id ∈ replicas D.totalNum ∧ id ∉ byz

instance (id : Int) : Decidable (Honest D byz id) := inferInstanceAs (Decidable (_ ∧ _))

def update (s : System) (id : Int) (r : Replica) (sent : List Message) : System :=
  { replica := Function.update s.replica id r, network := s.network ++ sent }

/-- With view changes enabled the messages of normal operation wait for the end of one. -/
def receive (s : System) (id : Int) : Message → Option System
  | .consensus info =>
      if admissible D.crypto D.codec info = true ∧
          (D.enableViewchange = true → (s.replica id).viewChangeStatus = .none) then
        let (r, _, sent) := D.internalConsensusCommit id (s.replica id) info
        some (s.update id r (sent.map .consensus))
      else none
  | .checkpoint sender data =>
      let r := s.replica id
      some (s.update id { r with ckpt := (r.ckpt.processCheckPoint D sender (some data)).1 } [])
  | .viewChange sender vc =>
      (D.processViewChange id (s.replica id) sender (some vc)).map (fun (r, _, sent) =>
        s.update id r (sent.map (.newView id)))
  | .newView _ nv =>
      (D.processNewView id (s.replica id) (some nv)).map (fun (r, _, sent) =>
        s.update id r (sent.map .consensus))

def act (s : System) : Action → Option (Int × Replica × List Message)
  | .order id => (s.replica id).executor.order.map (fun e =>
      (id, { s.replica id with executor := e }, []))
  | .execute id => (D.executeNext (s.replica id)).map (fun r => (id, r, []))
  | .digest id =>
      if D.enableViewchange ∨ D.enableCheckpoint then
        (D.updateCheckPointStatus (s.replica id) id).map (fun (r, sent) =>
          (id, r, sent.map (.checkpoint id)))
      else none
  | .stabilise id reply =>
      if D.enableViewchange ∨ D.enableCheckpoint then
        (D.updateStableCheckPointStatus (s.replica id) reply).map (fun r => (id, r, []))
      else none
  | .timeout id =>
      if D.enableViewchange then
        let r := Deployment.startViewChange (s.replica id)
        some (id, r, [.viewChange id (D.sendViewChangeMsg r)])
      else none
  | .resume id =>
      if D.enableViewchange then some (id, { s.replica id with viewChangeStatus := .none }, [])
      else none
  | .expire id hash =>
      some (id, { s.replica id with proposed := (s.replica id).proposed.erase hash }, [])
  | _ => none

def step (s : System) : Action → Option System
  | .client info =>
      if info.request.type = .newTxns then
        some { s with network := s.network ++ [.consensus info] }
      else none
  -- only the signature is verified on receipt, and no handler compares its node with the sender
  | .inject m => some { s with network := s.network ++ [m] }
  | .deliver id m => if Honest D byz id ∧ m ∈ s.network then s.receive D id m else none
  | a =>
      (s.act D a).bind (fun (id, r, sent) =>
        if Honest D byz id then some (s.update id r sent) else none)

/-- What is injected is under the id of a Byzantine replica. -/
def Authentic : Action → Prop
  | .inject m => m.senderId ∈ byz ∧ m.senderId ∈ replicas D.totalNum
  | _ => True

instance : (a : Action) → Decidable (Authentic D byz a)
  | .inject _ => inferInstanceAs (Decidable (_ ∧ _))
  | .client _ | .deliver _ _ | .order _ | .execute _ | .digest _ | .stabilise _ _ | .timeout _
  | .resume _ | .expire _ _ => .isTrue trivial

@[simp] theorem update_replica_self (s : System) (id : Int) (r : Replica) (sent : List Message) :
    (s.update id r sent).replica id = r := by
  simp only [update, Function.update_self]

theorem update_replica_ne (s : System) {id j : Int} (r : Replica) (sent : List Message)
    (other : j ≠ id) : (s.update id r sent).replica j = s.replica j := by
  simp only [update, Function.update_of_ne other]

@[simp] theorem update_network (s : System) (id : Int) (r : Replica) (sent : List Message) :
    (s.update id r sent).network = s.network ++ sent := rfl

theorem update_forall (Q : Int → Replica → Prop) (s : System) {id : Int} {r : Replica}
    (sent : List Message) (new : Q id r) (others : ∀ j, Q j (s.replica j)) (j : Int) :
    Q j ((s.update id r sent).replica j) := by
  by_cases here : j = id
  · rw [here, update_replica_self]
    exact new
  · rw [update_replica_ne s r sent here]
    exact others j

variable {D byz}

inductive Effect (D : Deployment) (byz : Finset Int) (s : System) : Action → System → Prop where
  | client {info : RequestInfo} (new : info.request.type = .newTxns) :
      Effect D byz s (.client info) { s with network := s.network ++ [.consensus info] }
  | inject {m : Message} : Effect D byz s (.inject m) { s with network := s.network ++ [m] }
  | consensus {id : Int} {info : RequestInfo} {r : Replica} {sent : List RequestInfo}
      (honest : Honest D byz id) (member : .consensus info ∈ s.network)
      (valid : admissible D.crypto D.codec info = true)
      (handled : Deployment.Handled D id (s.replica id) info r sent) :
      Effect D byz s (.deliver id (.consensus info)) (s.update id r (sent.map .consensus))
  | checkpoint {id sender : Int} {data : CheckPointData} (honest : Honest D byz id)
      (member : .checkpoint sender data ∈ s.network) :
      Effect D byz s (.deliver id (.checkpoint sender data))
        (s.update id { s.replica id with
          ckpt := ((s.replica id).ckpt.processCheckPoint D sender (some data)).1 } [])
  | viewChange {id sender : Int} {vc : ViewChangeMessage} {r : Replica} {ret : Int}
      {sent : List NewViewMessage} (honest : Honest D byz id)
      (member : .viewChange sender vc ∈ s.network)
      (done : D.processViewChange id (s.replica id) sender (some vc) = some (r, ret, sent)) :
      Effect D byz s (.deliver id (.viewChange sender vc)) (s.update id r (sent.map (.newView id)))
  | newView {id sender : Int} {nv : NewViewMessage} {r : Replica} {ret : Int}
      {sent : List RequestInfo} (honest : Honest D byz id)
      (member : .newView sender nv ∈ s.network)
      (done : D.processNewView id (s.replica id) (some nv) = some (r, ret, sent)) :
      Effect D byz s (.deliver id (.newView sender nv)) (s.update id r (sent.map .consensus))
  | order {id : Int} {e : Executor} (honest : Honest D byz id)
      (done : (s.replica id).executor.order = some e) :
      Effect D byz s (.order id) (s.update id { s.replica id with executor := e } [])
  | execute {id : Int} {r : Replica} (honest : Honest D byz id)
      (done : D.executeNext (s.replica id) = some r) :
      Effect D byz s (.execute id) (s.update id r [])
  | digest {id : Int} {r : Replica} {sent : List CheckPointData} (honest : Honest D byz id)
      (done : D.updateCheckPointStatus (s.replica id) id = some (r, sent)) :
      Effect D byz s (.digest id) (s.update id r (sent.map (.checkpoint id)))
  | stabilise {id : Int} {reply : Int → ℕ → ℕ → Option (List Request)} {r : Replica}
      (honest : Honest D byz id)
      (done : D.updateStableCheckPointStatus (s.replica id) reply = some r) :
      Effect D byz s (.stabilise id reply) (s.update id r [])
  | timeout {id : Int} (honest : Honest D byz id) (on : D.enableViewchange = true) :
      Effect D byz s (.timeout id)
        (s.update id (Deployment.startViewChange (s.replica id))
          [.viewChange id (D.sendViewChangeMsg (Deployment.startViewChange (s.replica id)))])
  | resume {id : Int} (honest : Honest D byz id) :
      Effect D byz s (.resume id)
        (s.update id { s.replica id with viewChangeStatus := .none } [])
  | expire {id : Int} {hash : Bytes} (honest : Honest D byz id) :
      Effect D byz s (.expire id hash)
        (s.update id { s.replica id with proposed := (s.replica id).proposed.erase hash } [])

/-- Between two steps no collector waits for its own execution. -/
def Resting (s : System) : Prop :=
  ∀ id index, ((s.replica id).pool index).status ≠ .readyExecute

theorem receive_effect {s s' : System} (resting : s.Resting) {id : Int} {m : Message}
    (honest : Honest D byz id) (member : m ∈ s.network) (done : s.receive D id m = some s') :
    Effect D byz s (.deliver id m) s' := by
  cases m with
  | consensus info =>
      rw [receive, Option.ite_none_right_eq_some] at done
      obtain ⟨⟨valid, -⟩, same⟩ := done
      cases same
      exact .consensus honest member valid
        (Deployment.internalConsensusCommit_handled (resting id _))
  | checkpoint sender data =>
      cases done
      exact .checkpoint honest member
  | viewChange sender vc =>
      obtain ⟨⟨r, ret, sent⟩, processed, rfl⟩ := Option.map_eq_some_iff.mp done
      exact .viewChange honest member processed
  | newView sender nv =>
      obtain ⟨⟨r, ret, sent⟩, processed, rfl⟩ := Option.map_eq_some_iff.mp done
      exact .newView honest member processed

theorem step_act {s s' : System} {a : Action}
    (done : (s.act D a).bind (fun (id, r, sent) =>
      if Honest D byz id then some (s.update id r sent) else none) = some s') :
    ∃ id r sent, s.act D a = some (id, r, sent) ∧ Honest D byz id ∧ s' = s.update id r sent := by
  obtain ⟨⟨id, r, sent⟩, acted, done⟩ := Option.bind_eq_some_iff.mp done
  rw [Option.ite_none_right_eq_some] at done
  obtain ⟨honest, same⟩ := done
  exact ⟨id, r, sent, acted, honest, (Option.some_inj.mp same).symm⟩

theorem step_effect {s s' : System} {a : Action} (resting : s.Resting)
    (taken : s.step D byz a = some s') : Effect D byz s a s' := by
  cases a with
  | client info =>
      rw [step, Option.ite_none_right_eq_some] at taken
      obtain ⟨new, same⟩ := taken
      cases same
      exact .client new
  | inject m =>
      cases taken
      exact .inject
  | deliver id m =>
      rw [step, Option.ite_none_right_eq_some] at taken
      obtain ⟨⟨honest, member⟩, done⟩ := taken
      exact receive_effect resting honest member done
  | order id =>
      obtain ⟨_, r, sent, acted, honest, rfl⟩ := step_act taken
      obtain ⟨e, done, same⟩ := Option.map_eq_some_iff.mp acted
      cases same
      exact .order honest done
  | execute id =>
      obtain ⟨_, r, sent, acted, honest, rfl⟩ := step_act taken
      obtain ⟨r', done, same⟩ := Option.map_eq_some_iff.mp acted
      cases same
      exact .execute honest done
  | digest id =>
      obtain ⟨_, r, sent, acted, honest, rfl⟩ := step_act taken
      rw [act, Option.ite_none_right_eq_some] at acted
      obtain ⟨⟨r', sent'⟩, done, same⟩ := Option.map_eq_some_iff.mp acted.2
      cases same
      exact .digest honest done
  | stabilise id reply =>
      obtain ⟨_, r, sent, acted, honest, rfl⟩ := step_act taken
      rw [act, Option.ite_none_right_eq_some] at acted
      obtain ⟨r', done, same⟩ := Option.map_eq_some_iff.mp acted.2
      cases same
      exact .stabilise honest done
  | timeout id =>
      obtain ⟨_, r, sent, acted, honest, rfl⟩ := step_act taken
      rw [act, Option.ite_none_right_eq_some] at acted
      obtain ⟨on, same⟩ := acted
      cases same
      exact .timeout honest on
  | resume id =>
      obtain ⟨_, r, sent, acted, honest, rfl⟩ := step_act taken
      rw [act, Option.ite_none_right_eq_some] at acted
      cases acted.2
      exact .resume honest
  | expire id hash =>
      obtain ⟨_, r, sent, acted, honest, rfl⟩ := step_act (a := .expire id hash) taken
      cases acted
      exact .expire honest

end System
end ResDB.Pbft
