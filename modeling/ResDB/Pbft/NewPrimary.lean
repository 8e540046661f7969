import Mathlib.Tactic
import ResDB.Pbft.Commits

/-! When a new primary announces its view. The flag that keeps it from sending a NEW-VIEW
message twice is never taken back, so that a replica sends one such message in its life:
of the views that it is the primary of, it announces the first. -/
namespace ResDB.Pbft
open TdHotstuff (replicas)
open Deployment (sampleDeployment)

/-- `SendNewViewMsg` can read the messages: every report has a proof, and no number is the
largest there is. -/
def Legible (messages : List ViewChangeMessage) : Prop :=
  ∀ vc ∈ messages, ∀ entry ∈ vc.preparedMsg, entry.proof ≠ [] ∧ entry.seq < 2 ^ 64 - 1

instance (messages : List ViewChangeMessage) : Decidable (Legible messages) :=
  inferInstanceAs (Decidable (∀ vc ∈ messages, ∀ entry ∈ vc.preparedMsg, _ ∧ _))

theorem foldr_max_lt_iff {bound : ℕ} (positive : 0 < bound) (numbers : List ℕ) :
    numbers.foldr max 0 < bound ↔ ∀ n ∈ numbers, n < bound := by
  induction numbers with
  | nil => simpa using positive
  | cons n rest ih => rw [List.foldr_cons, max_lt_iff, ih, List.forall_mem_cons]

namespace NewViewMessage

theorem mem_prepared {nv : NewViewMessage} {entry : PreparedMessage} :
    entry ∈ nv.prepared ↔ ∃ vc ∈ nv.viewchangeMessages, entry ∈ vc.preparedMsg :=
  List.mem_flatMap

theorem maxSeq_lt_iff (nv : NewViewMessage) :
    nv.maxSeq < 2 ^ 64 - 1 ↔ ∀ entry ∈ nv.prepared, entry.seq < 2 ^ 64 - 1 := by
  unfold maxSeq
  split_ifs with none
  · rw [List.isEmpty_iff.mp none]
    simp
  · rw [foldr_max_lt_iff (by decide), List.forall_mem_map]

theorem getPrepareMsg_isSome_iff (D : Deployment) (id : Int) (nv : NewViewMessage)
    (needSign : Bool) :
    (D.getPrepareMsg id nv needSign).isSome ↔ Legible nv.viewchangeMessages := by
  rw [Option.isSome_iff_exists]
  simp only [Deployment.getPrepareMsg_eq_some, exists_and_left, exists_eq, and_true,
    maxSeq_lt_iff, mem_prepared]
  constructor
  · rintro ⟨full, small⟩ vc member entry reported
    exact ⟨full entry ⟨vc, member, reported⟩, small entry ⟨vc, member, reported⟩⟩
  · intro legible
    constructor
    · rintro entry ⟨vc, member, reported⟩
      exact (legible vc member entry reported).1
    · rintro entry ⟨vc, member, reported⟩
      exact (legible vc member entry reported).2

end NewViewMessage

namespace Deployment
variable {D : Deployment} {id : Int} {r : Replica}

def newViewOf (r : Replica) (view : ℕ) : NewViewMessage where
  viewNumber := view
  viewchangeMessages := (r.viewchangeRequest view).entries.map (fun entry =>
    { entry.2 with viewNumber := view })

theorem sendNewViewMsg_eq (view : ℕ) (unsent : r.newViewIsSent = false) :
    D.sendNewViewMsg id r view = (D.getPrepareMsg id (newViewOf r view) true).map (fun list =>
      ({ r with newViewIsSent := true }, [{ newViewOf r view with request := list }])) := by
  rw [sendNewViewMsg, unsent, if_neg Bool.false_ne_true]
  rfl

theorem newViewOf_legible_iff (r : Replica) (view : ℕ) :
    Legible (newViewOf r view).viewchangeMessages ↔
      Legible ((r.viewchangeRequest view).entries.map Prod.snd) := by
  simp only [Legible, newViewOf, List.forall_mem_map]

theorem processViewChange_eq {sender : Int} {vc : ViewChangeMessage}
    (valid : D.isValidViewChangeMsg r vc = true) (primary : D.primaryOf vc.viewNumber = id)
    (full : D.quorum ≤
      ((addViewChange r sender vc).viewchangeRequest vc.viewNumber).size) :
    D.processViewChange id r sender (some vc) =
      (D.sendNewViewMsg id (addViewChange r sender vc) vc.viewNumber).map (fun (r, sent) =>
        ({ r with viewChangeStatus := .readyNewView }, 0, sent)) := by
  rw [processViewChange]
  simp only [valid, primary, if_neg (not_lt.mpr full), Bool.true_eq_false, if_false, if_true]

end Deployment

namespace System
variable {D : Deployment} {byz : Finset Int} {s s' : System} {a : Action}

def newViewBy (id : Int) : Message → Option NewViewMessage
  | .newView sender nv => if sender = id then some nv else none
  | _ => none

/-- The NEW-VIEW messages that a replica has broadcast, in order. -/
def announced (s : System) (id : Int) : List NewViewMessage := s.network.filterMap (newViewBy id)

theorem announced_update {id i : Int} {r : Replica} {sent : List Message} :
    (s.update i r sent).announced id = s.announced id ++ sent.filterMap (newViewBy id) := by
  rw [announced, update_network, List.filterMap_append, announced]

/-- The flag says whether the replica has sent its one message. -/
inductive Told (s : System) (id : Int) : Prop where
  | never (none : s.announced id = []) (flag : (s.replica id).newViewIsSent = false)
  | once {nv : NewViewMessage} (one : s.announced id = [nv])
      (flag : (s.replica id).newViewIsSent = true)

theorem filterMap_newViewBy_map {α : Type*} (id : Int) (wrap : α → Message)
    (other : ∀ x, newViewBy id (wrap x) = none) (sent : List α) :
    (sent.map wrap).filterMap (newViewBy id) = [] := by
  rw [List.filterMap_map]
  exact List.filterMap_eq_nil_iff.mpr (fun x _ => other x)

theorem Told.of_same {id : Int} (told : Told s id) (same : s'.announced id = s.announced id)
    (flag : (s'.replica id).newViewIsSent = (s.replica id).newViewIsSent) : Told s' id := by
  cases told with
  | never none unset => exact .never (same.trans none) (flag.trans unset)
  | once one set => exact .once (same.trans one) (flag.trans set)

theorem Told.quiet {id i : Int} {r : Replica} {sent : List Message} (told : Told s id)
    (others : sent.filterMap (newViewBy id) = [])
    (flag : r.newViewIsSent = (s.replica i).newViewIsSent) : Told (s.update i r sent) id := by
  refine told.of_same ?_ ?_
  · rw [announced_update, others, List.append_nil]
  · exact update_forall (fun j r => r.newViewIsSent = (s.replica j).newViewIsSent) s sent flag
      (fun _ => rfl) id

theorem sendNewViewMsg_cases {id : Int} {r r' : Replica} {view : ℕ} {sent : List NewViewMessage}
    (done : D.sendNewViewMsg id r view = some (r', sent)) :
    (r.newViewIsSent = true ∧ r' = r ∧ sent = []) ∨
      (r.newViewIsSent = false ∧ r' = { r with newViewIsSent := true } ∧
        ∃ list, D.getPrepareMsg id (Deployment.newViewOf r view) true = some list ∧
          sent = [{ Deployment.newViewOf r view with request := list }]) := by
  cases flag : r.newViewIsSent with
  | true =>
      rw [Deployment.sendNewViewMsg, flag, if_pos rfl] at done
      cases done
      exact .inl ⟨rfl, rfl, rfl⟩
  | false =>
      rw [Deployment.sendNewViewMsg_eq view flag] at done
      obtain ⟨list, listed, same⟩ := Option.map_eq_some_iff.mp done
      cases same
      exact .inr ⟨rfl, rfl, list, listed, rfl⟩

theorem processViewChange_cases {id sender : Int} {r r' : Replica} {vc : ViewChangeMessage}
    {ret : Int} {sent : List NewViewMessage}
    (done : D.processViewChange id r sender (some vc) = some (r', ret, sent)) :
    (r'.newViewIsSent = r.newViewIsSent ∧ sent = []) ∨
      (r.newViewIsSent = false ∧ r'.newViewIsSent = true ∧ ∃ nv, sent = [nv]) := by
  unfold Deployment.processViewChange at done
  dsimp only at done
  split_ifs at done
  · cases done
    exact .inl ⟨rfl, rfl⟩
  · cases done
    exact .inl ⟨rfl, rfl⟩
  · obtain ⟨⟨told, out⟩, sends, same⟩ := Option.map_eq_some_iff.mp done
    cases same
    rcases sendNewViewMsg_cases sends with ⟨-, rfl, rfl⟩ | ⟨unset, rfl, list, -, rfl⟩
    · exact .inl ⟨rfl, rfl⟩
    · exact .inr ⟨unset, rfl, _, rfl⟩
  · cases done
    exact .inl ⟨rfl, rfl⟩

theorem Told.step {id : Int} (effect : Effect D byz s a s')
    (unforged : ∀ nv, a ≠ .inject (.newView id nv)) (told : Told s id) : Told s' id := by
  have silent : ∀ {m : Message}, newViewBy id m = none →
      Told { s with network := s.network ++ [m] } id := by
    intro m other
    refine told.of_same ?_ rfl
    simp [announced, other]
  cases effect with
  | client new => exact silent rfl
  | @inject m =>
      apply silent
      cases m with
      | newView sender nv =>
          have other : sender ≠ id := fun same => unforged nv (by rw [same])
          exact if_neg other
      | _ => rfl
  | consensus _ member valid handled =>
      refine told.quiet (filterMap_newViewBy_map id _ (fun _ => rfl) _) ?_
      cases handled with
      | idle same others => exact same.newViewIsSent
      | collected reached others => exact reached.newViewIsSent
      | committing reached prepare changed raised => exact reached.newViewIsSent
  | newView _ member done =>
      refine told.quiet (filterMap_newViewBy_map id _ (fun _ => rfl) _) ?_
      rcases processNewView_moves done with ⟨rfl, -⟩ | ⟨-, -, -, -, last, redone⟩
      · rfl
      · exact redone.newViewIsSent
  | @viewChange i sender vc r ret sent _ member done =>
      rcases processViewChange_cases done with ⟨flag, rfl⟩ | ⟨unset, set, nv, rfl⟩
      · exact told.quiet rfl flag
      · by_cases here : i = id
        · subst here
          cases told with
          | once one set' => exact absurd set' (by rw [unset]; exact Bool.false_ne_true)
          | never none _ =>
              have one : (s.update i r ([nv].map (Message.newView i))).announced i = [nv] := by
                rw [announced_update, none]
                simp [newViewBy]
              refine .once one ?_
              rw [update_replica_self]
              exact set
        · refine told.of_same ?_ ?_
          · rw [announced_update]
            simp [newViewBy, here]
          · rw [update_replica_ne s r _ (Ne.symm here)]
  | execute _ done =>
      refine told.quiet rfl ?_
      obtain ⟨e, next, rfl⟩ := Option.map_eq_some_iff.mp done
      rfl
  | digest _ done =>
      refine told.quiet (filterMap_newViewBy_map id _ (fun _ => rfl) _) ?_
      obtain ⟨ckpt, rfl⟩ := updateCheckPoint_same done
      rfl
  | stabilise _ done =>
      refine told.quiet rfl ?_
      obtain ⟨ckpt, executor, highest, rfl⟩ := updateStable_same done
      rfl
  | _ => exact told.quiet rfl rfl

theorem run_told {as : List Action} {id : Int} (unforged : ∀ nv, .inject (.newView id nv) ∉ as)
    (ran : Run.exec (step D byz) {} as = some s) : s.Resting ∧ Told s id := by
  have own : ∀ a ∈ as, ∀ nv, a ≠ .inject (.newView id nv) := by
    rintro a member nv rfl
    exact unforged nv member
  refine Run.exec_invariant_of_forall (fun s a s' (inv : s.Resting ∧ Told s id) other taken => ?_)
    ⟨initial_resting, .never rfl rfl⟩ own ran
  have effect := step_effect inv.1 taken
  exact ⟨effect_resting effect inv.1, inv.2.step effect other⟩

/-- When the primary of a view has the quorum of VIEW-CHANGE messages for it, it has sent
exactly one NEW-VIEW message for the view if and only if it has sent none for another view
before and can read the messages. What is in the network under its id is its own. -/
theorem announces_view_iff {as : List Action} (ran : Run.exec (step D byz) {} as = some s)
    {id sender : Int} {vc : ViewChangeMessage} (honest : Honest D byz id)
    (unforged : ∀ nv, .inject (.newView id nv) ∉ as)
    (member : .viewChange sender vc ∈ s.network)
    (valid : D.isValidViewChangeMsg (s.replica id) vc = true)
    (primary : D.primaryOf vc.viewNumber = id)
    (full : D.quorum ≤ ((Deployment.addViewChange (s.replica id) sender vc).viewchangeRequest
      vc.viewNumber).size) :
    (∃ s', s.step D byz (.deliver id (.viewChange sender vc)) = some s' ∧
        ((s'.announced id).filter (fun nv => nv.viewNumber = vc.viewNumber)).length = 1) ↔
      (∀ nv ∈ s.announced id, nv.viewNumber = vc.viewNumber) ∧
        (s.announced id = [] → Legible (((Deployment.addViewChange (s.replica id) sender
          vc).viewchangeRequest vc.viewNumber).entries.map Prod.snd)) := by
  have delivers : s.step D byz (.deliver id (.viewChange sender vc)) =
      (D.sendNewViewMsg id (Deployment.addViewChange (s.replica id) sender vc)
        vc.viewNumber).map (fun (r, sent) =>
          s.update id { r with viewChangeStatus := .readyNewView } (sent.map (.newView id))) := by
    rw [step, if_pos ⟨honest, member⟩, receive, Deployment.processViewChange_eq valid primary full,
      Option.map_map]
    rfl
  rw [delivers]
  generalize stored : Deployment.addViewChange (s.replica id) sender vc = r
  have flag : r.newViewIsSent = (s.replica id).newViewIsSent := by
    rw [← stored]
    rfl
  cases (run_told unforged ran).2 with
  | never none unset =>
      rw [Deployment.sendNewViewMsg_eq _ (flag.trans unset), none,
        ← Deployment.newViewOf_legible_iff,
        ← NewViewMessage.getPrepareMsg_isSome_iff D id _ true, Option.isSome_iff_exists]
      constructor
      · rintro ⟨s', done, -⟩
        obtain ⟨_, sent, -⟩ := Option.map_eq_some_iff.mp done
        obtain ⟨list, listed, -⟩ := Option.map_eq_some_iff.mp sent
        exact ⟨fun _ member => absurd member List.not_mem_nil, fun _ => ⟨list, listed⟩⟩
      · rintro ⟨-, legible⟩
        obtain ⟨list, listed⟩ := legible rfl
        rw [listed]
        refine ⟨_, rfl, ?_⟩
        rw [announced_update, none]
        simp [newViewBy, Deployment.newViewOf]
  | @once nv one set =>
      rw [Deployment.sendNewViewMsg, if_pos (flag.trans set), one]
      have only : (∃ s', (some (r, ([] : List NewViewMessage))).map (fun (r, sent) =>
            s.update id { r with viewChangeStatus := .readyNewView } (sent.map (.newView id))) =
          some s' ∧ ((s'.announced id).filter (fun nv => nv.viewNumber = vc.viewNumber)).length =
            1) ↔ nv.viewNumber = vc.viewNumber := by
        by_cases same : nv.viewNumber = vc.viewNumber
        · simp [announced_update, one, same]
        · simp [announced_update, one, same]
      rw [only]
      simp

section Sample

def sampleViewChange (view : ℕ) : ViewChangeMessage := { viewNumber := view }

def sampleNewView (view : ℕ) : NewViewMessage :=
  let nv : NewViewMessage := {
    viewNumber := view, viewchangeMessages := List.replicate 3 (sampleViewChange view) }
  { nv with request := sampleDeployment.redoList (sampleDeployment.primaryOf view) nv true }

/-- All replicas give up on their view, and the primary of the next hears of it. -/
def sampleComplaint (view : ℕ) (senders : List Int) : List Action :=
  ([1, 2, 3, 4].map Action.timeout) ++ senders.map (fun sender =>
    Action.deliver (sampleDeployment.primaryOf view) (.viewChange sender (sampleViewChange view)))

def sampleRound (view : ℕ) : List Action :=
  sampleComplaint view [1, 2, 3] ++ [1, 2, 3, 4].map (fun id =>
    .deliver id (.newView (sampleDeployment.primaryOf view) (sampleNewView view)))

theorem announces_first_view : ∃ s,
    Run.exec (step sampleDeployment ∅) {} (sampleComplaint 2 [1, 2]) = some s ∧
      ∃ s', s.step sampleDeployment ∅ (.deliver 2 (.viewChange 3 (sampleViewChange 2))) =
          some s' ∧ ((s'.announced 2).filter (fun nv => nv.viewNumber = 2)).length = 1 := by
  obtain ⟨s, ran, facts⟩ := (Option.any_eq_true _ _).mp
    (show (Run.exec (step sampleDeployment ∅) {} (sampleComplaint 2 [1, 2])).any (fun s =>
      decide (.viewChange 3 (sampleViewChange 2) ∈ s.network ∧
        sampleDeployment.isValidViewChangeMsg (s.replica 2) (sampleViewChange 2) = true ∧
        sampleDeployment.quorum ≤ ((Deployment.addViewChange (s.replica 2) 3
          (sampleViewChange 2)).viewchangeRequest 2).size ∧
        s.announced 2 = [] ∧
        Legible (((Deployment.addViewChange (s.replica 2) 3
          (sampleViewChange 2)).viewchangeRequest 2).entries.map Prod.snd))) = true by
      decide +kernel)
  obtain ⟨member, valid, full, none, legible⟩ := of_decide_eq_true facts
  refine ⟨s, ran, ?_⟩
  have unforged : ∀ nv, Action.inject (.newView 2 nv) ∉ sampleComplaint 2 [1, 2] := by
    simp [sampleComplaint]
  refine (announces_view_iff ran (by decide) unforged member valid (by decide) full).mpr ⟨?_, ?_⟩
  · rw [none]
    exact fun _ member => absurd member List.not_mem_nil
  · exact fun _ => legible

/-- Five changes of view among honest replicas. Replica 2 is the primary of views 2 and 6; it
has the quorum for view 6 and has announced view 2 only. -/
theorem second_view_not_announced :
    (Run.exec (step sampleDeployment ∅) {} ([2, 3, 4, 5].flatMap sampleRound ++
        sampleComplaint 6 [1, 2, 3])).map (fun s =>
      ((s.announced 2).map (fun nv => nv.viewNumber),
        ((s.replica 2).viewchangeRequest 6).size)) = some ([2], 3) ∧
      sampleDeployment.primaryOf 6 = 2 ∧ sampleDeployment.quorum = 3 := by
  refine ⟨?_, ?_, ?_⟩
  · decide +kernel
  · decide
  · decide

end Sample
end System
end ResDB.Pbft
