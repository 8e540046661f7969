import Mathlib.Tactic
import ResDB.Pbft.NewViewAccepted

/-! What a change of view makes of the requests that were committed before. A COMMIT of an
honest replica is covered by every VIEW-CHANGE message of that replica for a later view, and a
NEW-VIEW message with those of a quorum has one of them for every committed request. The redo
requests keep the hash in runs that stay clear of the ways in which reports get lost or are
not told from forged ones. -/
namespace ResDB.Pbft
open TdHotstuff (replicas)
open Deployment (sampleDeployment)

namespace System
variable (D : Deployment) (byz : Finset Int)

def viewChangeBy (id : Int) : Message → Option ViewChangeMessage
  | .viewChange sender vc => if sender = id then some vc else none
  | _ => none

/-- The VIEW-CHANGE messages that a replica has broadcast, in order. -/
def viewChangesOf (s : System) (id : Int) : List ViewChangeMessage :=
  s.network.filterMap (viewChangeBy id)

def Remains (s : System) (id : Int) (view : ℕ) : Prop :=
  ∀ vc ∈ s.viewChangesOf id, vc.viewNumber ≤ view

instance (s : System) (id : Int) (view : ℕ) : Decidable (Remains s id view) :=
  inferInstanceAs (Decidable (∀ _ ∈ _, _))

/-- The replicas whose announcement of the view is among the messages. -/
def announcers (s : System) (nv : NewViewMessage) : Finset Int :=
  (replicas D.totalNum).filter (fun i =>
    ∃ vc ∈ nv.viewchangeMessages, vc.viewNumber = nv.viewNumber ∧ vc ∈ s.viewChangesOf i)

def reportedHash (entry : PreparedMessage) : Option Bytes :=
  entry.proof.head?.map (fun proof => proof.request.hash)

/-- The reports for one number are for one hash, and no stable checkpoint is above the
lowest. -/
def Consistent (nv : NewViewMessage) : Prop :=
  (∀ entry ∈ nv.prepared, ∀ entry' ∈ nv.prepared, entry.seq = entry'.seq →
      reportedHash entry = reportedHash entry') ∧
    ∀ vc ∈ nv.viewchangeMessages, vc.stableCkpt.seq ≤ nv.minStable

instance (nv : NewViewMessage) : Decidable (Consistent nv) :=
  inferInstanceAs (Decidable ((∀ _ ∈ _, ∀ _ ∈ _, _ → _) ∧ ∀ _ ∈ _, _))

/-- A PREPARE that completes a quorum reaches a replica that has not announced a later view. -/
def InView (s : System) (id : Int) (info : RequestInfo) : Prop :=
  info.request.type = .prepare →
    (D.collector (s.replica id) info.request.seq).status = .readyPrepare →
    D.quorum ≤ ((D.collector (s.replica id) info.request.seq).addSender info).received info →
    Remains s id info.request.currentView

/-- The collector that makes room is not past its PREPARE quorum, or its number is at or below
the stable checkpoint. -/
def Released (r : Replica) : Prop :=
  let old := r.pool (D.index r.executor.nextExecuteSeq ^^^ D.capacity)
  old.seq ≤ r.ckpt.stableCkpt.seq ∨ old.status.rank < Status.readyCommit.rank

/-- A COMMIT in the name of an honest replica is for a number that the replica will report. -/
def Reportable (s : System) (request : Request) : Prop :=
  request.type = .commit → Honest D byz request.senderId →
    request.seq ≤ (s.replica request.senderId).highestPreparedSeq ∧
      Remains s request.senderId request.currentView

/-- The step does not lose reports, and the NEW-VIEW messages that are installed carry those of
a quorum and no two for a number that differ. -/
def Retains (s : System) : Action → Prop
  | .deliver id (.consensus info) => InView D s id info
  | .execute id => Released D (s.replica id)
  | .stabilise id reply =>
      (D.updateStableCheckPointStatus (s.replica id) reply).all (fun r =>
        (s.replica id).highestPreparedSeq ≤ r.highestPreparedSeq) = true
  | .timeout id => (s.replica id).highestPreparedSeq < 2 ^ 31
  | .deliver id (.newView _ nv) =>
      D.Expected (s.replica id) nv → D.DataMatches id nv →
        D.quorum ≤ (announcers D s nv).card ∧ Consistent nv ∧
          ∀ request ∈ nv.request, Reportable D byz s request
  | _ => True

instance (s : System) : (a : Action) → Decidable (Retains D byz s a)
  | .deliver _ (.consensus _) => inferInstanceAs (Decidable (_ → _ → _ → _))
  | .execute _ => inferInstanceAs (Decidable (_ ∨ _))
  | .stabilise _ _ => inferInstanceAs (Decidable (_ = true))
  | .timeout _ => inferInstanceAs (Decidable (_ < _))
  | .deliver _ (.newView _ _) =>
      inferInstanceAs (Decidable (_ ∧ _ → _ ∧ _ → _ ∧ _ ∧ ∀ _ ∈ _, _ → _ → _ ∧ _))
  | .deliver _ (.checkpoint _ _) | .deliver _ (.viewChange _ _) | .client _ | .inject _
  | .order _ | .digest _ | .resume _ | .expire _ _ => .isTrue trivial

/-- The replica will report the COMMIT: its collector is in place, or the number is at or below
the stable checkpoint. -/
def Held (r : Replica) (c : Request) : Prop :=
  c.seq ≤ r.highestPreparedSeq ∧ (c.seq ≤ r.ckpt.stableCkpt.seq ∨
    (D.collector r c.seq).seq = c.seq ∧
      (D.collector r c.seq).Past D.enableViewchange c.hash)

/-- The message has a report for the COMMIT, or a stable checkpoint that is not below it. -/
def Covers (vc : ViewChangeMessage) (c : Request) : Prop :=
  c.seq ≤ vc.stableCkpt.seq ∨
    ∃ entry ∈ vc.preparedMsg, entry.seq = c.seq ∧ reportedHash entry = some c.hash

structure Carried (s : System) : Prop where
  ledger : Ledger D byz (fun view c => c.currentView ≤ view) s
  stable : ∀ id, (s.replica id).ckpt.currentStableSeq = (s.replica id).ckpt.stableCkpt.seq
  held : ∀ c, s.Sent c → c.type = .commit → Honest D byz c.senderId →
    Held D (s.replica c.senderId) c
  covered : ∀ c, s.Sent c → c.type = .commit → Honest D byz c.senderId →
    ∀ vc ∈ s.viewChangesOf c.senderId, c.currentView < vc.viewNumber → Covers vc c

variable {D byz} {s s' : System} {a : Action}

theorem mem_viewChangesOf {id : Int} {vc : ViewChangeMessage} :
    vc ∈ s.viewChangesOf id ↔ .viewChange id vc ∈ s.network := by
  rw [viewChangesOf, List.mem_filterMap]
  constructor
  · rintro ⟨m, member, found⟩
    cases m with
    | viewChange sender vc' =>
        rw [viewChangeBy, Option.ite_none_right_eq_some] at found
        obtain ⟨rfl, same⟩ := found
        cases same
        exact member
    | _ => cases found
  · exact fun member => ⟨_, member, if_pos rfl⟩

section Reports

theorem toInt32_of_lt {n : ℕ} (small : n < 2 ^ 31) : toInt32 n = n := by
  unfold toInt32
  omega

theorem mem_intLoop {lo hi n : ℕ} (low : lo ≤ n) (high : n ≤ hi) (small : hi < 2 ^ 31) :
    n ∈ intLoop (toInt32 lo) (toInt32 hi) := by
  rw [toInt32_of_lt small, toInt32_of_lt (by omega), intLoop, List.mem_map]
  refine ⟨n - lo, List.mem_range.mpr (by omega), ?_⟩
  omega

theorem Held.covers {r : Replica} {c : Request} (on : D.enableViewchange = true)
    (small : r.highestPreparedSeq < 2 ^ 31) (held : Held D r c) :
    Covers (D.sendViewChangeMsg (Deployment.startViewChange r)) c := by
  obtain ⟨reaches, stable | ⟨-, past⟩⟩ := held
  · exact .inl stable
  · refine or_iff_not_imp_left.mpr (fun above => ?_)
    have listed : c.seq ∈ reported r := mem_intLoop (not_le.mp above) reaches small
    obtain ⟨filled, same⟩ := past.proofs on
    refine ⟨⟨c.seq, (D.collector r c.seq).preparedProof⟩, ?_, rfl, ?_⟩
    · exact List.mem_filterMap.mpr ⟨c.seq, listed, if_pos past.rank⟩
    · obtain ⟨first, rest, list⟩ := List.exists_cons_of_ne_nil filled
      rw [reportedHash, list, List.head?_cons, Option.map_some,
        same first (list ▸ List.mem_cons_self)]

end Reports

section Moves

theorem CkptMove.stable {m m' : CheckPointManager} (move : CkptMove D m m')
    (same : m.currentStableSeq = m.stableCkpt.seq) :
    m'.currentStableSeq = m'.stableCkpt.seq ∧ m.stableCkpt.seq ≤ m'.stableCkpt.seq := by
  cases move with
  | same kept =>
      rw [kept.currentStableSeq, kept.stableCkpt]
      exact ⟨same, le_rfl⟩
  | voted sender data moved =>
      have kept : m'.currentStableSeq = m.currentStableSeq ∧ m'.stableCkpt = m.stableCkpt := by
        rw [moved, CheckPointManager.processCheckPoint]
        split_ifs
        · exact ⟨rfl, rfl⟩
        · exact ⟨rfl, rfl⟩
        · exact ⟨rfl, rfl⟩
      rw [kept.1, kept.2]
      exact ⟨same, le_rfl⟩
  | @stabilised mid before after =>
      have start : mid.currentStableSeq = mid.stableCkpt.seq := by
        rw [before.currentStableSeq, before.stableCkpt, same]
      rw [after.currentStableSeq, after.stableCkpt, ← before.stableCkpt]
      unfold CheckPointManager.installStable
      split
      · exact ⟨start, le_rfl⟩
      · split_ifs with later
        · exact ⟨rfl, start ▸ later.le⟩
        · exact ⟨start, le_rfl⟩

/-- The view and the highest prepared number of a replica do not get lower. -/
structure Grows (r r' : Replica) : Prop where
  view : r.view ≤ r'.view
  highest : r.highestPreparedSeq ≤ r'.highestPreparedSeq

theorem view_lt_of_retains {id sender : Int} {nv : NewViewMessage}
    (retains : Retains D byz s (.deliver id (.newView sender nv)))
    (checks : D.Expected (s.replica id) nv) (data : D.DataMatches id nv) :
    (s.replica id).view < nv.viewNumber := by
  have filled := (quorum_pos D).trans_le (retains checks data).1
  obtain ⟨i, member⟩ := Finset.card_pos.mp filled
  obtain ⟨-, vc, listed, same, -⟩ := Finset.mem_filter.mp member
  rw [← same]
  exact (of_decide_eq_true (List.all_eq_true.mp checks.2 vc listed)).1

theorem effect_grows (effect : Effect D byz s a s') (retains : Retains D byz s a) (j : Int) :
    Grows (s.replica j) (s'.replica j) := by
  cases effect_move effect j with
  | idle same => exact ⟨same.view.ge, same.highestPreparedSeq.ge⟩
  | collected taken member valid reached => exact ⟨reached.view.ge, reached.highestPreparedSeq⟩
  | voted sender data moved =>
      rw [moved]
      exact ⟨le_rfl, le_rfl⟩
  | stored moved =>
      rw [moved]
      exact ⟨le_rfl, le_rfl⟩
  | entered taken checks data redone =>
      subst taken
      refine ⟨?_, redone.highestPreparedSeq⟩
      rw [redone.view]
      exact (view_lt_of_retains retains checks data).le
  | executed taken done =>
      obtain ⟨e, next, same⟩ := Option.map_eq_some_iff.mp done
      rw [← same]
      exact ⟨le_rfl, le_rfl⟩
  | digested done =>
      obtain ⟨ckpt, same⟩ := updateCheckPoint_same done
      rw [same]
      exact ⟨le_rfl, le_rfl⟩
  | stabilised taken done =>
      subst taken
      refine ⟨?_, ?_⟩
      · obtain ⟨ckpt, executor, highest, same⟩ := updateStable_same done
        rw [same]
      · rw [Retains, done] at retains
        exact of_decide_eq_true retains

theorem effect_viewChange (effect : Effect D byz s a s') (authentic : Authentic D byz a)
    {id : Int} (honest : Honest D byz id) {vc : ViewChangeMessage}
    (member : vc ∈ s'.viewChangesOf id) :
    vc ∈ s.viewChangesOf id ∨ a = .timeout id ∧ D.enableViewchange = true ∧
      vc = D.sendViewChangeMsg (Deployment.startViewChange (s.replica id)) := by
  rw [mem_viewChangesOf] at member ⊢
  have others : ∀ {α : Type} {wrap : α → Message} {sent : List α},
      (∀ x, wrap x ≠ .viewChange id vc) → .viewChange id vc ∉ sent.map wrap := by
    intro α wrap sent differ inside
    obtain ⟨x, -, same⟩ := List.mem_map.mp inside
    exact differ x same
  cases effect with
  | client new =>
      refine .inl ((List.mem_append.mp member).resolve_right (fun last => ?_))
      cases List.mem_singleton.mp last
  | inject =>
      refine .inl ((List.mem_append.mp member).resolve_right (fun last => ?_))
      cases List.mem_singleton.mp last
      exact honest.2 authentic.1
  | timeout _ on =>
      refine (List.mem_append.mp member).imp_right (fun last => ?_)
      cases List.mem_singleton.mp last
      exact ⟨rfl, on, rfl⟩
  | consensus _ _ _ _ =>
      exact .inl ((List.mem_append.mp member).resolve_right (others (fun _ => nofun)))
  | newView _ _ _ =>
      exact .inl ((List.mem_append.mp member).resolve_right (others (fun _ => nofun)))
  | viewChange _ _ _ =>
      exact .inl ((List.mem_append.mp member).resolve_right (others (fun _ => nofun)))
  | digest _ _ =>
      exact .inl ((List.mem_append.mp member).resolve_right (others (fun _ => nofun)))
  | _ => exact .inl ((List.mem_append.mp member).resolve_right List.not_mem_nil)

theorem Held.step {j : Int} {c : Request} (effect : Effect D byz s a s')
    (retains : Retains D byz s a)
    (stable : (s.replica j).ckpt.stableCkpt.seq ≤ (s'.replica j).ckpt.stableCkpt.seq)
    (held : Held D (s.replica j) c) : Held D (s'.replica j) c := by
  obtain ⟨reaches, place⟩ := held
  refine ⟨reaches.trans ((effect_grows effect retains j).highest), ?_⟩
  rcases place with low | place
  · exact .inl (low.trans stable)
  · unfold Deployment.collector at place ⊢
    cases effect_pool effect j with
    | same pool handed => exact .inr (pool ▸ place)
    | @collected info result taken member valid reached =>
        right
        rw [reached.pool]
        by_cases here : D.index c.seq = D.index info.request.seq
        · rw [here] at place ⊢
          rw [Function.update_self]
          exact ⟨reached.added.seq_eq.trans place.1, reached.added.past place.2⟩
        · rwa [Function.update_of_ne here]
    | replaced taken pool handed view =>
        subst taken
        have released : Released D (s.replica j) := retains
        rw [pool]
        unfold Deployment.update
        split_ifs
        · exact .inr place
        · by_cases here : D.index c.seq = D.index (s.replica j).executor.nextExecuteSeq ^^^
              D.capacity
          · rw [here] at place
            rcases released with low | early
            · exact .inl ((place.1.ge.trans low).trans stable)
            · exact absurd place.2.rank (not_le.mpr early)
          · rw [Function.update_of_ne here]
            exact .inr place

end Moves

section Step
variable (effect : Effect D byz s a s') (steady : Steady D byz s a) (retains : Retains D byz s a)
include effect steady retains

theorem new_commit_held {c : Request} (new : NewCommit D byz s c a s') (commit : c.type = .commit)
    (honest : Honest D byz c.senderId) :
    Held D (s'.replica c.senderId) c ∧ Remains s c.senderId c.currentView := by
  cases new with
  | faulty faulty member => exact absurd faulty honest.2
  | @prepared id info result _ _ reached prepare changed raised copied =>
      subst copied
      obtain ⟨seq, ready, past⟩ := reached.added.past_of_changed prepare changed
      have place : D.collector (s'.replica id) info.request.seq = result.1 := by
        rw [Deployment.collector, reached.pool, Function.update_self]
      refine ⟨⟨raised, .inr ?_⟩, ?_⟩
      · change (D.collector (s'.replica id) info.request.seq).seq = info.request.seq ∧
          (D.collector (s'.replica id) info.request.seq).Past _ info.request.hash
        rw [place]
        exact ⟨reached.added.seq_eq.trans seq, past⟩
      · exact retains prepare ready (reached.added.full_of_changed prepare changed)
  | redone _ checks data listed same =>
      obtain ⟨-, seq, past⟩ := (steady checks data c listed commit).2 honest
      obtain ⟨reaches, remains⟩ := (retains checks data).2.2 c listed commit honest
      refine ⟨⟨reaches.trans (effect_grows effect retains _).highest, .inr ?_⟩, remains⟩
      rw [Deployment.collector, same]
      exact ⟨seq, past⟩

theorem Carried.step (carried : Carried D byz s) : Carried D byz s' where
  ledger := carried.ledger.step effect steady (fun _ => le_rfl)
    (fun id _ fits => fits.trans (effect_grows effect retains id).view)
  stable := fun id => ((effect_ckpt effect id).stable (carried.stable id)).1
  held := by
    intro c sent commit honest
    rcases effect_commit effect steady.authentic sent commit with old | new
    · exact (carried.held c old commit honest).step effect retains
        ((effect_ckpt effect _).stable (carried.stable _)).2
    · exact (new_commit_held effect steady retains new commit honest).1
  covered := by
    intro c sent commit honest vc member later
    rcases effect_commit effect steady.authentic sent commit with old | new
    · rcases effect_viewChange effect steady.authentic honest member with before | ⟨rfl, on, rfl⟩
      · exact carried.covered c old commit honest vc before later
      · exact (carried.held c old commit honest).covers on retains
    · rcases effect_viewChange effect steady.authentic honest member with before | ⟨rfl, -, -⟩
      · have remains := (new_commit_held effect steady retains new commit honest).2
        exact absurd (remains vc before) (not_le.mpr later)
      · cases new with
        | faulty faulty _ => exact absurd faulty honest.2

end Step

theorem initial_carried : Carried D byz {} where
  ledger := initial_ledger _
  stable := fun _ => rfl
  held := fun _ ⟨_, member⟩ => absurd member List.not_mem_nil
  covered := fun _ ⟨_, member⟩ => absurd member List.not_mem_nil

def Loyal (D : Deployment) (byz : Finset Int) (s : System) (a : Action) : Prop :=
  Steady D byz s a ∧ Retains D byz s a

instance (s : System) (a : Action) : Decidable (Loyal D byz s a) :=
  inferInstanceAs (Decidable (_ ∧ _))

theorem run_carried {as : List Action} (along : Run.Along (step D byz) (Loyal D byz) {} as)
    (ran : Run.exec (step D byz) {} as = some s) : Carried D byz s := by
  refine Run.exec_invariant (fun s a s' (carried : Carried D byz s) loyal taken => ?_)
    initial_carried along ran
  exact carried.step (step_effect carried.ledger.resting taken) loyal.1 loyal.2

/-- There is a request for the number, and no request for it is a null request or has another
hash. -/
def Redoes (list : List Request) (q : Request) : Prop :=
  (∃ request ∈ list, request.seq = q.seq) ∧
    ∀ request ∈ list, request.seq = q.seq → request.type = .commit ∧ request.hash = q.hash

theorem redoRequest_of_reported {nv : NewViewMessage} (consistent : Consistent nv)
    {entry : PreparedMessage} (member : entry ∈ nv.prepared) {hash : Bytes}
    (reports : reportedHash entry = some hash) (id : Int) (needSign : Bool) :
    (D.redoRequest id nv needSign entry.seq).type = .commit ∧
      (D.redoRequest id nv needSign entry.seq).hash = hash := by
  cases found : nv.lastPrepared entry.seq with
  | none =>
      have unlisted := List.find?_eq_none.mp found entry (List.mem_reverse.mpr member)
      exact absurd (decide_eq_true rfl) unlisted
  | some last =>
      have inside : last ∈ nv.prepared := List.mem_reverse.mp (List.mem_of_find?_eq_some found)
      have number : last.seq = entry.seq := by
        simpa using List.find?_some found
      have same := consistent.1 last inside entry member number
      rw [reports, reportedHash, Option.map_eq_some_iff] at same
      obtain ⟨proof, first, rfl⟩ := same
      unfold Deployment.redoRequest
      rw [found, Option.bind_some, first]
      exact ⟨rfl, rfl⟩

theorem redoes_of_covers {nv : NewViewMessage} (consistent : Consistent nv)
    {vc : ViewChangeMessage} (listed : vc ∈ nv.viewchangeMessages) {q : Request}
    (covers : Covers vc q) (id : Int) (needSign : Bool) :
    q.seq ≤ nv.minStable ∨ Redoes (D.redoList id nv needSign) q := by
  refine or_iff_not_imp_left.mpr (fun above => ?_)
  rcases covers with stable | ⟨entry, reported, number, reports⟩
  · exact absurd (stable.trans (consistent.2 vc listed)) above
  · have member : entry ∈ nv.prepared := NewViewMessage.mem_prepared.mpr ⟨vc, listed, reported⟩
    have redone := redoRequest_of_reported (D := D) consistent member reports id needSign
    rw [number] at redone
    constructor
    · refine ⟨_, Deployment.mem_redoList.mpr ⟨q.seq, ?_, ?_, rfl⟩, Deployment.redoRequest_seq _ _⟩
      · exact (Nat.mod_le _ _).trans (not_le.mp above)
      · exact (nv.le_maxSeq_iff q.seq).mpr (.inl ⟨vc, listed, entry, reported, number.ge⟩)
    · intro request inside same
      obtain ⟨seq, -, -, rfl⟩ := Deployment.mem_redoList.mp inside
      rw [Deployment.redoRequest_seq] at same
      rw [same]
      exact redone

/-- In a run of loyal steps, a NEW-VIEW message that is accepted for a later view than the one
in which a request was committed either starts above the number of the request, or the request
computed for that number has its hash. -/
theorem committed_hash_redone {f : ℕ} (size : D.totalNum = 3 * f + 1) (few : byz.card ≤ f)
    {as : List Action} (along : Run.Along (step D byz) (Loyal D byz) {} as)
    (ran : Run.exec (step D byz) {} as = some s) {i : Int} {view : ℕ} {q : Request}
    (committed : (view, q) ∈ (s.replica i).handed) {id sender : Int} {nv : NewViewMessage}
    (loyal : Loyal D byz s (.deliver id (.newView sender nv)))
    (accepted : D.Accepted id (s.replica id) nv) (later : view < nv.viewNumber) :
    ∃ list, D.getPrepareMsg id nv false = some list ∧
      (q.seq ≤ nv.minStable ∨ Redoes list q) := by
  have carried := run_carried along ran
  obtain ⟨r', ret, sent, done, code, -⟩ := accepted
  obtain ⟨computed, checks, data⟩ : D.getPrepareMsg id nv false = some (D.redoList id nv false) ∧
      D.Expected (s.replica id) nv ∧ D.DataMatches id nv := by
    rcases Deployment.processNewView_cases (D := D) id (s.replica id) nv with
      ⟨-, refused⟩ | ⟨-, -, crashed⟩ | ⟨checks, computed, ⟨-, refused⟩ | ⟨data, -⟩⟩
    · rw [refused] at done
      cases done
      exact absurd rfl code
    · rw [crashed] at done
      cases done
    · rw [refused] at done
      cases done
      exact absurd rfl code
    · exact ⟨computed, checks, data⟩
  obtain ⟨full, consistent, -⟩ := loyal.2 checks data
  refine ⟨_, computed, ?_⟩
  -- a replica that sent a COMMIT and whose announcement is in the message
  obtain ⟨S, subset, quorum, cast⟩ := carried.ledger.backed i view q committed
  have known : announcers D s nv ⊆ replicas D.totalNum := Finset.filter_subset _ _
  rw [Deployment.quorum, size, Config.minDataReceiveNum_eq, Config.faultBound_exact] at full quorum
  rw [size] at subset known
  obtain ⟨k, voted, announced, honest⟩ := Config.exists_common_honest subset known quorum full few
  obtain ⟨c, sent, commit, seq, hash, name, before⟩ := cast k voted
  obtain ⟨-, vc, listed, number, broadcast⟩ := Finset.mem_filter.mp announced
  have member : Honest D byz c.senderId := by
    rw [name, Honest, size]
    exact ⟨subset voted, honest⟩
  have covers := carried.covered c sent commit member vc (name ▸ broadcast)
    (before.trans_lt (number ▸ later))
  rw [Covers, seq, hash] at covers
  exact redoes_of_covers consistent listed covers id false

section Sample

/-- What a replica announces that has prepared the request of replicas 1 to 3. -/
def sampleReport : ViewChangeMessage where
  viewNumber := 2
  preparedMsg := [⟨1, [1, 2, 3].map (samplePrepare sampleDeployment 1 1 [1])⟩]

/-- What the Byzantine replica 4 announces: three copies of a message of its own. -/
def sampleForgery : ViewChangeMessage where
  viewNumber := 2
  preparedMsg := [⟨1, List.replicate 3 (samplePrepare sampleDeployment 1 1 [9] 4)⟩]

def sampleRedo (messages : List ViewChangeMessage) : NewViewMessage :=
  let nv : NewViewMessage := { viewNumber := 2, viewchangeMessages := messages }
  { nv with request := sampleDeployment.redoList 2 nv true }

/-- Replicas 1 to 3 commit a request and give up on view 1; replica 2 hears of it. -/
def sampleChange (announced : List (Int × ViewChangeMessage)) : List Action :=
  sampleAgreement sampleDeployment 1 ++ [1, 2, 3].map Action.timeout ++
    [Action.inject (.viewChange 4 sampleForgery)] ++
    announced.map (fun m => Action.deliver 2 (.viewChange m.1 m.2))

theorem sample_hash_redone : ∃ s q list,
    Run.exec (step sampleDeployment {4}) {}
        (sampleChange [(1, sampleReport), (2, sampleReport), (3, sampleReport)]) = some s ∧
      (s.replica 1).handed = [(1, q)] ∧ q.seq = 1 ∧
      sampleDeployment.getPrepareMsg 3
        (sampleRedo [sampleReport, sampleReport, sampleReport]) false = some list ∧
      (q.seq ≤ (sampleRedo [sampleReport, sampleReport, sampleReport]).minStable ∨
        Redoes list q) := by
  have along : Run.Along (step sampleDeployment {4}) (Loyal sampleDeployment {4}) {}
      (sampleChange [(1, sampleReport), (2, sampleReport), (3, sampleReport)]) := by
    decide +kernel
  obtain ⟨s, ran, facts⟩ := (Option.any_eq_true _ _).mp
    (show (Run.exec (step sampleDeployment {4}) {}
        (sampleChange [(1, sampleReport), (2, sampleReport), (3, sampleReport)])).any (fun s =>
      decide ((s.replica 1).handed.map (fun p => (p.1, p.2.seq)) = [(1, 1)] ∧
        Loyal sampleDeployment {4} s (.deliver 3
          (.newView 2 (sampleRedo [sampleReport, sampleReport, sampleReport]))) ∧
        (sampleDeployment.processNewView 3 (s.replica 3)
          (some (sampleRedo [sampleReport, sampleReport, sampleReport]))).any (fun out =>
            decide (out.2.1 ≠ -2 ∧ out.1.view = 2)) = true)) = true by decide +kernel)
  obtain ⟨handed, loyal, installed⟩ := of_decide_eq_true facts
  obtain ⟨⟨view, q⟩, atOne, here⟩ := List.map_eq_singleton_iff.mp handed
  simp only [Prod.mk.injEq] at here
  obtain ⟨rfl, number⟩ := here
  obtain ⟨⟨r', ret, sent⟩, done, outcome⟩ := (Option.any_eq_true _ _).mp installed
  obtain ⟨code, reached⟩ := of_decide_eq_true outcome
  have member : (1, q) ∈ (s.replica 1).handed := atOne ▸ List.mem_singleton_self _
  obtain ⟨list, computed, redone⟩ := committed_hash_redone (f := 1) rfl (by decide) along ran
    member loyal ⟨r', ret, sent, done, code, reached⟩ (by decide)
  exact ⟨s, q, list, ran, atOne, number, computed, redone⟩

/-- With the announcement of replica 4 for that of replica 1, replica 3 installs view 2, in
which the number is to be committed with another hash. -/
theorem forged_report_redone :
    (∀ a ∈ sampleChange [(2, sampleReport), (3, sampleReport), (4, sampleForgery)],
      Authentic sampleDeployment {4} a) ∧
    (Run.exec (step sampleDeployment {4}) {}
      (sampleChange [(2, sampleReport), (3, sampleReport), (4, sampleForgery)] ++
        [.deliver 3 (.newView 2 (sampleRedo [sampleReport, sampleReport, sampleForgery]))])).map
      (fun s => ((s.replica 1).handed.map (fun p => (p.1, p.2.seq, p.2.hash)),
        (s.replica 3).view)) = some ([(1, 1, [1])], 2) ∧
      (sampleRedo [sampleReport, sampleReport, sampleForgery]).minStable = 0 ∧
      (sampleDeployment.getPrepareMsg 3 (sampleRedo [sampleReport, sampleReport, sampleForgery])
        false).map (fun list => list.map (fun request =>
          (request.type, request.seq, request.hash))) = some [(.commit, 1, [9])] := by
  refine ⟨?_, ?_, ?_, ?_⟩
  · decide +kernel
  · decide +kernel
  · decide +kernel
  · decide +kernel

end Sample
end System
end ResDB.Pbft
