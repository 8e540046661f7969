import Mathlib.Tactic
import ResDB.Pbft.ViewChange

/-! Which NEW-VIEW messages `ProcessNewView` installs, against what such a message is
supposed to be. The message names no senders of the view-change messages in it, so who sent
them is a relation `sent`. -/
namespace ResDB.Pbft
open TdHotstuff (replicas)

/-- The fields of a request besides its data that a redo list fixes. -/
def Request.outline (request : Request) : ℕ × ℕ × RequestType × Bytes :=
  (request.seq, request.currentView, request.type, request.hash)

namespace Deployment
variable (D : Deployment) (sent : Int → ViewChangeMessage → Prop) (id : Int) (r : Replica)
  (sender : Int) (nv : NewViewMessage)

/-- There are messages for the view in the list, each from a replica of its own, enough for
a quorum. -/
def FromQuorum (view : ℕ) (vcs : List ViewChangeMessage) : Prop :=
  ∃ (ids : List Int) (picked : List ViewChangeMessage),
    ids.Nodup ∧ (∀ i ∈ ids, i ∈ replicas D.totalNum) ∧ D.quorum ≤ ids.length ∧
      picked.Sublist vcs ∧ List.Forall₂ (fun i vc => sent i vc ∧ vc.viewNumber = view) ids picked

structure SoundNewView : Prop where
  primary : sender = D.primaryOf nv.viewNumber
  announced : D.FromQuorum sent nv.viewNumber
    (nv.viewchangeMessages.filter (D.isValidViewChangeMsg r))
  requests : ∃ list, D.getPrepareMsg id nv false = some list ∧
    list.map Request.outline = nv.request.map Request.outline ∧
    list.map (fun request => request.data) = nv.request.map (fun request => request.data)

/-- The call returns, and either it refuses the message and changes nothing of the view, or
the message is sound and its view is installed. -/
def SoundOutcome (message : Option NewViewMessage) : Prop :=
  ∃ r' ret out, D.processNewView id r message = some (r', ret, out) ∧
    (ret = -2 ∧ r'.view = r.view ∧ r'.primary = r.primary ∧ r'.nextSeq = r.nextSeq ∨
      ∃ nv, message = some nv ∧ r'.view = nv.viewNumber ∧ D.SoundNewView sent id r sender nv)

/-- The checks that `ProcessNewView` makes before it looks at the requests. -/
def Expected : Prop :=
  nv.viewNumber = (r.view + r.viewChangeCounter) % 2 ^ 64 ∧
    nv.viewchangeMessages.all (D.isValidViewChangeMsg r) = true

def DataMatches : Prop :=
  (D.redoList id nv false).map (fun request => request.data) =
      nv.request.map (fun request => request.data) ∧
    covers nv (D.redoList id nv false) = true

/-- The message is the one that `SendNewViewMsg` of the view's primary, in the state `r`, builds
from the VIEW-CHANGE messages of a quorum of replicas for the view. -/
structure Built : Prop where
  sent : ∃ r', D.sendNewViewMsg (D.primaryOf nv.viewNumber) r nv.viewNumber = some (r', [nv])
  named : ∀ entry ∈ (r.viewchangeRequest nv.viewNumber).entries,
    entry.1 ∈ replicas D.totalNum ∧ entry.2.viewNumber = nv.viewNumber
  full : D.quorum ≤ (r.viewchangeRequest nv.viewNumber).size

variable {D sent id r sender nv}

theorem installView_isSome_iff (list : List Request) :
    (D.installView id r nv list).isSome ↔ ∀ request ∈ nv.request, D.Readable r request := by
  rw [installView, Option.isSome_map, foldlM_redo_isSome_iff]
  rfl

theorem installView_installs {list : List Request} {r' : Replica} {ret : Int}
    {out : List RequestInfo} (installed : D.installView id r nv list = some (r', ret, out)) :
    Redone (D.enterView r nv.viewNumber (lastSeq nv list)) r' ∧ (ret = -4 ∨ ret = 0) ∧
      out = nv.request.map (D.message id) := by
  obtain ⟨last, done, result⟩ := Option.map_eq_some_iff.mp installed
  have redone := foldlM_redo_redone done
  simp only [Prod.mk.injEq] at result
  obtain ⟨rfl, rfl, rfl⟩ := result
  refine ⟨{ redone with }, ?_, rfl⟩
  split_ifs
  · exact .inl rfl
  · exact .inr rfl

theorem processNewView_cases (id : Int) (r : Replica) (nv : NewViewMessage) :
    (¬ D.Expected r nv ∧ D.processNewView id r (some nv) = some (r, -2, [])) ∨
      (D.Expected r nv ∧ D.getPrepareMsg id nv false = none ∧
        D.processNewView id r (some nv) = none) ∨
      (D.Expected r nv ∧ D.getPrepareMsg id nv false = some (D.redoList id nv false) ∧
        (¬ D.DataMatches id nv ∧ D.processNewView id r (some nv) = some (r, -2, []) ∨
          D.DataMatches id nv ∧ D.processNewView id r (some nv) =
            D.installView id r nv (D.redoList id nv false))) := by
  unfold processNewView Expected DataMatches
  dsimp only
  split_ifs with unexpected invalid
  · exact .inl ⟨fun checks => unexpected checks.1, rfl⟩
  · refine .inl ⟨fun checks => ?_, rfl⟩
    rw [invalid] at checks
    exact Bool.noConfusion checks.2
  · have checks : nv.viewNumber = (r.view + r.viewChangeCounter) % 2 ^ 64 ∧
        nv.viewchangeMessages.all (D.isValidViewChangeMsg r) = true :=
      ⟨not_not.mp unexpected, Bool.eq_true_of_not_eq_false invalid⟩
    cases computed : D.getPrepareMsg id nv false with
    | none => exact .inr (.inl ⟨checks, rfl, rfl⟩)
    | some list =>
        obtain ⟨-, -, same⟩ := getPrepareMsg_eq_some.mp computed
        subst same
        refine .inr (.inr ⟨checks, rfl, ?_⟩)
        dsimp only
        split_ifs with differs uncovered
        · exact .inl ⟨fun both => differs both.1, rfl⟩
        · refine .inl ⟨fun both => ?_, rfl⟩
          rw [uncovered] at both
          exact Bool.noConfusion both.2
        · exact .inr ⟨⟨not_not.mp differs, Bool.eq_true_of_not_eq_false uncovered⟩, rfl⟩

theorem fromQuorum_filter_valid (checks : D.Expected r nv) :
    nv.viewchangeMessages.filter (D.isValidViewChangeMsg r) = nv.viewchangeMessages :=
  List.filter_eq_self.mpr (List.all_eq_true.mp checks.2)

theorem soundOutcome_of_refused {message : Option NewViewMessage}
    (refused : D.processNewView id r message = some (r, -2, [])) :
    D.SoundOutcome sent id r sender message :=
  ⟨r, -2, [], refused, .inl ⟨rfl, rfl, rfl, rfl⟩⟩

theorem soundOutcome_of_installed (checks : D.Expected r nv) (data : D.DataMatches id nv)
    (computed : D.getPrepareMsg id nv false = some (D.redoList id nv false))
    (installs : D.processNewView id r (some nv) =
      D.installView id r nv (D.redoList id nv false)) :
    D.SoundOutcome sent id r sender (some nv) ↔
      sender = D.primaryOf nv.viewNumber ∧
        D.FromQuorum sent nv.viewNumber nv.viewchangeMessages ∧
        (D.redoList id nv false).map Request.outline = nv.request.map Request.outline ∧
        ∀ request ∈ nv.request, D.Readable r request := by
  constructor
  · rintro ⟨r', ret, out, returned, outcome⟩
    rw [installs] at returned
    have readable := (installView_isSome_iff (D.redoList id nv false)).mp
      (Option.isSome_of_eq_some returned)
    rcases outcome with ⟨refused, -⟩ | ⟨nv', same, -, sound⟩
    · rcases (installView_installs returned).2.1 with code | code
      · exact absurd (refused.symm.trans code) (by decide)
      · exact absurd (refused.symm.trans code) (by decide)
    · cases same
      obtain ⟨list, listed, outline, -⟩ := sound.requests
      rw [computed, Option.some_inj] at listed
      subst listed
      have announced := sound.announced
      rw [fromQuorum_filter_valid checks] at announced
      exact ⟨sound.primary, announced, outline, readable⟩
  · rintro ⟨primary, announced, outline, readable⟩
    have returns : (D.installView id r nv (D.redoList id nv false)).isSome :=
      (installView_isSome_iff _).mpr readable
    obtain ⟨⟨r', ret, out⟩, installed⟩ := Option.isSome_iff_exists.mp returns
    refine ⟨r', ret, out, installs.trans installed, .inr ⟨nv, rfl, ?_, primary, ?_, ?_⟩⟩
    · exact (installView_installs installed).1.view
    · rw [fromQuorum_filter_valid checks]
      exact announced
    · exact ⟨_, computed, outline, data.1⟩

theorem redoRequest_data (id' : Int) (needSign needSign' : Bool) (seq : ℕ) :
    (D.redoRequest id nv needSign seq).data = (D.redoRequest id' nv needSign' seq).data := by
  unfold redoRequest
  split <;> rfl

theorem redoRequest_outline (id' : Int) (needSign needSign' : Bool) (seq : ℕ) :
    (D.redoRequest id nv needSign seq).outline =
      (D.redoRequest id' nv needSign' seq).outline := by
  unfold redoRequest
  split <;> rfl

theorem map_redoList_congr {β : Type} {f : Request → β} {id' : Int} {needSign needSign' : Bool}
    (same : ∀ seq, f (D.redoRequest id nv needSign seq) = f (D.redoRequest id' nv needSign' seq)) :
    (D.redoList id nv needSign).map f = (D.redoList id' nv needSign').map f := by
  rw [redoList, redoList, List.map_map, List.map_map]
  exact List.map_congr_left (fun seq _ => same seq)

theorem sendNewViewMsg_sent {view : ℕ} {r' : Replica}
    (sent : D.sendNewViewMsg id r view = some (r', [nv])) :
    nv.viewchangeMessages = (r.viewchangeRequest view).entries.map (fun entry =>
        { entry.2 with viewNumber := view }) ∧
      D.getPrepareMsg id nv true = some nv.request := by
  unfold sendNewViewMsg at sent
  split_ifs at sent
  · cases sent
  · obtain ⟨list, computed, result⟩ := Option.map_eq_some_iff.mp sent
    obtain ⟨-, rfl⟩ : _ ∧ _ = nv := by simpa using result
    exact ⟨rfl, computed⟩

/-- The VIEW-CHANGE messages in it are those that the primary has, each from its sender. -/
theorem Built.fromQuorum (built : D.Built r nv) :
    D.FromQuorum (fun i vc => (i, vc) ∈ (r.viewchangeRequest nv.viewNumber).entries)
      nv.viewNumber nv.viewchangeMessages := by
  obtain ⟨r', sent⟩ := built.sent
  have messages : nv.viewchangeMessages =
      (r.viewchangeRequest nv.viewNumber).entries.map Prod.snd := by
    refine (sendNewViewMsg_sent sent).1.trans (List.map_congr_left (fun entry member => ?_))
    rw [← (built.named entry member).2]
  refine ⟨(r.viewchangeRequest nv.viewNumber).entries.map Prod.fst, nv.viewchangeMessages,
    SortedMap.nodup_keys _, ?_, ?_, List.Sublist.refl _, ?_⟩
  · intro i listed
    obtain ⟨entry, member, rfl⟩ := List.mem_map.mp listed
    exact (built.named entry member).1
  · rw [List.length_map]
    exact built.full
  · rw [messages, List.forall₂_map_left_iff, List.forall₂_map_right_iff, List.forall₂_same]
    exact fun entry member => ⟨member, (built.named entry member).2⟩

/-- What the primary of a view builds from the VIEW-CHANGE messages of a quorum, and sends, is
refused by `ProcessNewView` without any effect on the view, or it is sound and installed, if no
null request in it meets a collector that the receiver has committed. -/
theorem built_new_view_sound (D : Deployment) (on : D.enableViewchange = true)
    (r receiver : Replica) (id : Int) (nv : NewViewMessage) (built : D.Built r nv)
    (spared : ∀ request ∈ nv.request, request.type = .prePrepare →
      (D.collector receiver request.seq).isCommitted = false) :
    D.SoundOutcome (fun i vc => (i, vc) ∈ (r.viewchangeRequest nv.viewNumber).entries) id
      receiver (D.primaryOf nv.viewNumber) (some nv) := by
  obtain ⟨r', sent⟩ := built.sent
  obtain ⟨full, small, requests⟩ := getPrepareMsg_eq_some.mp (sendNewViewMsg_sent sent).2
  rcases processNewView_cases (D := D) id receiver nv with
    ⟨-, refused⟩ | ⟨-, crashed, -⟩ | ⟨checks, computed, ⟨-, refused⟩ | ⟨data, installs⟩⟩
  · exact soundOutcome_of_refused refused
  · -- the primary has read the same entries
    rw [getPrepareMsg_eq_some.mpr ⟨full, small, rfl⟩] at crashed
    cases crashed
  · exact soundOutcome_of_refused refused
  · refine (soundOutcome_of_installed checks data computed installs).mpr
      ⟨rfl, built.fromQuorum, ?_, fun request member null => ⟨on, spared request member null⟩⟩
    rw [requests]
    exact map_redoList_congr (redoRequest_outline _ _ _)

def sampleDeployment : Deployment where
  crypto := .sample
  codec := ⟨fun request => request.hash⟩
  totalNum := 4
  enableViewchange := true

/-- What replica `i` announces: request 1 as three replicas have prepared it. -/
def sampleAnnounced (i : Int) : Int × ViewChangeMessage :=
  let request : Request :=
    { type := .prepare, data := [5], currentView := 1, seq := 1, hash := [7] }
  let proof (j : Int) : RequestInfo := ⟨request, Crypto.sample.signMessage j [7]⟩
  (i, { viewNumber := 2, preparedMsg := [⟨1, [proof 1, proof 3, proof 4]⟩] })

def sampleCollector : Replica :=
  [1, 3, 4].foldl (fun r i => addViewChange r i (sampleAnnounced i).2) {}

def sampleNewView : NewViewMessage where
  viewNumber := 2
  viewchangeMessages := [1, 3, 4].map (fun i => (sampleAnnounced i).2)
  request :=
    [{ type := .commit, data := [5], currentView := 2, seq := 1, hash := [7], senderId := 2 }]

/-- Replica 4 installs what replica 2, the primary of view 2, has built from three messages. -/
theorem sampleNewView_sound :
    (sampleDeployment.processNewView 4 {} (some sampleNewView)).map (fun o => (o.1.view, o.2.1)) =
        some (2, 0) ∧
      sampleDeployment.SoundOutcome
        (fun i vc => (i, vc) ∈ (sampleCollector.viewchangeRequest 2).entries) 4 {} 2
        (some sampleNewView) := by
  have entries : (sampleCollector.viewchangeRequest 2).entries = [1, 3, 4].map sampleAnnounced := by
    decide +kernel
  have built : sampleDeployment.Built sampleCollector sampleNewView := by
    refine ⟨?_, ?_, by decide +kernel⟩
    · have made : (sampleDeployment.sendNewViewMsg 2 sampleCollector 2).map Prod.snd =
          some [sampleNewView] := by decide +kernel
      obtain ⟨⟨r', list⟩, sent, same⟩ := Option.map_eq_some_iff.mp made
      exact ⟨r', same ▸ sent⟩
    · change ∀ entry ∈ (sampleCollector.viewchangeRequest 2).entries, _
      rw [entries]
      decide +kernel
  exact ⟨by decide +kernel, built_new_view_sound sampleDeployment rfl sampleCollector {} 4
    sampleNewView built (by decide +kernel)⟩

/-- A message for view 2 without a single view-change message, and with two requests that
agree with the null requests for the numbers 0 and 1 in their empty data. -/
def bareNewView : NewViewMessage where
  viewNumber := 2
  request := [{}, {}]

/-- Replica 3, which is not the primary of view 2, makes replica 4 install that view. -/
theorem bare_new_view_installed :
    (sampleDeployment.processNewView 4 {} (some bareNewView)).map (fun o => (o.1.view, o.2.1)) =
        some (2, 0) ∧
      ¬ sampleDeployment.SoundOutcome (fun _ _ => True) 4 {} 3 (some bareNewView) := by
  refine ⟨by decide, fun ⟨r', ret, out, returned, outcome⟩ => ?_⟩
  have code : (sampleDeployment.processNewView 4 {} (some bareNewView)).map (fun o => o.2.1) =
      some 0 := by decide
  rw [returned, Option.map_some, Option.some_inj] at code
  rcases outcome with ⟨refused, -⟩ | ⟨nv, same, -, sound⟩
  · exact absurd (refused.symm.trans code) (by decide)
  · cases same
    exact absurd sound.primary (by decide)

end Deployment
end ResDB.Pbft
