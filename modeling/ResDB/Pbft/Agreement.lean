import Mathlib.Tactic
import ResDB.Pbft.Commits

/-! Agreement of PBFT: requests that two honest replicas hand to their executors under one
sequence number have one hash, in every run that stays clear of three defects. A collector
hands over its main request whatever hash the quorum of COMMITs is for, the ring gives a
number a second collector, and the requests of a NEW-VIEW message are sent on unchecked. -/
namespace ResDB.Pbft
open TdHotstuff (replicas)
open Deployment (Collected sampleDeployment)

namespace System
variable (D : Deployment) (byz : Finset Int)

/-- If the message is a COMMIT that completes a quorum, it is for the main request. -/
def ForMain (c : Collector) (info : RequestInfo) : Prop :=
  info.request.type = .commit → c.status = .readyCommit →
    D.quorum ≤ (c.addSender info).received info →
    c.mainRequest.all (fun main => main.request.hash = info.request.hash) = true

instance (c : Collector) (info : RequestInfo) : Decidable (ForMain D c info) :=
  inferInstanceAs (Decidable (_ → _ → _ → _))

/-- The collector that makes room for a later number is of an earlier one, or unused. -/
def Reusable (pool : ℕ → Collector) (seq : ℕ) : Prop :=
  let old := pool (D.index seq ^^^ D.capacity)
  old.seq < seq + D.capacity ∨ old.seq = seq + D.capacity ∧ old.status = .none

instance (pool : ℕ → Collector) (seq : ℕ) : Decidable (Reusable D pool seq) :=
  inferInstanceAs (Decidable (_ ∨ _ ∧ _))

/-- A COMMIT in a NEW-VIEW message is one that the replica it names has prepared. -/
def Owned (s : System) (request : Request) : Prop :=
  request.type = .commit → request.senderId ∈ replicas D.totalNum ∧
    (Honest D byz request.senderId → D.enableViewchange = true ∧
      (D.collector (s.replica request.senderId) request.seq).seq = request.seq ∧
      (D.collector (s.replica request.senderId) request.seq).Past D.enableViewchange request.hash)

instance (s : System) (request : Request) : Decidable (Owned D byz s request) :=
  inferInstanceAs (Decidable (_ → _ ∧ (_ → _ ∧ _ ∧ _)))

/-- The step stays clear of the three defects, and what a Byzantine replica sends is under its
own id. -/
def Steady (s : System) : Action → Prop
  | .inject m => Authentic D byz (.inject m)
  | .deliver id (.consensus info) =>
      ForMain D (D.collector (s.replica id) info.request.seq) info
  | .execute id => Reusable D (s.replica id).pool (s.replica id).executor.nextExecuteSeq
  | .deliver id (.newView _ nv) =>
      D.Expected (s.replica id) nv → D.DataMatches id nv → ∀ request ∈ nv.request,
        Owned D byz s request
  | _ => True

instance (s : System) : (a : Action) → Decidable (Steady D byz s a)
  | .inject m => inferInstanceAs (Decidable (Authentic D byz (.inject m)))
  | .deliver id (.consensus info) =>
      inferInstanceAs (Decidable (ForMain D (D.collector (s.replica id) info.request.seq) info))
  | .execute id => inferInstanceAs
      (Decidable (Reusable D (s.replica id).pool (s.replica id).executor.nextExecuteSeq))
  | .deliver _ (.newView _ _) => inferInstanceAs (Decidable (_ ∧ _ → _ ∧ _ → ∀ _ ∈ _, _))
  | .deliver _ (.checkpoint _ _) | .deliver _ (.viewChange _ _) | .client _
  | .order _ | .digest _ | .stabilise _ _ | .timeout _ | .resume _ | .expire _ _ => .isTrue trivial

/-- The replica has a collector for a later number in the place of this one, or it is past
its PREPARE quorum for the hash. -/
def Spent (r : Replica) (request : Request) : Prop :=
  request.seq < (D.collector r request.seq).seq ∨
    (D.collector r request.seq).seq = request.seq ∧
      (D.collector r request.seq).Past D.enableViewchange request.hash

/-- A COMMIT of the replica for the number and hash, fit for a view. -/
def Cast (ok : ℕ → Request → Prop) (s : System) (view seq : ℕ) (hash : Bytes) (j : Int) : Prop :=
  ∃ request, s.Sent request ∧ request.type = .commit ∧ request.seq = seq ∧
    request.hash = hash ∧ request.senderId = j ∧ ok view request

/-- What the COMMITs of a run amount to. The relation `ok` between a view and a COMMIT that
is counted in it is kept through the changes of view. -/
structure Ledger (ok : ℕ → Request → Prop) (s : System) : Prop where
  resting : s.Resting
  coherent : ∀ id index, ((s.replica id).pool index).Coherent
  members : ∀ request, s.Sent request → request.type = .commit →
    request.senderId ∈ replicas D.totalNum
  tally : ∀ id index hash j, j ∈ ((s.replica id).pool index).senders .commit hash →
    Cast ok s (s.replica id).view ((s.replica id).pool index).seq hash j
  spent : ∀ request, s.Sent request → request.type = .commit → Honest D byz request.senderId →
    Spent D (s.replica request.senderId) request
  unique : ∀ request request', s.Sent request → s.Sent request' → request.type = .commit →
    request'.type = .commit → Honest D byz request.senderId →
    request'.senderId = request.senderId → request'.seq = request.seq →
    request'.hash = request.hash
  backed : ∀ id view request, (view, request) ∈ (s.replica id).handed →
    ∃ S ⊆ replicas D.totalNum, D.quorum ≤ S.card ∧
      ∀ j ∈ S, Cast ok s view request.seq request.hash j

variable {D byz} {ok : ℕ → Request → Prop} {s s' : System} {a : Action}

theorem Steady.authentic (steady : Steady D byz s a) : Authentic D byz a := by
  cases a with
  | inject m => exact steady
  | _ => trivial

theorem Cast.mono {view seq : ℕ} {hash : Bytes} {j : Int} (effect : Effect D byz s a s')
    (cast : Cast ok s view seq hash j) : Cast ok s' view seq hash j := by
  obtain ⟨request, sent, rest⟩ := cast
  exact ⟨request, effect_sent effect sent, rest⟩

theorem initial_ledger (ok : ℕ → Request → Prop) : Ledger D byz ok {} where
  resting := initial_resting
  coherent := by
    rintro _ _ main (found | member)
    · cases found
    · cases member
  members := fun _ ⟨_, member⟩ => absurd member List.not_mem_nil
  tally := fun _ _ _ _ member => absurd member (Finset.notMem_empty _)
  spent := fun _ ⟨_, member⟩ => absurd member List.not_mem_nil
  unique := fun _ _ ⟨_, member⟩ => absurd member List.not_mem_nil
  backed := fun _ _ _ member => absurd member List.not_mem_nil

theorem Spent.move {j : Int} {request : Request} (steady : Steady D byz s a)
    (move : PoolMove D s a j (s.replica j) (s'.replica j))
    (spent : Spent D (s.replica j) request) : Spent D (s'.replica j) request := by
  unfold Spent Deployment.collector at spent ⊢
  cases move with
  | same pool handed => rwa [pool]
  | @collected info result taken member valid reached =>
      rw [reached.pool]
      by_cases here : D.index request.seq = D.index info.request.seq
      · rw [here, Function.update_self, reached.added.seq_eq]
        rw [here] at spent
        exact spent.imp_right (fun ⟨seq, past⟩ => ⟨seq, reached.added.past past⟩)
      · rwa [Function.update_of_ne here]
  | replaced taken pool handed view =>
      subst taken
      have reuse : Reusable D _ _ := steady
      rw [pool]
      unfold Deployment.update
      split_ifs
      · exact spent
      · by_cases here : D.index request.seq = D.index (s.replica j).executor.nextExecuteSeq ^^^
            D.capacity
        · rw [here] at spent ⊢
          rw [Function.update_self]
          left
          rcases reuse with earlier | ⟨same, unused⟩
          · rcases spent with later | ⟨seq, -⟩
            · exact later.trans earlier
            · exact seq ▸ earlier
          · rcases spent with later | ⟨-, past⟩
            · exact same ▸ later
            · have rank := past.rank
              rw [unused] at rank
              exact absurd rank (by decide)
        · rwa [Function.update_of_ne here]

section Step
variable (ledger : Ledger D byz ok s) (effect : Effect D byz s a s')
include ledger effect

theorem Ledger.tally_step (fits : ∀ request, ok request.currentView request)
    (carry : ∀ id request, ok (s.replica id).view request → ok (s'.replica id).view request)
    (id : Int) (index : ℕ) (hash : Bytes) (j : Int)
    (member : j ∈ ((s'.replica id).pool index).senders .commit hash) :
    Cast ok s' (s'.replica id).view ((s'.replica id).pool index).seq hash j := by
  have old : ∀ {seq : ℕ}, Cast ok s (s.replica id).view seq hash j →
      Cast ok s' (s'.replica id).view seq hash j := by
    rintro seq ⟨request, sent, type, number, same, sender, fit⟩
    exact ⟨request, effect_sent effect sent, type, number, same, sender, carry id request fit⟩
  cases effect_pool effect id with
  | same pool handed =>
      rw [pool] at member ⊢
      exact old (ledger.tally id index hash j member)
  | @collected info result taken inside valid reached =>
      rw [reached.pool] at member ⊢
      by_cases here : index = D.index info.request.seq
      · subst here
        rw [Function.update_self] at member ⊢
        rw [reached.added.seq_eq]
        rcases reached.added.mem_senders member with before | ⟨seq, type, same, sender⟩
        · exact old (ledger.tally id _ hash j before)
        · have current : info.request.currentView = (s.replica id).view := by
            apply reached.current
            rw [← type]
            exact RequestType.noConfusion
          refine ⟨info.request, effect_sent effect ⟨info.signature, inside⟩, type.symm, seq.symm,
            same.symm, sender.symm, ?_⟩
          rw [reached.view, ← current]
          exact fits info.request
      · rw [Function.update_of_ne here] at member ⊢
        exact old (ledger.tally id index hash j member)
  | replaced taken pool handed view =>
      rw [pool] at member ⊢
      unfold Deployment.update at member ⊢
      split_ifs at member ⊢ with mismatch
      · exact old (ledger.tally id index hash j member)
      · by_cases here : index = D.index (s.replica id).executor.nextExecuteSeq ^^^ D.capacity
        · rw [here, Function.update_self] at member
          exact absurd member (Finset.notMem_empty _)
        · rw [Function.update_of_ne here] at member ⊢
          exact old (ledger.tally id index hash j member)

theorem Ledger.backed_step (steady : Steady D byz s a)
    (tally : ∀ id index hash j, j ∈ ((s'.replica id).pool index).senders .commit hash →
      Cast ok s' (s'.replica id).view ((s'.replica id).pool index).seq hash j)
    (members : ∀ request, s'.Sent request → request.type = .commit →
      request.senderId ∈ replicas D.totalNum)
    (id : Int) (view : ℕ) (request : Request)
    (member : (view, request) ∈ (s'.replica id).handed) :
    ∃ S ⊆ replicas D.totalNum, D.quorum ≤ S.card ∧
      ∀ j ∈ S, Cast ok s' view request.seq request.hash j := by
  have old : (view, request) ∈ (s.replica id).handed → ∃ S ⊆ replicas D.totalNum,
      D.quorum ≤ S.card ∧ ∀ j ∈ S, Cast ok s' view request.seq request.hash j := by
    intro before
    obtain ⟨S, subset, full, cast⟩ := ledger.backed id view request before
    exact ⟨S, subset, full, fun j inside => (cast j inside).mono effect⟩
  cases effect_pool effect id with
  | same pool handed => exact old (handed ▸ member)
  | replaced taken pool handed view => exact old (handed ▸ member)
  | @collected info result taken inside valid reached =>
      subst taken
      rw [reached.handed] at member
      cases List.mem_append.mp member with
      | inl before => exact old before
      | inr new =>
          obtain ⟨q, handed, same⟩ := Option.map_eq_some_iff.mp (Option.mem_toList.mp new)
          cases same
          obtain ⟨commits, ready, seq, full, main, found, hash, number⟩ :=
            reached.added.handed_main handed
          have forMain := steady commits ready.1 ready.2
          rw [found] at forMain
          have agrees : main.request.hash = info.request.hash := of_decide_eq_true forMain
          have place : (s'.replica id).pool (D.index info.request.seq) = result.1 := by
            rw [reached.pool, Function.update_self]
          have coherent := ledger.coherent id (D.index info.request.seq) main (.inl found)
          have voted : ∀ j ∈ result.1.senders .commit info.request.hash,
              Cast ok s' (s.replica id).view request.seq request.hash j := by
            intro j voter
            have cast := tally id (D.index info.request.seq) info.request.hash j
              (place ▸ voter)
            rw [place, reached.added.seq_eq, reached.view] at cast
            rw [hash, number, agrees, coherent]
            exact cast
          refine ⟨result.1.senders .commit info.request.hash, fun j voter => ?_, full, voted⟩
          obtain ⟨c, sent, type, -, -, sender, -⟩ := voted j voter
          rw [← sender]
          exact members c sent type

theorem Ledger.members_step (steady : Steady D byz s a) (request : Request)
    (sent : s'.Sent request) (commit : request.type = .commit) :
    request.senderId ∈ replicas D.totalNum := by
  rcases effect_commit effect steady.authentic sent commit with old | new
  · exact ledger.members request old commit
  · cases new with
    | faulty faulty member => exact member
    | prepared honest reached prepare changed raised copied =>
        rw [copied]
        exact honest.1
    | redone honest checks data listed same => exact (steady checks data request listed commit).1

omit ledger in
theorem new_commit (steady : Steady D byz s a) {request : Request}
    (new : NewCommit D byz s request a s') (commit : request.type = .commit)
    (honest : Honest D byz request.senderId) :
    Spent D (s'.replica request.senderId) request ∧
      (D.collector (s.replica request.senderId) request.seq).seq = request.seq ∧
      ((D.collector (s.replica request.senderId) request.seq).status = .readyPrepare ∨
        D.enableViewchange = true ∧ (D.collector (s.replica request.senderId) request.seq).Past
          D.enableViewchange request.hash) := by
  cases new with
  | faulty faulty member => exact absurd faulty honest.2
  | @prepared id info result _ _ reached prepare changed raised copied =>
      subst copied
      obtain ⟨seq, ready, past⟩ := reached.added.past_of_changed prepare changed
      refine ⟨.inr ?_, seq, .inl ready⟩
      have place : D.collector (s'.replica id) info.request.seq = result.1 := by
        rw [Deployment.collector, reached.pool, Function.update_self]
      change (D.collector (s'.replica id) info.request.seq).seq = info.request.seq ∧
        (D.collector (s'.replica id) info.request.seq).Past _ info.request.hash
      rw [place]
      exact ⟨reached.added.seq_eq.trans seq, past⟩
  | redone _ checks data listed same =>
      obtain ⟨on, seq, past⟩ := (steady checks data request listed commit).2 honest
      refine ⟨.inr ?_, seq, .inr ⟨on, past⟩⟩
      rw [Deployment.collector, same]
      exact ⟨seq, past⟩

theorem Ledger.unique_new (steady : Steady D byz s a) {request request' : Request}
    (new : NewCommit D byz s request a s') (commit : request.type = .commit)
    (sent : s'.Sent request') (commit' : request'.type = .commit)
    (honest : Honest D byz request.senderId) (sender : request'.senderId = request.senderId)
    (number : request'.seq = request.seq) : request'.hash = request.hash := by
  obtain ⟨-, seq, before⟩ := new_commit effect steady new commit honest
  have honest' : Honest D byz request'.senderId := sender ▸ honest
  rcases effect_commit effect steady.authentic sent commit' with old | new'
  · -- an earlier COMMIT has spent the number, so this one redoes it
    have spent := ledger.spent request' old commit' honest'
    rw [Spent, sender, number] at spent
    rcases spent with later | ⟨-, past'⟩
    · omega
    · rcases before with ready | ⟨on, past⟩
      · have rank := past'.rank
        rw [ready] at rank
        exact absurd rank (by decide)
      · exact Collector.Past.unique on past past'
  · obtain ⟨-, -, before'⟩ := new_commit effect steady new' commit' honest'
    cases new with
    | faulty faulty member => exact absurd faulty honest.2
    | prepared _ reached prepare changed raised copied =>
        cases new' with
        | faulty faulty member => exact absurd faulty honest'.2
        | prepared _ _ _ _ _ copied' => rw [copied, copied']
    | redone _ checks data listed same =>
        obtain ⟨on, -, past⟩ := (steady checks data request listed commit).2 honest
        cases new' with
        | faulty faulty member => exact absurd faulty honest'.2
        | redone _ checks' data' listed' same' =>
            have owned := (steady checks' data' request' listed' commit').2 honest'
            rw [sender, number] at owned
            exact Collector.Past.unique on past owned.2.2

theorem Ledger.step (steady : Steady D byz s a) (fits : ∀ request, ok request.currentView request)
    (carry : ∀ id request, ok (s.replica id).view request → ok (s'.replica id).view request) :
    Ledger D byz ok s' where
  resting := effect_resting effect ledger.resting
  coherent := by
    refine effect_collectors effect ?_ (fun _ _ _ _ add before => add.coherent before)
      ledger.coherent
    rintro _ main (found | member)
    · cases found
    · cases member
  members := ledger.members_step effect steady
  tally := ledger.tally_step effect fits carry
  spent := by
    intro request sent commit honest
    rcases effect_commit effect steady.authentic sent commit with old | new
    · exact (ledger.spent request old commit honest).move steady (effect_pool effect _)
    · exact (new_commit effect steady new commit honest).1
  unique := by
    intro request request' sent sent' commit commit' honest sender number
    rcases effect_commit effect steady.authentic sent commit with old | new
    · rcases effect_commit effect steady.authentic sent' commit' with old' | new'
      · exact ledger.unique request request' old old' commit commit' honest sender number
      · exact (ledger.unique_new effect steady new' commit' sent commit (sender ▸ honest)
          sender.symm number.symm).symm
    · exact ledger.unique_new effect steady new commit sent' commit' honest sender number
  backed := ledger.backed_step effect steady (ledger.tally_step effect fits carry)
    (ledger.members_step effect steady)

end Step

theorem run_ledger {as : List Action} (along : Run.Along (step D byz) (Steady D byz) {} as)
    (ran : Run.exec (step D byz) {} as = some s) : Ledger D byz (fun _ _ => True) s := by
  refine Run.exec_invariant (fun s a s' (ledger : Ledger D byz (fun _ _ => True) s) steady taken =>
    ?_) (initial_ledger _) along ran
  exact ledger.step (step_effect ledger.resting taken) steady (fun _ => trivial)
    (fun _ _ _ => trivial)

/-- In a run that stays clear of the defects, two requests that honest replicas hand over
under one number have one hash, whatever the views. -/
theorem handed_requests_agree {f : ℕ} (size : D.totalNum = 3 * f + 1) (few : byz.card ≤ f)
    {as : List Action} (along : Run.Along (step D byz) (Steady D byz) {} as)
    (ran : Run.exec (step D byz) {} as = some s) {i j : Int} {view view' : ℕ}
    {request request' : Request} (handed : (view, request) ∈ (s.replica i).handed)
    (handed' : (view', request') ∈ (s.replica j).handed) (seq : request.seq = request'.seq) :
    request.hash = request'.hash := by
  have ledger := run_ledger along ran
  obtain ⟨A, subA, fullA, castA⟩ := ledger.backed i view request handed
  obtain ⟨B, subB, fullB, castB⟩ := ledger.backed j view' request' handed'
  rw [Deployment.quorum, size, Config.minDataReceiveNum_eq, Config.faultBound_exact] at fullA fullB
  rw [size] at subA subB
  obtain ⟨k, inA, inB, honest⟩ := Config.exists_common_honest subA subB fullA fullB few
  obtain ⟨c, sent, commit, number, hash, sender, -⟩ := castA k inA
  obtain ⟨c', sent', commit', number', hash', sender', -⟩ := castB k inB
  have member : Honest D byz c'.senderId := by
    rw [sender', Honest, size]
    exact ⟨subB inB, honest⟩
  rw [← hash, ← hash']
  exact ledger.unique c' c sent' sent commit' commit member (sender.trans sender'.symm)
    (number.trans (seq.trans number'.symm))

section Sample

/-- What a client with key 5 asks for; the hash is the data. -/
def sampleTransaction (hash : Bytes) : Request :=
  { type := .newTxns, data := hash, hash := hash
    dataSignature := some (Crypto.sample.signMessage 5 hash) }

def sampleProposal (D : Deployment) (view seq : ℕ) (hash : Bytes) (primary : Int) : RequestInfo :=
  D.message primary { sampleTransaction hash with
    type := .prePrepare, currentView := view, seq := seq, senderId := primary }

def samplePrepare (D : Deployment) (view seq : ℕ) (hash : Bytes) (id : Int) : RequestInfo :=
  D.message id (Deployment.prepareRequest id (sampleProposal D view seq hash id).request)

def sampleCommit (D : Deployment) (view seq : ℕ) (hash : Bytes) (id : Int) : RequestInfo :=
  D.message id (D.commitRequest id (samplePrepare D view seq hash id).request)

/-- The replicas receive the messages of the senders, one after the other. -/
def sampleDeliver (ids : List Int) (messages : List RequestInfo) : List Action :=
  ids.flatMap (fun id => messages.map (fun info => .deliver id (.consensus info)))

/-- The primary proposes a transaction under its next number and replicas 1 to 3 agree on it. -/
def sampleAgreement (D : Deployment) (seq : ℕ) : List Action :=
  let hash : Bytes := [UInt8.ofNat seq]
  let request : RequestInfo := D.message 5 (sampleTransaction hash)
  [Action.client request, .deliver 1 (.consensus request)] ++
    sampleDeliver [1, 2, 3] [sampleProposal D 1 seq hash 1] ++
    sampleDeliver [1, 2, 3] ([1, 2, 3].map (samplePrepare D 1 seq hash)) ++
    sampleDeliver [1, 2, 3] ([1, 2, 3].map (sampleCommit D 1 seq hash))

theorem handed_requests_agree_sample : ∃ s first second,
    Run.exec (step sampleDeployment {4}) {} (sampleAgreement sampleDeployment 1) = some s ∧
      Run.Along (step sampleDeployment {4}) (Steady sampleDeployment {4}) {}
        (sampleAgreement sampleDeployment 1) ∧
      (s.replica 2).handed = [(1, first)] ∧ (s.replica 3).handed = [(1, second)] ∧
      first.hash = second.hash := by
  have along : Run.Along (step sampleDeployment {4}) (Steady sampleDeployment {4}) {}
    (sampleAgreement sampleDeployment 1) := by decide +kernel
  obtain ⟨s, ran, facts⟩ := (Option.any_eq_true _ _).mp
    (show (Run.exec (step sampleDeployment {4}) {} (sampleAgreement sampleDeployment 1)).any
      (fun s => decide ((s.replica 2).handed.map (fun p => (p.1, p.2.seq)) = [(1, 1)] ∧
        (s.replica 3).handed.map (fun p => (p.1, p.2.seq)) = [(1, 1)])) = true by decide +kernel)
  obtain ⟨handed, handed'⟩ := of_decide_eq_true facts
  obtain ⟨⟨view, first⟩, atTwo, here⟩ := List.map_eq_singleton_iff.mp handed
  obtain ⟨⟨view', second⟩, atThree, there⟩ := List.map_eq_singleton_iff.mp handed'
  simp only [Prod.mk.injEq] at here there
  obtain ⟨rfl, number⟩ := here
  obtain ⟨rfl, number'⟩ := there
  refine ⟨s, first, second, ran, along, atTwo, atThree, ?_⟩
  have member : (1, first) ∈ (s.replica 2).handed := atTwo ▸ List.mem_singleton_self _
  have member' : (1, second) ∈ (s.replica 3).handed := atThree ▸ List.mem_singleton_self _
  exact handed_requests_agree (f := 1) rfl (by decide) along ran member member'
    (number.trans number'.symm)

/-- The Byzantine primary 1 proposes one request to replica 2 and another to replicas 3 and 4,
which prepare and commit with its help. Replica 2 learns of their quorums. -/
def sampleEquivocation (D : Deployment) : List Action :=
  ([[1], [2], [3]].map (fun hash => Action.inject (.consensus (sampleProposal D 1 1 hash 1)))) ++
    [Action.inject (.consensus (samplePrepare D 1 1 [2] 1)),
      .inject (.consensus (sampleCommit D 1 1 [2] 1))] ++
    sampleDeliver [2] [sampleProposal D 1 1 [1] 1] ++
    sampleDeliver [3, 4] [sampleProposal D 1 1 [2] 1] ++
    sampleDeliver [2, 3] ([1, 3, 4].map (samplePrepare D 1 1 [2])) ++
    sampleDeliver [2] [sampleProposal D 1 1 [3] 1] ++
    sampleDeliver [2, 3] ([1, 2, 3].map (sampleCommit D 1 1 [2]))

/-- What replicas 2 and 3 have handed over in the end: view, number and hash. -/
def sampleHandover (D : Deployment) : Option (List (ℕ × ℕ × Bytes) × List (ℕ × ℕ × Bytes)) :=
  (Run.exec (step D {1}) {} (sampleEquivocation D)).map (fun s =>
    ((s.replica 2).handed.map (fun p => (p.1, p.2.seq, p.2.hash)),
      (s.replica 3).handed.map (fun p => (p.1, p.2.seq, p.2.hash))))

theorem equivocation_splits_handover :
    (∀ a ∈ sampleEquivocation sampleDeployment, Authentic sampleDeployment {1} a) ∧
    sampleHandover { sampleDeployment with enableViewchange := false } =
        some ([(1, 1, [1])], [(1, 1, [2])]) ∧
      sampleHandover sampleDeployment = some ([(1, 1, [3])], [(1, 1, [2])]) := by
  refine ⟨?_, ?_, ?_⟩
  · decide +kernel
  · decide +kernel
  · decide +kernel

end Sample
end System
end ResDB.Pbft
