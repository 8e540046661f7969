import ResDB.Library.Run
import ResDB.Pbft.Replica
import ResDB.Pbft.VotedExecution

/-! The order of delivery. The votes for one proposal may come in any order, and before their
phase; the last vote of a phase that comes in it, at the latest the replica's own, still
finds all the others counted, as long as the bit sets have a place for all replicas. -/
namespace ResDB.Pbft
open Collector (after Tracks)

/-- What `AddConsensusMsg` reports of a call. -/
def AddResult.code (result : AddResult) : CollectorResultCode :=
  if result.ret ≠ 1 ∧ result.ret ≠ 0 then .invalid
  else if result.changed then .stateChanged
  else .ok

theorem Deployment.addConsensusMsg_code (D : Deployment) {r : Replica} {info : RequestInfo}
    (valid : r.isValidMsg info.request = true) :
    (D.addConsensusMsg r info).2 = ((D.collector r info.request.seq).addRequest D.quorum
      D.enableViewchange info).2.code := by
  rw [addConsensusMsg, if_pos valid, AddResult.code]
  dsimp only
  split_ifs <;> rfl

namespace Collector
variable (quorum : ℕ) (enableViewchange : Bool)

def reports (c : Collector) : List RequestInfo → List (RequestType × AddResult)
  | [] => []
  | info :: rest =>
      (info.request.type, (c.addRequest quorum enableViewchange info).2) ::
        reports (c.addRequest quorum enableViewchange info).1 rest

def changes (seq : ℕ) (type : RequestType) (calls : List RequestInfo) : ℕ :=
  (reports quorum enableViewchange { seq } calls).countP
    (fun report => report.1 = type ∧ report.2.code = .stateChanged)

def handedOver (seq : ℕ) (calls : List RequestInfo) : List Request :=
  (reports quorum enableViewchange { seq } calls).filterMap (fun report => report.2.handed)

variable {quorum enableViewchange} {seq : ℕ} {calls : List RequestInfo} {info pre : RequestInfo}
  {c : Collector}

theorem reports_concat (c : Collector) (calls : List RequestInfo) (info : RequestInfo) :
    reports quorum enableViewchange c (calls ++ [info]) =
      reports quorum enableViewchange c calls ++
        [(info.request.type, ((calls.foldl (fun c info =>
          (c.addRequest quorum enableViewchange info).1) c).addRequest quorum enableViewchange
            info).2)] := by
  induction calls generalizing c with
  | nil => rfl
  | cons first rest ih => exact congrArg _ (ih _)

theorem changes_concat (type : RequestType) :
    changes quorum enableViewchange seq type (calls ++ [info]) =
      changes quorum enableViewchange seq type calls +
        if info.request.type = type ∧ ((after quorum enableViewchange seq calls).addRequest quorum
          enableViewchange info).2.code = .stateChanged then 1 else 0 := by
  rw [changes, reports_concat, List.countP_append, List.countP_singleton]
  simp only [decide_eq_true_eq]
  rfl

theorem handedOver_concat :
    handedOver quorum enableViewchange seq (calls ++ [info]) =
      handedOver quorum enableViewchange seq calls ++
        ((after quorum enableViewchange seq calls).addRequest quorum enableViewchange
          info).2.handed.toList := by
  rw [handedOver, reports_concat, List.filterMap_append]
  refine congrArg _ ?_
  rw [List.filterMap_cons, List.filterMap_nil, after]
  split
  · rename_i nothing
    rw [nothing]
    rfl
  · rename_i request handed
    rw [handed]
    rfl

/-! ### One call -/

/-- What a message about the proposal does to a collector that holds no other one. -/
inductive Outcome (quorum : ℕ) (calls : List RequestInfo) (c : Collector) (info : RequestInfo) :
    Collector × AddResult → Prop where
  | stays {c' : Collector} {result : AddResult} (status : c'.status = c.status)
      (main : c'.mainRequest = c.mainRequest) (view : c'.view = c.view)
      (quiet : result.code ≠ .stateChanged) (nothing : result.handed = none)
      (known : info.request.type = .prePrepare → c.status ≠ .none)
      (few : info.request.type = .prepare → c.status = .readyPrepare →
        (counted c.seq .prepare info.request.hash (calls ++ [info])).card < quorum)
      (fewer : info.request.type = .commit → c.status = .readyCommit →
        (counted c.seq .commit info.request.hash (calls ++ [info])).card < quorum) :
      Outcome quorum calls c info (c', result)
  | proposes {c' : Collector} {result : AddResult} (pre : info.request.type = .prePrepare)
      (fresh : c.status = .none) (status : c'.status = .readyPrepare)
      (main : c'.mainRequest = some info) (view : c'.view = info.request.currentView)
      (changed : result.code = .stateChanged) (nothing : result.handed = none) :
      Outcome quorum calls c info (c', result)
  | prepares {c' : Collector} {result : AddResult} (prepare : info.request.type = .prepare)
      (ready : c.status = .readyPrepare) (status : c'.status = .readyCommit)
      (main : c'.mainRequest = c.mainRequest) (view : c'.view = c.view)
      (changed : result.code = .stateChanged) (nothing : result.handed = none) :
      Outcome quorum calls c info (c', result)
  | executes {c' : Collector} {result : AddResult} (commits : info.request.type = .commit)
      (ready : c.status = .readyCommit) (status : c'.status = .executed)
      (changed : result.code = .stateChanged)
      (handed : ∃ certs, result.handed = c.mainRequest.map (fun main =>
        { main.request with committedCerts := main.request.committedCerts ++ certs })) :
      Outcome quorum calls c info (c', result)

/-- The collector knows of one proposal at most, and of its view. -/
structure OneProposal (pre : RequestInfo) (c : Collector) : Prop where
  main : c.mainRequest = if c.status = .none then none else some pre
  view : c.view = 0 ∨ c.view = pre.request.currentView

theorem addMain_outcome (holds : OneProposal pre c) (proposal : pre.request.type = .prePrepare) :
    Outcome quorum calls c pre (c.addMain quorum pre) := by
  have calm : c.force pre = false := by
    rw [force, decide_eq_false_iff_not]
    rintro ⟨nonzero, lower, -⟩
    rcases holds.view with zero | same
    · exact nonzero zero
    · exact lower.ne same
  have main := holds.main
  unfold addMain
  simp only [calm, Bool.false_eq_true, if_false]
  by_cases fresh : c.status = .none
  · rw [if_pos fresh] at main
    simp only [main, proposal, mayConsensusChangeStatus, fresh, if_true]
    exact .proposes proposal fresh rfl rfl rfl rfl rfl
  · rw [if_neg fresh] at main
    simp only [main]
    refine .stays rfl main.symm rfl (by decide) rfl (fun _ => fresh) ?_ ?_
    · intro prepare
      cases proposal.symm.trans prepare
    · intro commits
      cases proposal.symm.trans commits

theorem addVote_outcome (tracks : Tracks c.seq calls c) (waiting : c.status ≠ .executed)
    (own : info.request.seq = c.seq)
    (vote : info.request.type = .prepare ∨ info.request.type = .commit) :
    Outcome quorum calls c info (c.addVote quorum info) := by
  obtain ⟨certs, noted⟩ := noteCert_cases c info
  unfold addVote
  rw [noted]
  generalize tallied : ({ c with commitCerts := certs } : Collector).addSender info = c'
  have status : c'.status = c.status := by rw [← tallied]; rfl
  have main : c'.mainRequest = c.mainRequest := by rw [← tallied]; rfl
  have view : c'.view = c.view := by rw [← tallied]; rfl
  have senders : c'.senders = (c.addSender info).senders := by rw [← tallied]; rfl
  have resting : c'.status ≠ .readyExecute := status ▸ tracks.resting
  rcases vote with prepare | commits
  · by_cases moves : c'.status = .readyPrepare ∧ quorum ≤ c'.received info
    · simp only [prepare, mayConsensusChangeStatus, if_pos moves, reduceCtorEq, if_false]
      exact .prepares prepare (status ▸ moves.1) rfl main view rfl rfl
    · simp only [prepare, mayConsensusChangeStatus, if_neg moves, if_neg resting]
      refine .stays status main view (by decide) rfl ?_ ?_ ?_
      · intro pre
        cases prepare.symm.trans pre
      · intro _ ready
        have early : c.status.rank ≤ Status.readyPrepare.rank := by rw [ready]
        rw [← addSender_counted own (tracks.prepares early _), ← senders]
        rw [received, prepare] at moves
        exact not_le.mp (fun full => moves ⟨status.trans ready, full⟩)
      · intro commits
        cases prepare.symm.trans commits
  · by_cases moves : c'.status = .readyCommit ∧ quorum ≤ c'.received info
    · simp only [commits, mayConsensusChangeStatus, if_pos moves, if_true]
      refine .executes commits (status ▸ moves.1) (commit_status _) rfl ⟨c'.commitCerts, ?_⟩
      rw [← main]
      exact commit_snd _
    · simp only [commits, mayConsensusChangeStatus, if_neg moves, if_neg resting]
      refine .stays status main view (by decide) rfl ?_ ?_ ?_
      · intro pre
        cases commits.symm.trans pre
      · intro prepare
        cases commits.symm.trans prepare
      · intro _ ready
        rw [← addSender_counted own (tracks.commits waiting _), ← senders]
        rw [received, commits] at moves
        exact not_le.mp (fun full => moves ⟨status.trans ready, full⟩)

theorem addPrepare_outcome (tracks : Tracks c.seq calls c) (own : info.request.seq = c.seq)
    (prepare : info.request.type = .prepare)
    (same : ∀ main ∈ c.mainRequest, main.request.hash = info.request.hash) :
    Outcome quorum calls c info (c.addPrepare quorum info) := by
  have stays : ∀ {c' : Collector}, c'.status = c.status → c'.mainRequest = c.mainRequest →
      c'.view = c.view → (c.status = .readyPrepare →
        (counted c.seq .prepare info.request.hash (calls ++ [info])).card < quorum) →
      Outcome quorum calls c info (c', { ret := 0 }) := by
    intro c' status main view few
    refine .stays status main view (by decide) rfl ?_ (fun _ => few) ?_
    · intro pre
      cases prepare.symm.trans pre
    · intro commits
      cases prepare.symm.trans commits
  unfold addPrepare
  by_cases early : c.status.rank ≤ Status.readyPrepare.rank
  · rw [if_pos early, tracks.unprepared early, if_neg Bool.false_ne_true]
    generalize tallied : addSender { c with
      isPrepared := false, preparedProof := c.preparedProof ++ [info] } info = c'
    have status : c'.status = c.status := by rw [← tallied]; rfl
    have main : c'.mainRequest = c.mainRequest := by rw [← tallied]; rfl
    have view : c'.view = c.view := by rw [← tallied]; rfl
    have senders : c'.senders = (c.addSender info).senders := by rw [← tallied]; rfl
    by_cases moves : c'.status = .readyPrepare ∧ quorum ≤ c'.received info
    · simp only [prepare, mayConsensusChangeStatus, if_pos moves, if_true]
      refine .prepares prepare (status ▸ moves.1) rfl ?_ view rfl rfl
      have agree : c'.mainRequest.any (fun main => main.request.hash ≠ info.request.hash) =
          false := by
        rw [main, Option.any_eq_false]
        intro held found
        rw [same held found]
        exact decide_eq_false (not_not.mpr rfl)
      simp only [settle, agree, Bool.false_eq_true, if_false]
      exact main
    · have late : c'.status ≠ .readyCommit := by
        intro reached
        rw [← status, reached] at early
        exact absurd early (by decide)
      simp only [prepare, mayConsensusChangeStatus, if_neg moves, if_neg late]
      refine stays status main view (fun ready => ?_)
      rw [← addSender_counted own (tracks.prepares early _), ← senders]
      rw [received, prepare] at moves
      exact not_le.mp (fun full => moves ⟨status.trans ready, full⟩)
  · rw [if_neg early]
    refine stays rfl rfl rfl (fun ready => absurd ?_ early)
    rw [ready]

def Concerns (pre info : RequestInfo) : Prop :=
  info = pre ∨ ((info.request.type = .prepare ∨ info.request.type = .commit) ∧
    info.request.seq = pre.request.seq ∧ info.request.hash = pre.request.hash)

instance (pre info : RequestInfo) : Decidable (Concerns pre info) :=
  inferInstanceAs (Decidable (_ ∨ _))

theorem addRequest_outcome (tracks : Tracks pre.request.seq calls c)
    (holds : c.status ≠ .executed → OneProposal pre c)
    (proposal : pre.request.type = .prePrepare) (concerns : Concerns pre info) :
    Outcome quorum calls c info (c.addRequest quorum enableViewchange info) := by
  have number : c.seq = pre.request.seq := tracks.seq_eq
  by_cases done : c.status = .executed
  · rw [addRequest_executed done]
    refine .stays rfl rfl rfl (by decide) rfl ?_ ?_ ?_
    · intro _ fresh
      cases done.symm.trans fresh
    · intro _ ready
      cases done.symm.trans ready
    · intro _ ready
      cases done.symm.trans ready
  · have tracks' : Tracks c.seq calls c := number ▸ tracks
    rcases concerns with rfl | ⟨vote, own, hash⟩
    · rw [addRequest_open (tracks.uncommitted done) done number, if_pos proposal]
      exact addMain_outcome (holds done) proposal
    · have other : info.request.type ≠ .prePrepare := by
        rcases vote with prepare | commits
        · exact fun pre => nomatch prepare.symm.trans pre
        · exact fun pre => nomatch commits.symm.trans pre
      rw [addRequest_open (tracks.uncommitted done) done (number.trans own.symm), if_neg other]
      split_ifs with kept
      · refine addPrepare_outcome tracks' (own.trans number.symm) kept.2 ?_
        intro main found
        rw [(holds done).main] at found
        split_ifs at found
        · cases found
        · cases found
          exact hash.symm
      · exact addVote_outcome tracks' done (own.trans number.symm) vote

/-! ### Whole deliveries -/

def Voted (type : RequestType) (id : Int) (calls : List RequestInfo) : Prop :=
  ∃ info ∈ calls, info.request.type = type ∧ info.request.senderId = id

instance (type : RequestType) (id : Int) (calls : List RequestInfo) :
    Decidable (Voted type id calls) :=
  inferInstanceAs (Decidable (∃ info ∈ calls, _))

/-- What a replica of `n` receives about one proposal, in any order: the proposal, a PREPARE
and a COMMIT of every replica, and repetitions. Its own votes come after it has sent them: the
PREPARE after the proposal, the COMMIT after the change to `READY_COMMIT`, if there is one. -/
structure Delivery (n : ℕ) (enableViewchange : Bool) (own : Int) (pre : RequestInfo)
    (msgs : List RequestInfo) : Prop where
  proposal : pre.request.type = .prePrepare
  concerns : ∀ info ∈ msgs, Concerns pre info ∧ info.request.currentView = pre.request.currentView
  member : own ∈ TdHotstuff.replicas n
  proposed : pre ∈ msgs
  prepares : ∀ i ∈ TdHotstuff.replicas n, Voted .prepare i msgs
  commits : ∀ i ∈ TdHotstuff.replicas n, (i = own → Status.readyCommit.rank ≤
      (after (Config.minDataReceiveNum n) enableViewchange pre.request.seq msgs).status.rank) →
    Voted .commit i msgs
  ownPrepare : ∀ made info, made ++ [info] <+: msgs → info.request.type = .prepare →
    info.request.senderId = own → pre ∈ made
  ownCommit : ∀ made info, made ++ [info] <+: msgs → info.request.type = .commit →
    info.request.senderId = own → Status.readyCommit.rank ≤
      (after (Config.minDataReceiveNum n) enableViewchange pre.request.seq made).status.rank

def phases : List (RequestType × Status) :=
  [(.prePrepare, .readyPrepare), (.prepare, .readyCommit), (.commit, .readyExecute)]

def moves : List (Status × RequestType × Status) :=
  [(.none, .prePrepare, .readyPrepare), (.readyPrepare, .prepare, .readyCommit),
    (.readyCommit, .commit, .executed)]

theorem phases_move : ∀ move ∈ moves, ∀ phase ∈ phases,
    ((if phase.2.rank ≤ move.1.rank then 1 else 0) + if move.2.1 = phase.1 then 1 else 0) =
      if phase.2.rank ≤ move.2.2.rank then 1 else 0 := by
  decide

/-- How far a delivery has come. In a phase in which the replica has voted itself the votes
are short of a quorum. -/
structure Progress (quorum : ℕ) (enableViewchange : Bool) (own : Int) (pre : RequestInfo)
    (made : List RequestInfo) (c : Collector) : Prop where
  one : c.status ≠ .executed → OneProposal pre c
  proposed : pre ∈ made ↔ c.status ≠ .none
  prepareSince : Voted .prepare own made → c.status ≠ .none
  commitSince : Voted .commit own made → Status.readyCommit.rank ≤ c.status.rank
  preparing : c.status = .readyPrepare → Voted .prepare own made →
    (counted pre.request.seq .prepare pre.request.hash made).card < quorum
  committing : c.status = .readyCommit → Voted .commit own made →
    (counted pre.request.seq .commit pre.request.hash made).card < quorum
  changes_eq : ∀ phase ∈ phases, changes quorum enableViewchange pre.request.seq phase.1 made =
    if phase.2.rank ≤ c.status.rank then 1 else 0
  handed : ∃ certs, handedOver quorum enableViewchange pre.request.seq made =
    if c.status = .executed then
      [{ pre.request with committedCerts := pre.request.committedCerts ++ certs }] else []

theorem voted_concat {type : RequestType} {own : Int} :
    Voted type own (calls ++ [info]) ↔ Voted type own calls ∨
      info.request.type = type ∧ info.request.senderId = own := by
  simp only [Voted, List.mem_append, List.mem_singleton, or_and_right, exists_or, exists_eq_left]

theorem voted_concat_of_ne {type : RequestType} {own : Int} (other : info.request.type ≠ type) :
    Voted type own (calls ++ [info]) ↔ Voted type own calls := by
  rw [voted_concat]
  exact or_iff_left (fun same => other same.1)

theorem Concerns.eq_pre (concerns : Concerns pre info)
    (proposal : info.request.type = .prePrepare) :
    info = pre := by
  rcases concerns with same | ⟨prepare | commits, -⟩
  · exact same
  · cases proposal.symm.trans prepare
  · cases proposal.symm.trans commits

theorem Concerns.seq_eq (concerns : Concerns pre info) : info.request.seq = pre.request.seq := by
  rcases concerns with rfl | ⟨-, seq, -⟩
  · rfl
  · exact seq

theorem Concerns.hash_eq (concerns : Concerns pre info) : info.request.hash = pre.request.hash := by
  rcases concerns with rfl | ⟨-, -, hash⟩
  · rfl
  · exact hash

theorem progress_initial {own : Int} :
    Progress quorum enableViewchange own pre [] { seq := pre.request.seq } := by
  have nobody : ∀ type, ¬ Voted type own [] := by
    rintro type ⟨info, member, -⟩
    cases member
  refine ⟨fun _ => ⟨rfl, .inl rfl⟩, ⟨nofun, fun started => absurd rfl started⟩,
    fun voted => absurd voted (nobody _), fun voted => absurd voted (nobody _), nofun, nofun,
    ?_, ⟨[], rfl⟩⟩
  change ∀ phase ∈ phases, 0 = if phase.2.rank ≤ Status.none.rank then 1 else 0
  decide

/-- The next message, with what it does to the collector, and where the replica's own votes
stand. -/
structure Next (quorum : ℕ) (enableViewchange : Bool) (own : Int) (pre : RequestInfo)
    (made : List RequestInfo) (c : Collector) (info : RequestInfo)
    (result : Collector × AddResult) : Prop where
  concerns : Concerns pre info
  outcome : Outcome quorum made c info result
  seq : c.seq = pre.request.seq
  ownPrepare : info.request.type = .prepare → info.request.senderId = own → pre ∈ made
  ownCommit : info.request.type = .commit → info.request.senderId = own →
    Status.readyCommit.rank ≤ c.status.rank
  counts : ∀ type, changes quorum enableViewchange pre.request.seq type (made ++ [info]) =
    changes quorum enableViewchange pre.request.seq type made +
      if info.request.type = type ∧ result.2.code = .stateChanged then 1 else 0
  hands : handedOver quorum enableViewchange pre.request.seq (made ++ [info]) =
    handedOver quorum enableViewchange pre.request.seq made ++ result.2.handed.toList

section Step
variable {own : Int} {made : List RequestInfo} {result : Collector × AddResult}
  (progress : Progress quorum enableViewchange own pre made c)
  (next : Next quorum enableViewchange own pre made c info result)
include progress next

theorem Progress.changes_stays (status : result.1.status = c.status)
    (quiet : result.2.code ≠ .stateChanged) : ∀ phase ∈ phases,
    changes quorum enableViewchange pre.request.seq phase.1 (made ++ [info]) =
      if phase.2.rank ≤ result.1.status.rank then 1 else 0 := by
  intro phase member
  rw [next.counts, if_neg (fun both => quiet both.2), Nat.add_zero, status]
  exact progress.changes_eq phase member

theorem Progress.changes_moves {before later : Status} {type : RequestType}
    (move : (before, type, later) ∈ moves) (ready : c.status = before)
    (sort : info.request.type = type) (status : result.1.status = later)
    (changed : result.2.code = .stateChanged) : ∀ phase ∈ phases,
    changes quorum enableViewchange pre.request.seq phase.1 (made ++ [info]) =
      if phase.2.rank ≤ result.1.status.rank then 1 else 0 := by
  intro phase member
  rw [next.counts, progress.changes_eq phase member, ready, sort, status]
  simp only [changed, and_true]
  exact phases_move (before, type, later) move phase member

theorem Progress.handed_nothing (same : result.1.status = .executed ↔ c.status = .executed)
    (nothing : result.2.handed = none) : ∃ certs,
    handedOver quorum enableViewchange pre.request.seq (made ++ [info]) =
      if result.1.status = .executed then
        [{ pre.request with committedCerts := pre.request.committedCerts ++ certs }] else [] := by
  obtain ⟨certs, handed⟩ := progress.handed
  refine ⟨certs, ?_⟩
  rw [next.hands, nothing, handed]
  simp only [same]
  exact List.append_nil _

theorem Progress.since (rank : c.status.rank ≤ result.1.status.rank) :
    (Voted .prepare own (made ++ [info]) → result.1.status ≠ .none) ∧
      (Voted .commit own (made ++ [info]) → Status.readyCommit.rank ≤ result.1.status.rank) := by
  have started : c.status ≠ .none → result.1.status ≠ .none := by
    intro before after
    rw [after] at rank
    cases found : c.status with
    | none => exact before found
    | _ =>
        rw [found] at rank
        exact absurd rank (by decide)
  rw [voted_concat, voted_concat]
  refine ⟨?_, ?_⟩
  · rintro (voted | ⟨prepare, mine⟩)
    · exact started (progress.prepareSince voted)
    · exact started (progress.proposed.mp (next.ownPrepare prepare mine))
  · rintro (voted | ⟨commits, mine⟩)
    · exact (progress.commitSince voted).trans rank
    · exact (next.ownCommit commits mine).trans rank

theorem Progress.step (proposal : pre.request.type = .prePrepare) :
    Progress quorum enableViewchange own pre (made ++ [info]) result.1 := by
  obtain ⟨c', answer⟩ := result
  have outcome := next.outcome
  cases outcome with
  | stays status main view quiet nothing known few fewer =>
      rw [next.seq, next.concerns.hash_eq] at few fewer
      obtain ⟨prepareSince, commitSince⟩ := progress.since next (congrArg Status.rank status).ge
      refine ⟨?_, ?_, prepareSince, commitSince, ?_, ?_,
        progress.changes_stays next status quiet,
        progress.handed_nothing next (by rw [status]) nothing⟩
      · intro waiting
        dsimp only at status main view waiting
        rw [status] at waiting
        have one := progress.one waiting
        refine ⟨?_, ?_⟩
        · rw [main, status]
          exact one.main
        · rw [view]
          exact one.view
      · rw [status, List.mem_append, progress.proposed]
        refine or_iff_left_of_imp (fun last => known ?_)
        rw [← List.mem_singleton.mp last]
        exact proposal
      · rw [status]
        intro ready voted
        by_cases prepare : info.request.type = .prepare
        · exact few prepare ready
        · rw [counted_concat_of_ne _ (.inr prepare)]
          exact progress.preparing ready ((voted_concat_of_ne prepare).mp voted)
      · rw [status]
        intro ready voted
        by_cases commits : info.request.type = .commit
        · exact fewer commits ready
        · rw [counted_concat_of_ne _ (.inr commits)]
          exact progress.committing ready ((voted_concat_of_ne commits).mp voted)
  | proposes first fresh status main view changed nothing =>
      have same := next.concerns.eq_pre first
      obtain ⟨prepareSince, commitSince⟩ :=
        progress.since next (fresh ▸ Nat.zero_le _)
      refine ⟨fun _ => ⟨?_, .inr ?_⟩, ?_, prepareSince, commitSince, ?_, ?_,
        progress.changes_moves next (by decide) fresh first status changed,
        progress.handed_nothing next (by rw [status, fresh]; decide) nothing⟩
      · rw [main, status, same]
        rfl
      · rw [view, same]
      · rw [status, same]
        exact iff_of_true (List.mem_append_right _ (List.mem_singleton_self pre)) nofun
      · intro _ voted
        rw [voted_concat_of_ne (by rw [first]; decide)] at voted
        exact absurd fresh (progress.prepareSince voted)
      · intro ready
        cases status.symm.trans ready
  | prepares prepare ready status main view changed nothing =>
      obtain ⟨prepareSince, commitSince⟩ := progress.since next (by rw [ready, status]; decide)
      have one := progress.one (by rw [ready]; decide)
      have proposed := progress.proposed.mpr (by rw [ready]; decide)
      refine ⟨fun _ => ⟨?_, ?_⟩, ?_, prepareSince, commitSince, ?_, ?_,
        progress.changes_moves next (by decide) ready prepare status changed,
        progress.handed_nothing next (by rw [status, ready]; decide) nothing⟩
      · rw [main, status, one.main, ready]
        rfl
      · rw [view]
        exact one.view
      · rw [status]
        exact iff_of_true (List.mem_append_left _ proposed) nofun
      · intro preparing
        cases status.symm.trans preparing
      · intro _ voted
        rw [voted_concat_of_ne (by rw [prepare]; decide)] at voted
        have late := progress.commitSince voted
        rw [ready] at late
        exact absurd late (by decide)
  | executes commits ready status changed handed =>
      obtain ⟨prepareSince, commitSince⟩ := progress.since next (by rw [ready, status]; decide)
      have one := progress.one (by rw [ready]; decide)
      have proposed := progress.proposed.mpr (by rw [ready]; decide)
      refine ⟨fun waiting => absurd status waiting, ?_, prepareSince, commitSince, ?_, ?_,
        progress.changes_moves next (by decide) ready commits status changed, ?_⟩
      · rw [status]
        exact iff_of_true (List.mem_append_left _ proposed) nofun
      · intro preparing
        cases status.symm.trans preparing
      · intro committing
        cases status.symm.trans committing
      · obtain ⟨certs, request⟩ := handed
        obtain ⟨_, before⟩ := progress.handed
        refine ⟨certs, ?_⟩
        rw [next.hands, before, request, one.main, ready, status]
        rfl

end Step

theorem Delivery.progress {n : ℕ} {own : Int} {msgs : List RequestInfo}
    (delivery : Delivery n enableViewchange own pre msgs) {made : List RequestInfo}
    (inside : made <+: msgs) :
    Progress (Config.minDataReceiveNum n) enableViewchange own pre made
      (after (Config.minDataReceiveNum n) enableViewchange pre.request.seq made) := by
  induction made using List.reverseRecOn with
  | nil => exact progress_initial
  | append_singleton made info ih =>
      have tracks := tracks_after (Config.minDataReceiveNum n) enableViewchange pre.request.seq made
      have progress := ih ((List.prefix_append _ _).trans inside)
      have concerns := (delivery.concerns info (inside.subset (List.mem_append_right _
        (List.mem_singleton_self info)))).1
      rw [after_concat]
      exact progress.step ⟨concerns,
        addRequest_outcome tracks progress.one delivery.proposal concerns, tracks.seq_eq,
        delivery.ownPrepare made info inside, delivery.ownCommit made info inside,
        fun type => changes_concat type, handedOver_concat⟩ delivery.proposal

theorem Delivery.quorum_le_counted {n : ℕ} {own : Int} {msgs : List RequestInfo}
    (delivery : Delivery n enableViewchange own pre msgs) (fits : n ≤ 127) {type : RequestType}
    (votes : ∀ i ∈ TdHotstuff.replicas n, Voted type i msgs) :
    Config.minDataReceiveNum n ≤ (counted pre.request.seq type pre.request.hash msgs).card := by
  have all : TdHotstuff.replicas n ⊆ counted pre.request.seq type pre.request.hash msgs := by
    intro i member
    obtain ⟨info, inside, sort, sender⟩ := votes i member
    have concerns := (delivery.concerns info inside).1
    have range := TdHotstuff.mem_replicas.mp member
    rw [counted, Finset.mem_filter, sent, Backing.mem_backers]
    exact ⟨⟨info, inside, decide_eq_true ⟨concerns.seq_eq, sort, concerns.hash_eq⟩, sender⟩,
      by omega, by omega⟩
  have size := Finset.card_le_card all
  have member := TdHotstuff.mem_replicas.mp delivery.member
  rw [Config.card_replicas] at size
  rw [Config.minDataReceiveNum_eq, Config.faultBound]
  omega

theorem Delivery.executed {n : ℕ} {own : Int} {msgs : List RequestInfo}
    (delivery : Delivery n enableViewchange own pre msgs) (fits : n ≤ 127) :
    (after (Config.minDataReceiveNum n) enableViewchange pre.request.seq msgs).status =
      .executed := by
  have progress := delivery.progress List.prefix_rfl
  have tracks := tracks_after (Config.minDataReceiveNum n) enableViewchange pre.request.seq msgs
  cases status :
    (after (Config.minDataReceiveNum n) enableViewchange pre.request.seq msgs).status with
  | none => exact absurd status (progress.proposed.mp delivery.proposed)
  | readyPrepare =>
      have few := progress.preparing status (delivery.prepares own delivery.member)
      exact absurd (delivery.quorum_le_counted fits delivery.prepares) (not_le.mpr few)
  | readyCommit =>
      have votes : ∀ i ∈ TdHotstuff.replicas n, Voted .commit i msgs :=
        fun i member => delivery.commits i member (fun _ => by rw [status])
      have few := progress.committing status (votes own delivery.member)
      exact absurd (delivery.quorum_le_counted fits votes) (not_le.mpr few)
  | readyExecute => exact absurd status tracks.resting
  | executed => rfl

/-- Whatever the order of delivery, the proposal is executed once and each phase reports one
change, with view changes enabled or not, if the ids of the replicas have a place in the bit
sets. -/
theorem order_of_delivery (f : ℕ) (fits : 3 * f + 1 ≤ 127) (enableViewchange : Bool) (own : Int)
    (pre : RequestInfo) (msgs : List RequestInfo)
    (delivery : Delivery (3 * f + 1) enableViewchange own pre msgs) :
    (after (Config.minDataReceiveNum (3 * f + 1)) enableViewchange pre.request.seq msgs).status =
        .executed ∧
      (∃ certs, handedOver (Config.minDataReceiveNum (3 * f + 1)) enableViewchange pre.request.seq
        msgs = [{ pre.request with committedCerts := pre.request.committedCerts ++ certs }]) ∧
      ∀ type ∈ [RequestType.prePrepare, .prepare, .commit],
        changes (Config.minDataReceiveNum (3 * f + 1)) enableViewchange pre.request.seq type msgs =
          1 := by
  have progress := delivery.progress List.prefix_rfl
  have done := delivery.executed fits
  refine ⟨done, ?_, ?_⟩
  · obtain ⟨certs, handed⟩ := progress.handed
    rw [if_pos done] at handed
    exact ⟨certs, handed⟩
  · have counts := progress.changes_eq
    rw [done] at counts
    intro type member
    fin_cases member
    · exact counts (.prePrepare, .readyPrepare) (by decide)
    · exact counts (.prepare, .readyCommit) (by decide)
    · exact counts (.commit, .readyExecute) (by decide)

/-- Replica 4 hears the votes before the proposal, and the votes of replica 3 twice. -/
def sampleDelivery : List RequestInfo :=
  [sampleMessage .commit [6] 3, sampleMessage .prepare [6] 2, sampleMessage .prepare [6] 3,
    sampleMessage .commit [6] 1, sampleMessage .prepare [6] 1, sampleMessage .prepare [6] 3,
    sampleMessage .prePrepare [6] 1, sampleMessage .commit [6] 2, sampleMessage .prepare [6] 4,
    sampleMessage .commit [6] 3, sampleMessage .commit [6] 4, sampleMessage .prePrepare [6] 1]

theorem sampleDelivery_delivery (enableViewchange : Bool) :
    Delivery 4 enableViewchange 4 (sampleMessage .prePrepare [6] 1) sampleDelivery := by
  refine ⟨rfl, by decide, by decide, by decide, by decide, ?_, ?_, ?_⟩
  · have all : ∀ i ∈ TdHotstuff.replicas 4, Voted .commit i sampleDelivery := by decide
    exact fun i member _ => all i member
  · rw [Run.forall_prefix_iff]
    decide
  · rw [Run.forall_prefix_iff]
    cases enableViewchange <;> decide

/-- The late proposal is executed all the same, and once. -/
theorem early_votes_executed :
    (after (Config.minDataReceiveNum 4) true 1 sampleDelivery).status = .executed ∧
      (after (Config.minDataReceiveNum 4) false 1 sampleDelivery).status = .executed :=
  ⟨(order_of_delivery 1 (by decide) true 4 _ _ (sampleDelivery_delivery true)).1,
    (order_of_delivery 1 (by decide) false 4 _ _ (sampleDelivery_delivery false)).1⟩

/-! ### More replicas than bits -/

theorem card_counted_le_bits (seq : ℕ) (type : RequestType) (hash : Bytes)
    (calls : List RequestInfo) : (counted seq type hash calls).card ≤ 128 := by
  have inside : counted seq type hash calls ⊆ Finset.Ico (0 : Int) 128 := fun i member =>
    Finset.mem_Ico.mpr (Finset.mem_filter.mp member).2
  exact (Finset.card_le_card inside).trans (by rw [Int.card_Ico]; decide)

theorem never_prepared (large : 128 < quorum) (calls : List RequestInfo) :
    (after quorum enableViewchange seq calls).status.rank ≤ Status.readyPrepare.rank := by
  induction calls using List.reverseRecOn with
  | nil => exact Nat.zero_le _
  | append_singleton calls info ih =>
      have tracks := tracks_after quorum enableViewchange seq calls
      rw [after_concat]
      generalize after quorum enableViewchange seq calls = c at ih tracks ⊢
      have added : Added quorum enableViewchange c info
        (c.addRequest quorum enableViewchange info) := addRequest_added tracks.resting
      have short : ∀ {c' : Collector}, Tallied c info c' → c.seq = info.request.seq →
          info.request.type = .prepare → ¬ quorum ≤ c'.received info := by
        intro c' tallied own prepare full
        rw [received, tallied.senders, prepare, addSender_counted (own.symm.trans tracks.seq_eq)
          (tracks.prepares ih _)] at full
        exact absurd (full.trans (card_counted_le_bits _ _ _ _)) (not_le.mpr large)
      generalize c.addRequest quorum enableViewchange info = result at added ⊢
      cases added with
      | main _ _ next =>
          rcases next with same | ⟨-, moved⟩
          · exact (congrArg Status.rank same).le.trans ih
          · exact (congrArg Status.rank moved).le
      | counted tallied _ _ => exact (congrArg Status.rank tallied.status).le.trans ih
      | prepared tallied own prepare _ full _ => exact absurd full (short tallied own prepare)
      | settled tallied own prepare _ full _ => exact absurd full (short tallied own prepare)
      | executed _ _ _ ready _ =>
          rw [ready] at ih
          exact absurd ih (by decide)
      | _ => exact ih

/-- The proposal, the PREPAREs of `n` replicas, and the COMMITs of all but replica 1. -/
def sampleCrowd (n : ℕ) : List RequestInfo :=
  sampleMessage .prePrepare [6] 1 ::
    ((List.range n).map (fun i : ℕ => sampleMessage .prepare [6] (i + 1)) ++
      (List.range (n - 1)).map (fun i : ℕ => sampleMessage .commit [6] (i + 2)))

theorem sampleCrowd_delivery {n : ℕ} (large : 128 < Config.minDataReceiveNum n)
    (enableViewchange : Bool) :
    Delivery n enableViewchange 1 (sampleMessage .prePrepare [6] 1) (sampleCrowd n) := by
  have some : 1 ≤ n := by
    rw [Config.minDataReceiveNum_eq, Config.faultBound] at large
    omega
  have votes : ∀ info ∈ sampleCrowd n, info = sampleMessage .prePrepare [6] 1 ∨
      (∃ i < n, info = sampleMessage .prepare [6] (i + 1)) ∨
      ∃ i < n - 1, info = sampleMessage .commit [6] (i + 2) := by
    intro info member
    simpa [sampleCrowd, eq_comm] using member
  refine ⟨rfl, ?_, TdHotstuff.mem_replicas.mpr ⟨le_rfl, by omega⟩, List.mem_cons_self, ?_, ?_, ?_,
    ?_⟩
  · intro info member
    rcases votes info member with rfl | ⟨i, -, rfl⟩ | ⟨i, -, rfl⟩
    · exact ⟨.inl rfl, rfl⟩
    · exact ⟨.inr ⟨.inl rfl, rfl, rfl⟩, rfl⟩
    · exact ⟨.inr ⟨.inr rfl, rfl, rfl⟩, rfl⟩
  · intro i member
    have range := TdHotstuff.mem_replicas.mp member
    refine ⟨sampleMessage .prepare [6] i, ?_, rfl, rfl⟩
    refine List.mem_cons_of_mem _ (List.mem_append_left _ (List.mem_map.mpr
      ⟨(i - 1).toNat, List.mem_range.mpr (by omega), ?_⟩))
    rw [Int.toNat_of_nonneg (by omega), Int.sub_add_cancel]
  · intro i member reached
    have range := TdHotstuff.mem_replicas.mp member
    have other : i ≠ 1 := by
      intro own
      have late := (reached own).trans (never_prepared large _)
      exact absurd late (by decide)
    refine ⟨sampleMessage .commit [6] i, ?_, rfl, rfl⟩
    refine List.mem_cons_of_mem _ (List.mem_append_right _ (List.mem_map.mpr
      ⟨(i - 2).toNat, List.mem_range.mpr (by omega), ?_⟩))
    rw [Int.toNat_of_nonneg (by omega), Int.sub_add_cancel]
  · intro made info inside prepare _
    cases made with
    | nil =>
        obtain ⟨rest, same⟩ := inside
        cases (List.cons.inj same).1
        cases prepare
    | cons first made =>
        obtain ⟨rest, same⟩ := inside
        rw [(List.cons.inj same).1]
        exact List.mem_cons_self
  · intro made info inside commits own
    have member := inside.subset (List.mem_append_right _ (List.mem_singleton_self info))
    rcases votes info member with rfl | ⟨i, -, rfl⟩ | ⟨i, -, rfl⟩
    · cases commits
    · cases commits
    · have two : (i : Int) + 2 = 1 := own
      omega

/-- The quorum of 193 replicas is 129, which no bit set counts to: all that can be delivered
is, and nothing is executed. -/
theorem crowd_never_executed :
    Delivery (3 * 64 + 1) true 1 (sampleMessage .prePrepare [6] 1) (sampleCrowd 193) ∧
      (after (Config.minDataReceiveNum (3 * 64 + 1)) true 1 (sampleCrowd 193)).status ≠
        .executed := by
  have large : 128 < Config.minDataReceiveNum (3 * 64 + 1) := by decide
  refine ⟨sampleCrowd_delivery large true, fun done => ?_⟩
  have early : Status.rank (after _ true 1 (sampleCrowd 193)).status ≤ Status.readyPrepare.rank :=
    never_prepared large _
  rw [done] at early
  exact absurd early (by decide)

end Collector
end ResDB.Pbft
