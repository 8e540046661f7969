import ResDB.Library.Backing
import ResDB.Pbft.Collector

/-! What a collector executes, against what was voted for. Up to its execution a collector
has counted just the votes that were sent by replicas that its bit sets have a place for, a
PREPARE that comes late in view-change mode apart; the request that it hands over is the main
request it holds at that moment. -/
namespace ResDB.Pbft.Collector
open Backing (backers)

def after (quorum : ℕ) (enableViewchange : Bool) (seq : ℕ) (calls : List RequestInfo) : Collector :=
  calls.foldl (fun c info => (c.addRequest quorum enableViewchange info).1) { seq }

/-- The senders of such a message for the number. -/
def sent (seq : ℕ) (type : RequestType) (hash : Bytes) (calls : List RequestInfo) : Finset Int :=
  backers (fun info => info.request.senderId)
    (fun info => info.request.seq = seq ∧ info.request.type = type ∧ info.request.hash = hash) calls

/-- The senders that have a place in a bit set. -/
def counted (seq : ℕ) (type : RequestType) (hash : Bytes) (calls : List RequestInfo) : Finset Int :=
  (sent seq type hash calls).filter HasBit

variable {quorum : ℕ} {enableViewchange : Bool} {seq : ℕ} {c : Collector} {info : RequestInfo}
  {calls : List RequestInfo}

theorem after_concat (calls : List RequestInfo) (info : RequestInfo) :
    after quorum enableViewchange seq (calls ++ [info]) =
      ((after quorum enableViewchange seq calls).addRequest quorum enableViewchange info).1 :=
  List.foldl_concat _ _ _ _

theorem sent_concat (type : RequestType) (hash : Bytes) :
    sent seq type hash (calls ++ [info]) =
      if info.request.seq = seq ∧ info.request.type = type ∧ info.request.hash = hash then
        insert info.request.senderId (sent seq type hash calls)
      else sent seq type hash calls := by
  rw [sent, Backing.backers_concat]
  simp only [decide_eq_true_eq]
  rfl

theorem sent_subset (seq : ℕ) (type : RequestType) (hash : Bytes) (calls : List RequestInfo)
    (info : RequestInfo) : sent seq type hash calls ⊆ sent seq type hash (calls ++ [info]) := by
  rw [sent_concat]
  split_ifs
  · exact Finset.subset_insert _ _
  · exact subset_rfl

theorem counted_concat (type : RequestType) (hash : Bytes) :
    counted seq type hash (calls ++ [info]) =
      if info.request.seq = seq ∧ info.request.type = type ∧ info.request.hash = hash then
        setBit info.request.senderId (counted seq type hash calls)
      else counted seq type hash calls := by
  rw [counted, sent_concat]
  split_ifs
  · rw [Finset.filter_insert, setBit]
    rfl
  · rfl

theorem card_counted_le (type : RequestType) (hash : Bytes) :
    (counted seq type hash calls).card ≤ (sent seq type hash calls).card :=
  Finset.card_filter_le _ _

/-! ### What a call counts -/

theorem addSender_senders (type : RequestType) (hash : Bytes) :
    (c.addSender info).senders type hash =
      if info.request.type = type ∧ info.request.hash = hash then
        setBit info.request.senderId (c.senders type hash)
      else c.senders type hash := by
  ext i
  split_ifs with own
  · obtain ⟨rfl, rfl⟩ := own
    simp [mem_addSender, mem_setBit]
  · rw [mem_addSender]
    refine or_iff_left ?_
    rintro ⟨rfl, rfl, -⟩
    exact own ⟨rfl, rfl⟩

theorem addMain_votes (quorum : ℕ) (c : Collector) (info : RequestInfo) :
    (c.addMain quorum info).1.senders = c.senders ∧
      (c.addMain quorum info).1.isCommitted = c.isCommitted ∧
      (c.addMain quorum info).1.isPrepared = c.isPrepared := by
  unfold addMain
  dsimp only
  split <;> exact ⟨rfl, rfl, rfl⟩

theorem addVote_votes (quorum : ℕ) (c : Collector) (info : RequestInfo) :
    (c.addVote quorum info).1.senders = (c.addSender info).senders ∧
      (c.addVote quorum info).1.isPrepared = c.isPrepared ∧
      ((c.addVote quorum info).1.status ≠ .executed →
        (c.addVote quorum info).1.isCommitted = c.isCommitted) := by
  obtain ⟨certs, noted⟩ := noteCert_cases c info
  unfold addVote
  rw [noted]
  dsimp only
  split_ifs
  · refine ⟨commit_senders _, ?_, fun waiting => absurd (commit_status _) waiting⟩
    unfold commit
    split <;> rfl
  · exact ⟨rfl, rfl, fun _ => rfl⟩

theorem addPrepare_votes (quorum : ℕ) (c : Collector) (info : RequestInfo) :
    (c.addPrepare quorum info).1.isCommitted = c.isCommitted ∧
    (c.addPrepare quorum info).1.senders =
      (if c.status.rank ≤ Status.readyPrepare.rank ∧ c.isPrepared = false then
        (c.addSender info).senders else c.senders) ∧
    ((c.addPrepare quorum info).1.status.rank ≤ Status.readyPrepare.rank →
      (c.addPrepare quorum info).1.isPrepared = c.isPrepared) := by
  unfold addPrepare
  by_cases early : c.status.rank ≤ Status.readyPrepare.rank
  · cases known : c.isPrepared with
    | true => simp [early, known]
    | false =>
        rw [if_pos early, if_neg Bool.false_ne_true, if_pos ⟨early, rfl⟩]
        dsimp only
        split_ifs with reached
        · refine ⟨rfl, rfl, fun low => absurd low ?_⟩
          simp only [settle, reached]
          decide
        · exact ⟨rfl, rfl, fun _ => rfl⟩
  · simp [early]

/-- The votes are counted: the COMMITs up to the execution, the PREPAREs at least up to
the quorum of one hash. -/
structure Tracks (seq : ℕ) (calls : List RequestInfo) (c : Collector) : Prop where
  seq_eq : c.seq = seq
  resting : c.status ≠ .readyExecute
  uncommitted : c.status ≠ .executed → c.isCommitted = false
  unprepared : c.status.rank ≤ Status.readyPrepare.rank → c.isPrepared = false
  prepares : c.status.rank ≤ Status.readyPrepare.rank →
    ∀ hash, c.senders .prepare hash = counted seq .prepare hash calls
  commits : c.status ≠ .executed → ∀ hash, c.senders .commit hash = counted seq .commit hash calls

theorem open_of_early (early : c.status.rank ≤ Status.readyPrepare.rank) :
    c.status ≠ .executed := by
  intro done
  rw [done] at early
  exact absurd early (by decide)

theorem addRequest_executed (done : c.status = .executed) :
    c.addRequest quorum enableViewchange info = (c, { ret := -2 }) := by
  rw [addRequest, if_pos done, ite_self]

theorem addRequest_mismatch (mismatch : c.seq ≠ info.request.seq) :
    c.addRequest quorum enableViewchange info = (c, { ret := -2 }) := by
  rw [addRequest, if_pos mismatch, ite_self, ite_self]

theorem addRequest_open (uncommitted : c.isCommitted = false) (waiting : c.status ≠ .executed)
    (own : c.seq = info.request.seq) :
    c.addRequest quorum enableViewchange info =
      if info.request.type = .prePrepare then c.addMain quorum info
      else if enableViewchange ∧ info.request.type = .prepare then c.addPrepare quorum info
      else c.addVote quorum info := by
  rw [addRequest, uncommitted, if_neg Bool.false_ne_true, if_neg waiting, if_neg (not_not.mpr own)]

theorem sent_concat_of_ne {type : RequestType} (hash : Bytes)
    (other : info.request.seq ≠ seq ∨ info.request.type ≠ type) :
    sent seq type hash (calls ++ [info]) = sent seq type hash calls := by
  rw [sent_concat, if_neg]
  rintro ⟨own, same, -⟩
  exact other.elim (fun ne => ne own) (fun ne => ne same)

theorem counted_concat_of_ne {type : RequestType} (hash : Bytes)
    (other : info.request.seq ≠ seq ∨ info.request.type ≠ type) :
    counted seq type hash (calls ++ [info]) = counted seq type hash calls := by
  rw [counted, sent_concat_of_ne hash other, counted]

theorem addSender_counted (own : info.request.seq = seq) {type : RequestType} {hash : Bytes}
    (before : c.senders type hash = counted seq type hash calls) :
    (c.addSender info).senders type hash = counted seq type hash (calls ++ [info]) := by
  rw [addSender_senders, counted_concat, before]
  simp only [own, true_and]

theorem addSender_of_ne {type : RequestType} (hash : Bytes) (other : info.request.type ≠ type) :
    (c.addSender info).senders type hash = c.senders type hash := by
  rw [addSender_senders, if_neg (fun same => other same.1)]

theorem tracks_initial : Tracks seq [] { seq } :=
  ⟨rfl, nofun, fun _ => rfl, fun _ => rfl, fun _ _ => rfl, fun _ _ => rfl⟩

theorem Tracks.addRequest (tracks : Tracks seq calls c) :
    Tracks seq (calls ++ [info]) (c.addRequest quorum enableViewchange info).1 := by
  have added : Added quorum enableViewchange c info (c.addRequest quorum enableViewchange info) :=
    addRequest_added tracks.resting
  have rank := added.rank_le
  have resting := added.resting tracks.resting
  have same := added.seq_eq.trans tracks.seq_eq
  clear added
  by_cases done : c.status = .executed
  · rw [addRequest_executed done]
    exact ⟨tracks.seq_eq, tracks.resting, fun waiting => absurd done waiting,
      tracks.unprepared, fun early => absurd done (open_of_early early),
      fun waiting => absurd done waiting⟩
  by_cases own : c.seq = info.request.seq
  · have number : info.request.seq = seq := own.symm.trans tracks.seq_eq
    rw [addRequest_open (tracks.uncommitted done) done own] at rank resting same ⊢
    split_ifs at rank resting same ⊢ with pre prepare
    · obtain ⟨senders, committed, prepared⟩ := addMain_votes quorum c info
      refine ⟨same, resting, fun _ => committed.trans (tracks.uncommitted done),
        fun early => prepared.trans (tracks.unprepared (rank.trans early)), ?_, ?_⟩
      · intro early hash
        rw [senders, counted_concat_of_ne hash (.inr (by rw [pre]; decide))]
        exact tracks.prepares (rank.trans early) hash
      · intro _ hash
        rw [senders, counted_concat_of_ne hash (.inr (by rw [pre]; decide))]
        exact tracks.commits done hash
    · obtain ⟨committed, senders, prepared⟩ := addPrepare_votes quorum c info
      refine ⟨same, resting, fun _ => committed.trans (tracks.uncommitted done),
        fun early => (prepared early).trans (tracks.unprepared (rank.trans early)), ?_, ?_⟩
      · intro early hash
        have low := rank.trans early
        rw [senders, if_pos ⟨low, tracks.unprepared low⟩]
        exact addSender_counted number (tracks.prepares low hash)
      · intro _ hash
        have other : info.request.type ≠ .commit := by rw [prepare.2]; decide
        rw [senders, counted_concat_of_ne hash (.inr other)]
        split_ifs
        · rw [addSender_of_ne hash other]
          exact tracks.commits done hash
        · exact tracks.commits done hash
    · obtain ⟨senders, prepared, committed⟩ := addVote_votes quorum c info
      refine ⟨same, resting, fun waiting => (committed waiting).trans (tracks.uncommitted done),
        fun early => prepared.trans (tracks.unprepared (rank.trans early)), ?_, ?_⟩
      · intro early hash
        rw [senders]
        exact addSender_counted number (tracks.prepares (rank.trans early) hash)
      · intro _ hash
        rw [senders]
        exact addSender_counted number (tracks.commits done hash)
  · have foreign : info.request.seq ≠ seq := fun number => own (tracks.seq_eq.trans number.symm)
    rw [addRequest_mismatch own]
    refine ⟨tracks.seq_eq, tracks.resting, tracks.uncommitted, tracks.unprepared, ?_, ?_⟩
    · intro early hash
      rw [counted_concat_of_ne hash (.inl foreign)]
      exact tracks.prepares early hash
    · intro waiting hash
      rw [counted_concat_of_ne hash (.inl foreign)]
      exact tracks.commits waiting hash

theorem tracks_after (quorum : ℕ) (enableViewchange : Bool) (seq : ℕ) (calls : List RequestInfo) :
    Tracks seq calls (after quorum enableViewchange seq calls) := by
  induction calls using List.reverseRecOn with
  | nil => exact tracks_initial
  | append_singleton calls info ih =>
      rw [after_concat]
      exact ih.addRequest

/-! ### The COMMIT that completes a quorum -/

/-- The next call brings the COMMITs of a hash to a quorum, and the collector waits for it. -/
def Completes (quorum : ℕ) (enableViewchange : Bool) (seq : ℕ) (calls : List RequestInfo)
    (info : RequestInfo) : Prop :=
  (after quorum enableViewchange seq calls).status = .readyCommit ∧
    info.request.seq = seq ∧ info.request.type = .commit ∧
    quorum ≤ (counted seq .commit info.request.hash (calls ++ [info])).card

theorem commit_snd (c : Collector) :
    c.commit.2 = c.mainRequest.map (fun main =>
      { main.request with committedCerts := main.request.committedCerts ++ c.commitCerts }) := by
  unfold commit
  cases c.mainRequest with
  | none => rfl
  | some main => rfl

theorem addRequest_completes (enableViewchange : Bool) (tracks : Tracks seq calls c)
    (ready : c.status = .readyCommit)
    (own : info.request.seq = seq) (commits : info.request.type = .commit)
    (full : quorum ≤ (counted seq .commit info.request.hash (calls ++ [info])).card) :
    (c.addRequest quorum enableViewchange info).1.status = .executed ∧
      ∃ certs, (c.addRequest quorum enableViewchange info).2 =
        { ret := 1, changed := true, handed := c.mainRequest.map (fun main =>
          { main.request with committedCerts := main.request.committedCerts ++ certs }) } := by
  have waiting : c.status ≠ .executed := by rw [ready]; decide
  obtain ⟨certs, noted⟩ := noteCert_cases c info
  have reached : quorum ≤ (({ c with commitCerts := certs } : Collector).addSender info).received
      info := by
    have votes : ({ c with commitCerts := certs } : Collector).senders .commit info.request.hash =
        counted seq .commit info.request.hash calls := tracks.commits waiting _
    rw [received, commits, addSender_counted own votes]
    exact full
  rw [addRequest_open (tracks.uncommitted waiting) waiting (tracks.seq_eq.trans own.symm),
    if_neg (by rw [commits]; decide),
    if_neg (fun prepare => absurd prepare.2 (by rw [commits]; decide)),
    addVote, noted]
  have moved : mayConsensusChangeStatus quorum info.request.type
      ((({ c with commitCerts := certs } : Collector).addSender info).received info)
      (({ c with commitCerts := certs } : Collector).addSender info).status false =
        (.readyExecute, true) := by
    rw [commits]
    exact if_pos ⟨ready, reached⟩
  simp only [moved, if_true]
  refine ⟨commit_status _, certs, ?_⟩
  rw [commit_snd]
  rfl

theorem executed_iff_completes :
    ((after quorum enableViewchange seq calls).status ≠ .executed ∧
      (after quorum enableViewchange seq (calls ++ [info])).status = .executed) ↔
      Completes quorum enableViewchange seq calls info := by
  have tracks := tracks_after quorum enableViewchange seq calls
  rw [after_concat, Completes]
  generalize after quorum enableViewchange seq calls = c at tracks ⊢
  constructor
  · rintro ⟨waiting, done⟩
    have added : Added quorum enableViewchange c info
        (c.addRequest quorum enableViewchange info) := addRequest_added tracks.resting
    generalize c.addRequest quorum enableViewchange info = result at added done
    cases added with
    | main _ _ next =>
        rcases next with same | ⟨-, moved⟩
        · exact absurd (same.symm.trans done) waiting
        · cases moved.symm.trans done
    | counted tallied _ _ => exact absurd (tallied.status.symm.trans done) waiting
    | prepared _ _ _ _ _ _ => cases done
    | settled _ _ _ _ _ _ => cases done
    | executed tallied own commits ready full =>
        refine ⟨ready, own.symm.trans tracks.seq_eq, commits, ?_⟩
        rw [received, tallied.senders, commits, addSender_counted (own.symm.trans tracks.seq_eq)
          (tracks.commits waiting _)] at full
        exact full
    | _ => exact absurd done waiting
  · rintro ⟨ready, own, commits, full⟩
    refine ⟨by rw [ready]; decide, ?_⟩
    exact (addRequest_completes enableViewchange tracks ready own commits full).1

/-! ### What was voted for -/

/-- A quorum has sent a PREPARE of the hash, and a quorum a COMMIT. -/
def VotedFor (quorum : ℕ) (seq : ℕ) (calls : List RequestInfo) (hash : Bytes) : Prop :=
  quorum ≤ (sent seq .prepare hash calls).card ∧ quorum ≤ (sent seq .commit hash calls).card

/-- If the next call executes, a request is handed over whose hash was voted for. -/
def ExecutesVoted (quorum : ℕ) (enableViewchange : Bool) (seq : ℕ) (calls : List RequestInfo)
    (info : RequestInfo) : Prop :=
  (after quorum enableViewchange seq calls).status ≠ .executed →
    (after quorum enableViewchange seq (calls ++ [info])).status = .executed →
    ∃ request, ((after quorum enableViewchange seq calls).addRequest quorum enableViewchange
        info).2.handed = some request ∧
      VotedFor quorum seq (calls ++ [info]) request.hash

/-- One hash is proposed, and no other one has the PREPAREs or the COMMITs of a quorum. -/
structure Unrivalled (quorum seq : ℕ) (hash : Bytes) (calls : List RequestInfo) : Prop where
  proposals : ∀ info ∈ calls, info.request.seq = seq → info.request.type = .prePrepare →
    info.request.hash = hash
  prepares : ∀ other, quorum ≤ (sent seq .prepare other calls).card → other = hash
  commits : ∀ other, quorum ≤ (sent seq .commit other calls).card → other = hash

theorem Unrivalled.of_concat {hash : Bytes} (alone : Unrivalled quorum seq hash (calls ++ [info])) :
    Unrivalled quorum seq hash calls where
  proposals := fun other member => alone.proposals other (List.mem_append_left _ member)
  prepares := fun other full =>
    alone.prepares other (full.trans (Finset.card_le_card (sent_subset _ _ _ _ _)))
  commits := fun other full =>
    alone.commits other (full.trans (Finset.card_le_card (sent_subset _ _ _ _ _)))

theorem unrivalled_of_forall {hash : Bytes} (positive : 0 < quorum)
    (one : ∀ info ∈ calls, info.request.hash = hash) : Unrivalled quorum seq hash calls := by
  have votes : ∀ type other, quorum ≤ (sent seq type other calls).card → other = hash := by
    intro type other full
    obtain ⟨i, member⟩ := Finset.card_pos.mp (positive.trans_le full)
    obtain ⟨info, inside, matched, -⟩ := Backing.mem_backers.mp member
    rw [← (of_decide_eq_true matched).2.2, one info inside]
  exact ⟨fun info member _ _ => one info member, votes .prepare, votes .commit⟩

/-- The collector holds the one proposal from its arrival on, and a quorum has sent PREPAREs for
it once the collector waits for COMMITs. -/
structure Holds (quorum seq : ℕ) (hash : Bytes) (calls : List RequestInfo) (c : Collector) :
    Prop where
  proposals : ∀ main, c.mainRequest = some main ∨ main ∈ c.otherMainRequest →
    main.request.hash = hash
  main : c.status ≠ .none → c.mainRequest.isSome = true
  prepares : Status.readyCommit.rank ≤ c.status.rank →
    quorum ≤ (sent seq .prepare hash calls).card

section Unrivalled
variable {hash : Bytes} {c' : Collector} (holds : Holds quorum seq hash calls c)
include holds

theorem Holds.tallied (tallied : Tallied c info c') :
    Holds quorum seq hash (calls ++ [info]) c' where
  proposals := by
    rw [tallied.mainRequest, tallied.otherMainRequest]
    exact holds.proposals
  main := by
    rw [tallied.mainRequest, tallied.status]
    exact holds.main
  prepares := by
    rw [tallied.status]
    exact fun late => (holds.prepares late).trans (Finset.card_le_card (sent_subset _ _ _ _ _))

theorem Holds.completed (alone : Unrivalled quorum seq hash (calls ++ [info]))
    (tracks : Tracks seq calls c) (tallied : Tallied c info c') (own : c.seq = info.request.seq)
    (prepare : info.request.type = .prepare) (ready : c.status = .readyPrepare)
    (full : quorum ≤ c'.received info) :
    info.request.hash = hash ∧ Holds quorum seq hash (calls ++ [info])
      { c' with status := .readyCommit } := by
  have early : c.status.rank ≤ Status.readyPrepare.rank := by rw [ready]
  rw [received, tallied.senders, prepare, addSender_counted (own.symm.trans tracks.seq_eq)
    (tracks.prepares early _)] at full
  have enough := full.trans (card_counted_le _ _)
  have same := alone.prepares _ enough
  have kept := holds.tallied tallied
  refine ⟨same, kept.proposals, fun _ => kept.main ?_, fun _ => same ▸ enough⟩
  rw [tallied.status, ready]
  decide

theorem Holds.added (alone : Unrivalled quorum seq hash (calls ++ [info]))
    (tracks : Tracks seq calls c) {result : Collector × AddResult}
    (added : Added quorum enableViewchange c info result) :
    Holds quorum seq hash (calls ++ [info]) result.1 := by
  have grown : Holds quorum seq hash (calls ++ [info]) c :=
    ⟨holds.proposals, holds.main,
      fun late => (holds.prepares late).trans (Finset.card_le_card (sent_subset _ _ _ _ _))⟩
  have proposed : info.request.type = .prePrepare → c.seq = info.request.seq →
      info.request.hash = hash := fun pre own =>
    alone.proposals info (List.mem_append_right _ (List.mem_singleton_self info))
      (own.symm.trans tracks.seq_eq) pre
  cases added with
  | rejected | ignored _ => exact grown
  | aside pre own =>
      refine { grown with proposals := ?_ }
      rintro main (found | member)
      · exact holds.proposals main (.inl found)
      · rcases List.mem_append.mp member with old | new
        · exact holds.proposals main (.inr old)
        · rw [List.mem_singleton.mp new]
          exact proposed pre own
  | main pre own next =>
      refine ⟨?_, fun _ => rfl, fun late => grown.prepares ?_⟩
      · rintro main (found | member)
        · cases found
          exact proposed pre own
        · exact holds.proposals main (.inr member)
      · rcases next with same | ⟨-, moved⟩
        · exact same ▸ late
        · rw [moved] at late
          change Status.readyCommit.rank ≤ Status.readyPrepare.rank at late
          exact absurd late (by decide)
  | counted tallied _ _ => exact holds.tallied tallied
  | prepared tallied own prepare ready full _ =>
      exact (holds.completed alone tracks tallied own prepare ready full).2
  | @settled c' tallied own prepare ready full _ =>
      obtain ⟨same, kept⟩ := holds.completed alone tracks tallied own prepare ready full
      have agree : c'.mainRequest.any (fun main => main.request.hash ≠ info.request.hash) =
          false := by
        rw [Option.any_eq_false]
        intro main found
        rw [kept.proposals main (.inl found), same]
        exact decide_eq_false (not_not.mpr rfl)
      refine ⟨?_, ?_, kept.prepares⟩
      · simp only [settle, agree, Bool.false_eq_true, if_false]
        exact kept.proposals
      · simp only [settle, agree, Bool.false_eq_true, if_false]
        exact kept.main
  | executed tallied _ _ ready _ =>
      have kept := holds.tallied tallied
      have waited := tallied.status.trans ready
      refine ⟨?_, fun _ => ?_, fun _ => kept.prepares (by rw [waited])⟩
      · rw [commit_mainRequest, commit_otherMainRequest]
        exact kept.proposals
      · rw [commit_mainRequest]
        exact kept.main (by rw [waited]; decide)

end Unrivalled

theorem holds_initial {hash : Bytes} : Holds quorum seq hash [] { seq } where
  proposals := by
    rintro main (found | member)
    · cases found
    · exact absurd member List.not_mem_nil
  main := fun started => absurd rfl started
  prepares := fun late => absurd late (show ¬ Status.readyCommit.rank ≤ Status.none.rank by decide)

theorem holds_after {hash : Bytes} (alone : Unrivalled quorum seq hash calls) :
    Holds quorum seq hash calls (after quorum enableViewchange seq calls) := by
  induction calls using List.reverseRecOn with
  | nil => exact holds_initial
  | append_singleton calls info ih =>
      have tracks := tracks_after quorum enableViewchange seq calls
      rw [after_concat]
      exact (ih alone.of_concat).added alone tracks (addRequest_added tracks.resting)

/-- Where one hash is proposed and no other one has the votes of a quorum, what is executed was
voted for. -/
theorem executes_voted (n : ℕ) (enableViewchange : Bool) (seq : ℕ) (hash : Bytes)
    (calls : List RequestInfo) (info : RequestInfo)
    (alone : Unrivalled (Config.minDataReceiveNum n) seq hash (calls ++ [info])) :
    ExecutesVoted (Config.minDataReceiveNum n) enableViewchange seq calls info := by
  generalize Config.minDataReceiveNum n = quorum at alone ⊢
  have tracks := tracks_after quorum enableViewchange seq calls
  have holds : Holds quorum seq hash calls (after quorum enableViewchange seq calls) :=
    holds_after alone.of_concat
  rw [ExecutesVoted, ← and_imp, executed_iff_completes]
  rintro ⟨ready, own, commits, full⟩
  obtain ⟨main, found⟩ := Option.isSome_iff_exists.mp (holds.main (by rw [ready]; decide))
  obtain ⟨-, certs, result⟩ := addRequest_completes enableViewchange tracks ready own commits full
  have proposed := holds.proposals main (.inl found)
  have enough := full.trans (card_counted_le _ _)
  rw [result, found]
  refine ⟨_, rfl, ?_, ?_⟩
  · rw [proposed]
    exact (holds.prepares (by rw [ready])).trans (Finset.card_le_card (sent_subset _ _ _ _ _))
  · rw [proposed, ← alone.commits _ enough]
    exact enough

def sampleMessage (type : RequestType) (hash : Bytes) (senderId : Int) : RequestInfo :=
  ⟨{ type, hash, senderId, seq := 1, currentView := 1 }, {}⟩

/-- All that replica 4 is sent is for `[6]`, and some of it comes before the proposal. -/
def sampleUnited : List RequestInfo :=
  [sampleMessage .prepare [6] 2, sampleMessage .prePrepare [6] 1, sampleMessage .prepare [6] 3,
    sampleMessage .commit [6] 1, sampleMessage .prepare [6] 4, sampleMessage .commit [6] 2]

theorem united_executed :
    Unrivalled (Config.minDataReceiveNum 4) 1 [6] (sampleUnited ++ [sampleMessage .commit [6] 4]) ∧
    ∃ request, ((after (Config.minDataReceiveNum 4) true 1 sampleUnited).addRequest
        (Config.minDataReceiveNum 4) true (sampleMessage .commit [6] 4)).2.handed =
          some request ∧
      VotedFor (Config.minDataReceiveNum 4) 1 (sampleUnited ++ [sampleMessage .commit [6] 4])
        request.hash := by
  have alone : Unrivalled (Config.minDataReceiveNum 4) 1 [6]
      (sampleUnited ++ [sampleMessage .commit [6] 4]) :=
    unrivalled_of_forall (by decide) (by decide)
  exact ⟨alone, executes_voted 4 true 1 [6] _ _ alone (by decide) (by decide)⟩

/-- The primary, replica 1, proposes `[5]` to replica 4 and `[6]` to the others, who vote
for it. -/
def sampleSplit : List RequestInfo :=
  [sampleMessage .prePrepare [5] 1, sampleMessage .prepare [6] 1, sampleMessage .prepare [6] 2,
    sampleMessage .prepare [6] 3, sampleMessage .commit [6] 1, sampleMessage .commit [6] 2]

/-- Without view changes replica 4 executes `[5]`, for which nobody voted; with them it drops
`[5]` and executes nothing. -/
theorem unvoted_executed :
    ¬ ExecutesVoted (Config.minDataReceiveNum 4) false 1 sampleSplit (sampleMessage .commit [6] 3) ∧
    ¬ ExecutesVoted (Config.minDataReceiveNum 4) true 1 sampleSplit
      (sampleMessage .commit [6] 3) := by
  constructor
  · intro executes
    obtain ⟨request, handed, prepares, -⟩ := executes (by decide) (by decide)
    have own : request.hash = [5] := congrArg Request.hash (Option.some.inj handed).symm
    rw [own] at prepares
    exact absurd prepares (by decide)
  · intro executes
    obtain ⟨request, handed, -⟩ := executes (by decide) (by decide)
    cases handed

end ResDB.Pbft.Collector
