import Mathlib.Tactic
import ResDB.Pbft.NewPrimary
import ResDB.Pbft.Reports

/-! When the NEW-VIEW message that a new primary builds from VIEW-CHANGE messages of honest
replicas is accepted. The list of requests starts after the lowest stable checkpoint and ends
with the highest report, while the receiver asks for all numbers up to the highest stable
checkpoint, and a null request finds what is committed already. -/
namespace ResDB.Pbft
open Deployment (newViewOf sampleDeployment)

theorem le_foldr_max_iff {n : ℕ} (numbers : List ℕ) (filled : numbers ≠ []) :
    n ≤ numbers.foldr max 0 ↔ ∃ m ∈ numbers, n ≤ m := by
  induction numbers with
  | nil => exact absurd rfl filled
  | cons m rest ih =>
      rw [List.foldr_cons, le_max_iff, List.exists_mem_cons_iff]
      cases rest with
      | nil =>
          constructor
          · rintro (le | zero)
            · exact .inl le
            · exact .inl (zero.trans (Nat.zero_le m))
          · rintro (le | ⟨_, member, -⟩)
            · exact .inl le
            · exact absurd member List.not_mem_nil
      | cons m' rest' => rw [ih (List.cons_ne_nil m' rest')]

theorem foldr_min_lt_iff {n bound : ℕ} (numbers : List ℕ) :
    numbers.foldr min bound < n ↔ bound < n ∨ ∃ m ∈ numbers, m < n := by
  induction numbers with
  | nil => simp
  | cons m rest ih =>
      rw [List.foldr_cons, min_lt_iff, ih, List.exists_mem_cons_iff]
      exact or_left_comm

/-- The number is not above all that the messages report. Without reports the list of
requests goes up to 1. -/
def Within (messages : List ViewChangeMessage) (seq : ℕ) : Prop :=
  (∃ vc ∈ messages, ∃ entry ∈ vc.preparedMsg, seq ≤ entry.seq) ∨
    (∀ vc ∈ messages, vc.preparedMsg = []) ∧ seq ≤ 1

namespace NewViewMessage
variable (nv : NewViewMessage)

theorem le_maxSeq_iff (seq : ℕ) : seq ≤ nv.maxSeq ↔ Within nv.viewchangeMessages seq := by
  have none : nv.prepared = [] ↔ ∀ vc ∈ nv.viewchangeMessages, vc.preparedMsg = [] :=
    List.flatMap_eq_nil_iff
  rw [Within, ← none]
  unfold maxSeq
  split_ifs with empty
  · have bare := List.isEmpty_iff.mp empty
    constructor
    · exact fun small => .inr ⟨bare, small⟩
    · rintro (⟨vc, member, entry, inside, -⟩ | ⟨-, small⟩)
      · rw [none.mp bare vc member] at inside
        exact absurd inside List.not_mem_nil
      · exact small
  · have filled : nv.prepared ≠ [] := fun bare => empty (List.isEmpty_iff.mpr bare)
    rw [le_foldr_max_iff _ (fun bare => filled (List.map_eq_nil_iff.mp bare))]
    constructor
    · rintro ⟨_, listed, le⟩
      obtain ⟨entry, inside, rfl⟩ := List.mem_map.mp listed
      obtain ⟨vc, member, reported⟩ := mem_prepared.mp inside
      exact .inl ⟨vc, member, entry, reported, le⟩
    · rintro (⟨vc, member, entry, reported, le⟩ | ⟨bare, -⟩)
      · exact ⟨_, List.mem_map.mpr ⟨entry, mem_prepared.mpr ⟨vc, member, reported⟩, rfl⟩, le⟩
      · exact absurd bare filled

theorem le_maxStable_iff {seq : ℕ} (filled : nv.viewchangeMessages ≠ []) :
    seq ≤ nv.maxStable ↔ ∃ vc ∈ nv.viewchangeMessages, seq ≤ vc.stableCkpt.seq := by
  rw [maxStable, le_foldr_max_iff _ (fun bare => filled (List.map_eq_nil_iff.mp bare))]
  simp only [List.mem_map, exists_exists_and_eq_and]

theorem minStable_lt_iff (seq : ℕ) :
    nv.minStable < seq ↔ 2 ^ 64 - 1 < seq ∨ ∃ vc ∈ nv.viewchangeMessages,
      vc.stableCkpt.seq < seq := by
  rw [minStable, foldr_min_lt_iff]
  simp only [List.mem_map, exists_exists_and_eq_and]

theorem start_le_iff {seq : ℕ} (filled : nv.viewchangeMessages ≠ [])
    (small : ∀ vc ∈ nv.viewchangeMessages, vc.stableCkpt.seq < 2 ^ 64 - 1) :
    nv.start ≤ seq ↔ ∃ vc ∈ nv.viewchangeMessages, vc.stableCkpt.seq < seq := by
  obtain ⟨vc, member⟩ := List.exists_mem_of_ne_nil _ filled
  have below := (nv.minStable_lt_iff (2 ^ 64 - 1)).mpr (.inr ⟨vc, member, small vc member⟩)
  rw [start, Nat.mod_eq_of_lt (by omega), Nat.succ_le_iff, minStable_lt_iff]
  constructor
  · rintro (above | low)
    · exact ⟨vc, member, (small vc member).trans above⟩
    · exact low
  · exact .inr

theorem lastPrepared_eq_none_iff (seq : ℕ) :
    nv.lastPrepared seq = none ↔
      ∀ vc ∈ nv.viewchangeMessages, ∀ entry ∈ vc.preparedMsg, entry.seq ≠ seq := by
  rw [lastPrepared, List.find?_eq_none]
  simp only [List.mem_reverse, mem_prepared, decide_eq_true_eq]
  constructor
  · exact fun none vc member entry reported => none entry ⟨vc, member, reported⟩
  · rintro none entry ⟨vc, member, reported⟩
    exact none vc member entry reported

end NewViewMessage

namespace Deployment
variable {D : Deployment} {id : Int} {nv : NewViewMessage}

@[simp] theorem redoRequest_seq (needSign : Bool) (seq : ℕ) :
    (D.redoRequest id nv needSign seq).seq = seq := by
  unfold redoRequest
  split <;> rfl

theorem redoRequest_prePrepare_iff (full : ∀ entry ∈ nv.prepared, entry.proof ≠ [])
    (needSign : Bool) (seq : ℕ) :
    (D.redoRequest id nv needSign seq).type = .prePrepare ↔ nv.lastPrepared seq = none := by
  unfold redoRequest
  cases found : nv.lastPrepared seq with
  | none => exact ⟨fun _ => rfl, fun _ => rfl⟩
  | some entry =>
      have member : entry ∈ nv.prepared :=
        List.mem_reverse.mp (List.mem_of_find?_eq_some found)
      obtain ⟨proof, rest, proofs⟩ := List.exists_cons_of_ne_nil (full entry member)
      rw [Option.bind_some, proofs, List.head?_cons]
      exact ⟨nofun, nofun⟩

theorem mem_redoList {needSign : Bool} {request : Request} :
    request ∈ D.redoList id nv needSign ↔ ∃ seq, nv.start ≤ seq ∧ seq ≤ nv.maxSeq ∧
      D.redoRequest id nv needSign seq = request := by
  rw [redoList, List.mem_map]
  refine exists_congr (fun seq => ?_)
  rw [List.mem_range'_1, and_assoc]
  refine and_congr_right (fun first => and_congr_left (fun _ => ?_))
  omega

theorem covers_redoList_iff {needSign : Bool} :
    covers nv (D.redoList id nv needSign) = true ↔
      nv.maxStable < nv.start ∨ nv.maxStable ≤ nv.maxSeq := by
  have listed : ∀ seq, seq ∈ (D.redoList id nv needSign).map (fun request => request.seq) ↔
      nv.start ≤ seq ∧ seq ≤ nv.maxSeq := by
    intro seq
    rw [List.mem_map]
    constructor
    · rintro ⟨request, member, rfl⟩
      obtain ⟨seq, first, last, rfl⟩ := mem_redoList.mp member
      rw [redoRequest_seq]
      exact ⟨first, last⟩
    · rintro ⟨first, last⟩
      exact ⟨_, mem_redoList.mpr ⟨seq, first, last, rfl⟩, redoRequest_seq _ _⟩
  rw [covers, List.all_eq_true]
  simp only [decide_eq_true_eq, listed, List.mem_range'_1]
  constructor
  · intro all
    by_contra none
    push Not at none
    exact absurd (all nv.maxStable ⟨none.1, by omega⟩).2 (not_le.mpr none.2)
  · rintro (empty | high) seq ⟨first, last⟩
    · omega
    · omega

def Accepted (D : Deployment) (id : Int) (r : Replica) (nv : NewViewMessage) : Prop :=
  ∃ r' ret sent, D.processNewView id r (some nv) = some (r', ret, sent) ∧ ret ≠ -2 ∧
    r'.view = nv.viewNumber

/-- What is asked of the VIEW-CHANGE messages, and of the receiver: no number is the largest
there is; the reports reach every stable checkpoint that is above another one; and what
nobody reports above the lowest stable checkpoint, the receiver has not committed. -/
structure Acceptable (D : Deployment) (r : Replica) (messages : List ViewChangeMessage) :
    Prop where
  numbered : ∀ vc ∈ messages, vc.stableCkpt.seq < 2 ^ 64 - 1 ∧
    ∀ entry ∈ vc.preparedMsg, entry.seq < 2 ^ 64 - 1
  bridged : ∀ vc ∈ messages, ∀ vc' ∈ messages, vc.stableCkpt.seq < vc'.stableCkpt.seq →
    Within messages vc'.stableCkpt.seq
  uncommitted : ∀ seq, (∃ vc ∈ messages, vc.stableCkpt.seq < seq) → Within messages seq →
    (∀ vc ∈ messages, ∀ entry ∈ vc.preparedMsg, entry.seq ≠ seq) →
    (D.collector r seq).isCommitted = false

section Accepted
variable (filled : nv.viewchangeMessages ≠ []) (full : ∀ entry ∈ nv.prepared, entry.proof ≠ [])

include filled in
theorem covers_iff_bridged (small : nv.maxSeq < 2 ^ 64 - 1) {needSign : Bool} :
    covers nv (D.redoList id nv needSign) = true ↔
      (∀ vc ∈ nv.viewchangeMessages, vc.stableCkpt.seq < 2 ^ 64 - 1) ∧
        ∀ vc ∈ nv.viewchangeMessages, ∀ vc' ∈ nv.viewchangeMessages,
          vc.stableCkpt.seq < vc'.stableCkpt.seq →
            Within nv.viewchangeMessages vc'.stableCkpt.seq := by
  have started : nv.start < 2 ^ 64 := Nat.mod_lt _ (by decide)
  rw [covers_redoList_iff]
  constructor
  · intro covered
    have low : ∀ vc ∈ nv.viewchangeMessages, vc.stableCkpt.seq < 2 ^ 64 - 1 := by
      intro vc member
      have le := (nv.le_maxStable_iff filled).mpr ⟨vc, member, le_rfl⟩
      omega
    refine ⟨low, fun vc member vc' member' below => (nv.le_maxSeq_iff _).mp ?_⟩
    have first := (nv.start_le_iff filled low).mpr ⟨vc, member, below⟩
    have last := (nv.le_maxStable_iff filled).mpr ⟨vc', member', le_rfl⟩
    omega
  · rintro ⟨low, bridged⟩
    refine or_iff_not_imp_left.mpr (fun between => ?_)
    obtain ⟨vc, member, below⟩ := (nv.start_le_iff filled low).mp (not_lt.mp between)
    obtain ⟨vc', member', above⟩ := (nv.le_maxStable_iff filled).mp (le_refl nv.maxStable)
    exact above.trans ((nv.le_maxSeq_iff _).mpr
      (bridged vc member vc' member' (below.trans_le above)))

include filled full in
theorem readable_iff_uncommitted {r : Replica} (on : D.enableViewchange = true)
    (low : ∀ vc ∈ nv.viewchangeMessages, vc.stableCkpt.seq < 2 ^ 64 - 1) {needSign : Bool} :
    (∀ request ∈ D.redoList id nv needSign, D.Readable r request) ↔
      ∀ seq, (∃ vc ∈ nv.viewchangeMessages, vc.stableCkpt.seq < seq) →
        Within nv.viewchangeMessages seq →
        (∀ vc ∈ nv.viewchangeMessages, ∀ entry ∈ vc.preparedMsg, entry.seq ≠ seq) →
        (D.collector r seq).isCommitted = false := by
  constructor
  · intro readable seq first last unreported
    have listed : D.redoRequest id nv needSign seq ∈ D.redoList id nv needSign := mem_redoList.mpr
      ⟨seq, (nv.start_le_iff filled low).mpr first, (nv.le_maxSeq_iff seq).mpr last, rfl⟩
    have null : (D.redoRequest id nv needSign seq).type = .prePrepare :=
      (redoRequest_prePrepare_iff full needSign seq).mpr
        ((nv.lastPrepared_eq_none_iff seq).mpr unreported)
    have spared := (readable _ listed null).2
    rwa [redoRequest_seq] at spared
  · intro uncommitted request member null
    obtain ⟨seq, first, last, rfl⟩ := mem_redoList.mp member
    have unreported := (nv.lastPrepared_eq_none_iff seq).mp
      ((redoRequest_prePrepare_iff full needSign seq).mp null)
    rw [redoRequest_seq]
    exact ⟨on, uncommitted seq ((nv.start_le_iff filled low).mp first)
      ((nv.le_maxSeq_iff seq).mp last) unreported⟩

include filled full in
theorem accepted_iff_acceptable {primary : Int} {r : Replica} (on : D.enableViewchange = true)
    (computed : nv.request = D.redoList primary nv true) (checks : D.Expected r nv) :
    D.Accepted id r nv ↔ D.Acceptable r nv.viewchangeMessages := by
  have data : (D.redoList id nv false).map (fun request => request.data) =
      nv.request.map (fun request => request.data) := by
    rw [computed]
    exact map_redoList_congr (redoRequest_data primary false true)
  have limit : nv.maxSeq < 2 ^ 64 - 1 ↔
      ∀ vc ∈ nv.viewchangeMessages, ∀ entry ∈ vc.preparedMsg, entry.seq < 2 ^ 64 - 1 := by
    rw [nv.maxSeq_lt_iff]
    simp only [NewViewMessage.mem_prepared]
    exact ⟨fun small vc member entry reported => small entry ⟨vc, member, reported⟩,
      fun small entry ⟨vc, member, reported⟩ => small vc member entry reported⟩
  rcases processNewView_cases (D := D) id r nv with
    ⟨unexpected, -⟩ | ⟨-, stuck, crashed⟩ | ⟨-, listed, ⟨mismatch, refused⟩ | ⟨matching, installs⟩⟩
  · exact absurd checks unexpected
  · constructor
    · rintro ⟨r', ret, sent, done, -⟩
      rw [crashed] at done
      cases done
    · intro acceptable
      have small := limit.mpr (fun vc member => (acceptable.numbered vc member).2)
      rw [getPrepareMsg_eq_some.mpr ⟨full, small, rfl⟩] at stuck
      cases stuck
  · have small := (getPrepareMsg_eq_some.mp listed).2.1
    constructor
    · rintro ⟨r', ret, sent, done, code, -⟩
      rw [refused] at done
      cases done
      exact absurd rfl code
    · intro acceptable
      refine absurd ⟨data, ?_⟩ mismatch
      exact (covers_iff_bridged filled small).mpr
        ⟨fun vc member => (acceptable.numbered vc member).1, acceptable.bridged⟩
  · have small := (getPrepareMsg_eq_some.mp listed).2.1
    obtain ⟨low, bridged⟩ := (covers_iff_bridged filled small).mp matching.2
    have readable : (D.installView id r nv (D.redoList id nv false)).isSome ↔
        ∀ request ∈ nv.request, D.Readable r request := installView_isSome_iff _
    rw [computed, readable_iff_uncommitted filled full on low] at readable
    constructor
    · rintro ⟨r', ret, sent, done, -⟩
      rw [installs] at done
      exact ⟨fun vc member => ⟨low vc member, limit.mp small vc member⟩, bridged,
        readable.mp (Option.isSome_of_eq_some done)⟩
    · intro acceptable
      obtain ⟨⟨r', ret, sent⟩, done⟩ :=
        Option.isSome_iff_exists.mp (readable.mpr acceptable.uncommitted)
      obtain ⟨redone, code, -⟩ := installView_installs done
      refine ⟨r', ret, sent, installs.trans done, ?_, redone.view⟩
      rcases code with code | code <;>
      · rw [code]
        decide

end Accepted

end Deployment

namespace System
variable {D : Deployment} {byz : Finset Int} {s : System}

theorem reports_proved (on : D.enableViewchange = true) {as : List Action}
    (ran : Run.exec (step D byz) {} as = some s) (i : Int) {entry : PreparedMessage}
    (member : entry ∈
      (D.sendViewChangeMsg (Deployment.startViewChange (s.replica i))).preparedMsg) :
    entry.proof ≠ [] := by
  obtain ⟨seq, -, report⟩ := List.mem_filterMap.mp member
  rw [Deployment.reportPrepared, Option.ite_none_right_eq_some] at report
  obtain ⟨past, same⟩ := report
  cases same
  have full := ((run_reporting ran).certified on i _).full past
  exact List.ne_nil_of_length_pos ((quorum_pos D).trans_le full)

/-- The NEW-VIEW message that a primary builds from VIEW-CHANGE messages that replicas send in
states they reach, and that are valid at a receiver which expects the view, is accepted by it
if and only if the messages are acceptable to it. -/
theorem new_view_accepted_iff (on : D.enableViewchange = true) {view : ℕ} {r receiver : Replica}
    (primary id : Int) (unsent : r.newViewIsSent = false)
    (full : D.quorum ≤ (r.viewchangeRequest view).size)
    (reached : ∀ entry ∈ (r.viewchangeRequest view).entries, ∃ as s,
      Run.exec (step D byz) {} as = some s ∧
        entry.2 = D.sendViewChangeMsg (Deployment.startViewChange (s.replica entry.1)))
    (named : ∀ entry ∈ (r.viewchangeRequest view).entries, entry.2.viewNumber = view)
    (valid : ∀ entry ∈ (r.viewchangeRequest view).entries,
      D.isValidViewChangeMsg receiver entry.2 = true)
    (expects : view = (receiver.view + receiver.viewChangeCounter) % 2 ^ 64) :
    (∃ r' nv, D.sendNewViewMsg primary r view = some (r', [nv]) ∧ D.Accepted id receiver nv) ↔
      D.Acceptable receiver ((r.viewchangeRequest view).entries.map Prod.snd) := by
  have messages : (newViewOf r view).viewchangeMessages =
      (r.viewchangeRequest view).entries.map Prod.snd := by
    refine List.map_congr_left (fun entry member => ?_)
    rw [← named entry member]
  have filled : (newViewOf r view).viewchangeMessages ≠ [] := by
    rw [messages]
    intro none
    have length := congrArg List.length none
    rw [List.length_map, List.length_nil] at length
    exact absurd (full.trans_eq length) (not_le.mpr (quorum_pos D))
  have proved : ∀ entry ∈ (newViewOf r view).prepared, entry.proof ≠ [] := by
    intro entry member
    obtain ⟨vc, listed, reported⟩ := NewViewMessage.mem_prepared.mp member
    rw [messages] at listed
    obtain ⟨stored, inside, rfl⟩ := List.mem_map.mp listed
    obtain ⟨as, s, ran, made⟩ := reached stored inside
    rw [made] at reported
    exact reports_proved on ran _ reported
  have checks : D.Expected receiver (newViewOf r view) := by
    refine ⟨expects, ?_⟩
    rw [messages, List.all_eq_true]
    intro vc listed
    obtain ⟨stored, inside, rfl⟩ := List.mem_map.mp listed
    exact valid stored inside
  rw [Deployment.sendNewViewMsg_eq view unsent, ← messages]
  cases computed : D.getPrepareMsg primary (newViewOf r view) true with
  | none =>
      constructor
      · rintro ⟨r', nv, sent, -⟩
        cases sent
      · intro acceptable
        have legible : Legible (newViewOf r view).viewchangeMessages := by
          intro vc member entry reported
          refine ⟨proved entry (NewViewMessage.mem_prepared.mpr ⟨vc, member, reported⟩), ?_⟩
          exact (acceptable.numbered vc member).2 entry reported
        rw [← NewViewMessage.getPrepareMsg_isSome_iff D primary _ true, computed] at legible
        cases legible
  | some list =>
      obtain ⟨-, -, rfl⟩ := Deployment.getPrepareMsg_eq_some.mp computed
      have either : D.Accepted id receiver { newViewOf r view with
            request := D.redoList primary (newViewOf r view) true } ↔
          D.Acceptable receiver (newViewOf r view).viewchangeMessages := by
        refine Deployment.accepted_iff_acceptable ?_ ?_ on rfl ?_
        · exact filled
        · exact proved
        · exact checks
      rw [← either]
      constructor
      · rintro ⟨r', nv, sent, accepted⟩
        cases sent
        exact accepted
      · exact fun accepted => ⟨_, _, rfl, accepted⟩

section Sample

/-- A replica that has stored what the replicas named announce. -/
def sampleCollected (D : Deployment) (s : System) (id : Int) (senders : List Int) : Replica :=
  senders.foldl (fun r sender => Deployment.addViewChange r sender
    (D.sendViewChangeMsg (Deployment.startViewChange (s.replica sender)))) (s.replica id)

theorem acceptable_of_reports {D : Deployment} {r : Replica} {messages : List ViewChangeMessage}
    (reports : ∀ vc ∈ messages, vc.stableCkpt.seq = 0 ∧
      vc.preparedMsg.map (fun entry => entry.seq) = [1]) : D.Acceptable r messages := by
  have one : ∀ vc ∈ messages, ∀ entry ∈ vc.preparedMsg, entry.seq = 1 := by
    intro vc member entry reported
    have listed := List.mem_map_of_mem (f := fun entry => entry.seq) reported
    rw [(reports vc member).2] at listed
    exact List.mem_singleton.mp listed
  refine ⟨fun vc member => ⟨?_, fun entry reported => ?_⟩, fun vc member vc' member' below => ?_,
    fun seq ⟨vc, member, above⟩ within unreported => ?_⟩
  · rw [(reports vc member).1]
    decide
  · rw [one vc member entry reported]
    decide
  · rw [(reports vc' member').1] at below
    exact absurd below (Nat.not_lt_zero _)
  · -- the one number that is left is reported
    obtain ⟨entry, reported, number⟩ := List.mem_map.mp
      ((reports vc member).2.symm ▸ List.mem_singleton_self 1)
    rcases within with ⟨vc', member', entry', reported', le⟩ | ⟨none, -⟩
    · rw [one vc' member' entry' reported'] at le
      rw [(reports vc member).1] at above
      exact absurd (number.trans (by omega)) (unreported vc member entry reported)
    · rw [none vc member] at reported
      exact absurd reported List.not_mem_nil

/-- Replicas 1 to 3 have prepared a request. The NEW-VIEW message with it is accepted by
replica 4. -/
theorem new_view_accepted_sample : ∃ s,
    Run.exec (step sampleDeployment ∅) {} (sampleAgreement sampleDeployment 1) = some s ∧
      ∃ r' nv, sampleDeployment.sendNewViewMsg 2 (sampleCollected sampleDeployment s 2 [1, 2, 3])
          2 = some (r', [nv]) ∧ sampleDeployment.Accepted 4 {} nv := by
  obtain ⟨s, ran, facts⟩ := (Option.any_eq_true _ _).mp
    (show (Run.exec (step sampleDeployment ∅) {} (sampleAgreement sampleDeployment 1)).any
      (fun s =>
        let r := sampleCollected sampleDeployment s 2 [1, 2, 3]
        let vc := fun i : Int => sampleDeployment.sendViewChangeMsg
          (Deployment.startViewChange (s.replica i))
        decide (r.newViewIsSent = false ∧ sampleDeployment.quorum ≤ (r.viewchangeRequest 2).size ∧
          (r.viewchangeRequest 2).entries = [1, 2, 3].map (fun i => (i, vc i)) ∧
          (∀ entry ∈ (r.viewchangeRequest 2).entries, entry.2.viewNumber = 2) ∧
          (∀ entry ∈ (r.viewchangeRequest 2).entries,
            sampleDeployment.isValidViewChangeMsg {} entry.2 = true) ∧
          ∀ vc ∈ (r.viewchangeRequest 2).entries.map Prod.snd, vc.stableCkpt.seq = 0 ∧
            vc.preparedMsg.map (fun entry => entry.seq) = [1])) = true by decide +kernel)
  obtain ⟨unsent, full, entries, named, valid, reports⟩ := of_decide_eq_true facts
  have reached : ∀ entry ∈ ((sampleCollected sampleDeployment s 2 [1, 2, 3]).viewchangeRequest
      2).entries, ∃ as s', Run.exec (step sampleDeployment ∅) {} as = some s' ∧ entry.2 =
        sampleDeployment.sendViewChangeMsg (Deployment.startViewChange (s'.replica entry.1)) := by
    intro entry member
    rw [entries] at member
    obtain ⟨i, -, rfl⟩ := List.mem_map.mp member
    exact ⟨_, s, ran, rfl⟩
  exact ⟨s, ran, (new_view_accepted_iff rfl 2 4 unsent full reached named valid rfl).mpr
    (acceptable_of_reports reports)⟩

/-- Replicas 1 and 2 learn of the checkpoints that replicas 1 to 3 take at the second request. -/
def sampleLagging : List Action :=
  let hash := CheckPointManager.getHash Crypto.sample
    (CheckPointManager.getHash Crypto.sample [] [1]) [2]
  sampleAgreement sampleCheckpointing 1 ++ sampleAgreement sampleCheckpointing 2 ++
    [1, 2, 3].flatMap (fun id =>
      [Action.order id, .order id, .execute id, .execute id, .digest id, .digest id]) ++
    [1, 2].flatMap (fun id => [1, 2, 3].map (fun sender => Action.deliver id
        (.checkpoint sender ⟨2, hash, Crypto.sample.signMessage sender hash⟩)) ++
      [Action.stabilise id (fun _ _ _ => none)])

/-- What becomes of the NEW-VIEW message that replica 2 builds: the messages in it with their
stable checkpoints and whether they are valid at the receiver, the view that it expects, and
the code that it returns. -/
def sampleVerdict (s : System) (id : Int) : List (Int × ℕ × Bool) × ℕ × List (Option Int) :=
  let r := sampleCollected sampleCheckpointing s 2 [1, 2, 4]
  ((r.viewchangeRequest 2).entries.map (fun entry => (entry.1, entry.2.stableCkpt.seq,
      sampleCheckpointing.isValidViewChangeMsg (s.replica id) entry.2)),
    ((s.replica id).view + (s.replica id).viewChangeCounter) % 2 ^ 64,
    (sampleCheckpointing.sendNewViewMsg 2 r 2).toList.flatMap (fun out => out.2.map (fun nv =>
      (sampleCheckpointing.processNewView id (s.replica id) (some nv)).map (fun out => out.2.1))))

/-- Replica 4 has no checkpoint; its message is valid all the same, and the one built with it
is refused by replica 1 and by the new primary itself. -/
theorem lagging_new_view_refused :
    (Run.exec (step sampleCheckpointing ∅) {} sampleLagging).map (fun s => sampleVerdict s 1) =
        some ([(1, 2, true), (2, 2, true), (4, 0, true)], 2, [some (-2)]) ∧
      (Run.exec (step sampleCheckpointing ∅) {} sampleLagging).map (fun s => sampleVerdict s 2) =
        some ([(1, 2, true), (2, 2, true), (4, 0, true)], 2, [some (-2)]) := by
  constructor
  · decide +kernel
  · decide +kernel

end Sample

end System
end ResDB.Pbft
