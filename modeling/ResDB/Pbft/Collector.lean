import Mathlib.Tactic
import ResDB.Pbft.Request

/-! `TransactionCollector`: the messages of one sequence number, counted by hash, and the
status they drive. The callback that `AddRequest` is given is that of
`MessageManager::AddConsensusMsg`. A call is one transition. -/
namespace ResDB.Pbft

/-- `TransactionStatue`, in ascending order. -/
inductive Status where
  | none
  | readyPrepare
  | readyCommit
  | readyExecute
  | executed
  deriving DecidableEq

def Status.rank : Status → ℕ
  | .none => 0
  | .readyPrepare => 1
  | .readyCommit => 2
  | .readyExecute => 3
  | .executed => 4

/-- `senders` are the bit sets `senders_[type][hash]`. After `Commit` the main request has
been moved out to the executor; `isCommitted` is set from then on. The set
`other_main_request_` is ordered by address in the source and by arrival here. -/
structure Collector where
  seq : ℕ
  status : Status := .none
  isCommitted : Bool := false
  isPrepared : Bool := false
  mainRequest : Option RequestInfo := none
  otherMainRequest : List RequestInfo := []
  preparedProof : List RequestInfo := []
  senders : RequestType → Bytes → Finset Int := fun _ _ => ∅
  commitCerts : List SignatureInfo := []
  view : ℕ := 0

/-- What a call returns, whether the callback reported a change, and what was handed to the
executor. -/
structure AddResult where
  ret : Int
  changed : Bool := false
  handed : Option Request := none

/-- `MayConsensusChangeStatus` with `quorum` for `GetMinDataReceiveNum`. -/
def mayConsensusChangeStatus (quorum : ℕ) (type : RequestType) (receivedCount : ℕ)
    (status : Status) (ret : Bool) : Status × Bool :=
  match type with
  | .prePrepare => if status = .none then (.readyPrepare, true) else (status, ret)
  | .prepare =>
      if status = .readyPrepare ∧ quorum ≤ receivedCount then (.readyCommit, true)
      else (status, ret)
  | .commit =>
      if status = .readyCommit ∧ quorum ≤ receivedCount then (.readyExecute, true)
      else (status, ret)
  | _ => (status, ret)

namespace Collector
variable (quorum : ℕ) (enableViewchange : Bool) (c : Collector) (info : RequestInfo)

/-- A main request of a later view replaces that of an earlier one as long as nothing is
prepared. -/
def force : Bool := c.view ≠ 0 ∧ c.view < info.request.currentView ∧ c.isPrepared = false

/-- A main request. If there is one already it is put aside. -/
def addMain : Collector × AddResult :=
  let force := c.force info
  let main := if force then none else c.mainRequest
  match main with
  | some _ => ({ c with otherMainRequest := c.otherMainRequest ++ [info] }, { ret := -2 })
  | none =>
      let (status, changed) :=
        mayConsensusChangeStatus quorum info.request.type 1 c.status force
      ({ c with mainRequest := some info, view := info.request.currentView, status := status },
        { ret := 0, changed := changed })

/-- The places of a `std::bitset<128>`. -/
def HasBit (id : Int) : Prop := 0 ≤ id ∧ id < 128

instance (id : Int) : Decidable (HasBit id) := inferInstanceAs (Decidable (_ ∧ _))

-- an id without a place is written past the end of the bit set, which does not count it
def setBit (id : Int) (bits : Finset Int) : Finset Int := if HasBit id then insert id bits else bits

def addSender : Collector :=
  { c with
    senders := Function.update c.senders info.request.type
      (Function.update (c.senders info.request.type) info.request.hash
        (setBit info.request.senderId (c.senders info.request.type info.request.hash))) }

def received : ℕ := (c.senders info.request.type info.request.hash).card

/-- The hash is prepared. A main request with another hash gives way to one put aside that
has it, and only the proofs of that hash are kept. -/
def settle (hash : Bytes) : Collector :=
  let differs := c.mainRequest.any (fun main => main.request.hash ≠ hash)
  { c with
    isPrepared := true
    mainRequest :=
      if differs then c.otherMainRequest.find? (fun other => other.request.hash = hash)
      else c.mainRequest
    otherMainRequest := if differs then [] else c.otherMainRequest
    preparedProof := c.preparedProof.filter (fun proof => proof.request.hash = hash) }

def addPrepare : Collector × AddResult :=
  if c.status.rank ≤ Status.readyPrepare.rank then
    if c.isPrepared then (c, { ret := 0 })
    else
      let c := addSender { c with preparedProof := c.preparedProof ++ [info] } info
      let (status, changed) :=
        mayConsensusChangeStatus quorum info.request.type (c.received info) c.status false
      let c := { c with status := status }
      if status = .readyCommit then (c.settle info.request.hash, { ret := 0, changed := changed })
      else (c, { ret := 0, changed := changed })
  else (c, { ret := 0 })

/-- `Commit`. Without a main request the status moves on and nothing is handed over. -/
def commit : Collector × Option Request :=
  match c.mainRequest with
  | none => ({ c with status := .executed }, none)
  | some main =>
      ({ c with status := .executed, isCommitted := true },
        some { main.request with
          committedCerts := main.request.committedCerts ++ c.commitCerts })

/-- A COMMIT that carries a signature of its hash leaves it behind. -/
def noteCert : Collector :=
  match info.request.type, info.request.dataSignature with
  | .commit, some sign =>
      if 0 < sign.nodeId then { c with commitCerts := c.commitCerts ++ [sign] } else c
  | _, _ => c

def addVote : Collector × AddResult :=
  let c := (c.noteCert info).addSender info
  let (status, changed) :=
    mayConsensusChangeStatus quorum info.request.type (c.received info) c.status false
  let c := { c with status := status }
  if status = .readyExecute then
    let (c, handed) := c.commit
    (c, { ret := 1, changed := changed, handed := handed })
  else (c, { ret := 0, changed := changed })

def addRequest : Collector × AddResult :=
  if c.isCommitted then (c, { ret := -2 })
  else if c.status = .executed then (c, { ret := -2 })
  else if c.seq ≠ info.request.seq then (c, { ret := -2 })
  else if info.request.type = .prePrepare then c.addMain quorum info
  else if enableViewchange ∧ info.request.type = .prepare then c.addPrepare quorum info
  else c.addVote quorum info

variable {quorum enableViewchange c info}

/-- The message is counted, and nothing else that the status machine reads changes. A
PREPARE may also be kept as a proof, as long as nothing is prepared. -/
structure Tallied (c : Collector) (info : RequestInfo) (c' : Collector) : Prop where
  seq : c'.seq = c.seq
  status : c'.status = c.status
  mainRequest : c'.mainRequest = c.mainRequest
  otherMainRequest : c'.otherMainRequest = c.otherMainRequest
  senders : c'.senders = (c.addSender info).senders
  proofs : c'.preparedProof = c.preparedProof ∨
    c.status.rank ≤ Status.readyPrepare.rank ∧ c'.preparedProof = c.preparedProof ++ [info]

/-- Everything a call can do between two calls, when no execution is pending. -/
inductive Added (quorum : ℕ) (enableViewchange : Bool) (c : Collector) (info : RequestInfo) :
    Collector × AddResult → Prop where
  | rejected : Added quorum enableViewchange c info (c, { ret := -2 })
  | aside (pre : info.request.type = .prePrepare) (seq : c.seq = info.request.seq) :
      Added quorum enableViewchange c info
        ({ c with otherMainRequest := c.otherMainRequest ++ [info] }, { ret := -2 })
  | main {status : Status} {changed : Bool} (pre : info.request.type = .prePrepare)
      (seq : c.seq = info.request.seq)
      (next : status = c.status ∨ c.status = .none ∧ status = .readyPrepare) :
      Added quorum enableViewchange c info
        ({ c with mainRequest := some info, view := info.request.currentView, status := status },
          { ret := 0, changed := changed })
  | ignored (prepare : info.request.type = .prepare) :
      Added quorum enableViewchange c info (c, { ret := 0 })
  | counted {c' : Collector} (tallied : Tallied c info c') (seq : c.seq = info.request.seq)
      (kept : info.request.type = .prepare → enableViewchange = true → info ∈ c'.preparedProof) :
      Added quorum enableViewchange c info (c', { ret := 0 })
  | prepared {c' : Collector} (tallied : Tallied c info c') (seq : c.seq = info.request.seq)
      (prepare : info.request.type = .prepare) (ready : c.status = .readyPrepare)
      (full : quorum ≤ c'.received info) (off : enableViewchange = false) :
      Added quorum enableViewchange c info
        ({ c' with status := .readyCommit }, { ret := 0, changed := true })
  | settled {c' : Collector} (tallied : Tallied c info c') (seq : c.seq = info.request.seq)
      (prepare : info.request.type = .prepare) (ready : c.status = .readyPrepare)
      (full : quorum ≤ c'.received info) (proof : info ∈ c'.preparedProof) :
      Added quorum enableViewchange c info
        (settle { c' with status := .readyCommit } info.request.hash, { ret := 0, changed := true })
  | executed {c' : Collector} (tallied : Tallied c info c') (seq : c.seq = info.request.seq)
      (commits : info.request.type = .commit) (ready : c.status = .readyCommit)
      (full : quorum ≤ c'.received info) :
      Added quorum enableViewchange c info
        ((commit { c' with status := .readyExecute }).1,
          { ret := 1, changed := true,
            handed := (commit { c' with status := .readyExecute }).2 })

theorem noteCert_cases (c : Collector) (info : RequestInfo) :
    ∃ certs, c.noteCert info = { c with commitCerts := certs } := by
  unfold noteCert
  split
  · split_ifs
    · exact ⟨_, rfl⟩
    · exact ⟨c.commitCerts, rfl⟩
  · exact ⟨c.commitCerts, rfl⟩

theorem mayConsensusChangeStatus_cases (quorum : ℕ) {type : RequestType}
    (other : type ≠ .prePrepare) (count : ℕ) (status : Status) (ret : Bool) :
    mayConsensusChangeStatus quorum type count status ret = (status, ret) ∨
      (type = .prepare ∧ status = .readyPrepare ∧ quorum ≤ count ∧
        mayConsensusChangeStatus quorum type count status ret = (.readyCommit, true)) ∨
      (type = .commit ∧ status = .readyCommit ∧ quorum ≤ count ∧
        mayConsensusChangeStatus quorum type count status ret = (.readyExecute, true)) := by
  unfold mayConsensusChangeStatus
  cases type with
  | prePrepare => exact absurd rfl other
  | prepare =>
      by_cases step : status = .readyPrepare ∧ quorum ≤ count
      · exact .inr (.inl ⟨rfl, step.1, step.2, if_pos step⟩)
      · exact .inl (if_neg step)
  | commit =>
      by_cases step : status = .readyCommit ∧ quorum ≤ count
      · exact .inr (.inr ⟨rfl, step.1, step.2, if_pos step⟩)
      · exact .inl (if_neg step)
  | _ => exact .inl rfl

theorem addMain_added (pre : info.request.type = .prePrepare) (seq : c.seq = info.request.seq) :
    Added quorum enableViewchange c info (c.addMain quorum info) := by
  unfold addMain
  simp only [pre, mayConsensusChangeStatus]
  split
  · exact .aside pre seq
  · split_ifs with fresh
    · exact .main pre seq (.inr ⟨fresh, rfl⟩)
    · exact .main pre seq (.inl rfl)

theorem addPrepare_added (prepare : info.request.type = .prepare)
    (seq : c.seq = info.request.seq) :
    Added quorum enableViewchange c info (c.addPrepare quorum info) := by
  unfold addPrepare
  split_ifs with early known
  · exact .ignored prepare
  · have tallied : Tallied c info
        (addSender { c with preparedProof := c.preparedProof ++ [info] } info) :=
      ⟨rfl, rfl, rfl, rfl, rfl, .inr ⟨early, rfl⟩⟩
    have proof : info ∈
        (addSender { c with preparedProof := c.preparedProof ++ [info] } info).preparedProof :=
      List.mem_append_right _ (List.mem_singleton_self info)
    generalize addSender { c with preparedProof := c.preparedProof ++ [info] } info = c'
      at tallied proof ⊢
    rcases mayConsensusChangeStatus_cases quorum
      (show info.request.type ≠ .prePrepare by simp [prepare]) (c'.received info) c'.status false
      with same | ⟨-, ready, full, next⟩ | ⟨commits, -⟩
    · have rest : c'.status ≠ .readyCommit := by
        intro reached
        rw [← tallied.status, reached] at early
        exact absurd early (by decide)
      simp only [same, if_neg rest]
      exact .counted tallied seq (fun _ _ => proof)
    · simp only [next, if_true]
      exact .settled tallied seq prepare (tallied.status ▸ ready) full proof
    · rw [prepare] at commits
      cases commits
  · exact .ignored prepare

theorem addVote_added (resting : c.status ≠ .readyExecute)
    (other : info.request.type ≠ .prePrepare) (seq : c.seq = info.request.seq)
    (off : info.request.type = .prepare → enableViewchange = false) :
    Added quorum enableViewchange c info (c.addVote quorum info) := by
  have tallied : Tallied c info ((c.noteCert info).addSender info) := by
    obtain ⟨certs, noted⟩ := noteCert_cases c info
    rw [noted]
    exact ⟨rfl, rfl, rfl, rfl, rfl, .inl rfl⟩
  unfold addVote
  generalize (c.noteCert info).addSender info = c' at tallied ⊢
  rcases mayConsensusChangeStatus_cases quorum other (c'.received info) c'.status false
    with same | ⟨prepare, ready, full, next⟩ | ⟨commits, ready, full, next⟩
  · have waiting : c'.status ≠ .readyExecute := by
      rw [tallied.status]
      exact resting
    simp only [same, if_neg waiting]
    exact .counted tallied seq (fun sort on => absurd (off sort) (by rw [on]; decide))
  · simp only [next, reduceCtorEq, if_false]
    exact .prepared tallied seq prepare (tallied.status ▸ ready) full (off prepare)
  · simp only [next, if_true]
    exact .executed tallied seq commits (tallied.status ▸ ready) full

theorem addRequest_added (resting : c.status ≠ .readyExecute) :
    Added quorum enableViewchange c info (c.addRequest quorum enableViewchange info) := by
  unfold addRequest
  split_ifs with committed executed mismatch pre prepare
  · exact .rejected
  · exact .rejected
  · exact .rejected
  · exact addMain_added pre (not_not.mp mismatch)
  · exact addPrepare_added prepare.2 (not_not.mp mismatch)
  · refine addVote_added resting pre (not_not.mp mismatch) (fun sort => ?_)
    exact Bool.eq_false_iff.mpr (fun on => prepare ⟨on, sort⟩)

section Commit
variable (c : Collector)

@[simp] theorem commit_seq : c.commit.1.seq = c.seq := by
  unfold commit
  split <;> rfl

@[simp] theorem commit_status : c.commit.1.status = .executed := by
  unfold commit
  split <;> rfl

@[simp] theorem commit_senders : c.commit.1.senders = c.senders := by
  unfold commit
  split <;> rfl

@[simp] theorem commit_mainRequest : c.commit.1.mainRequest = c.mainRequest := by
  unfold commit
  split <;> rfl

@[simp] theorem commit_otherMainRequest : c.commit.1.otherMainRequest = c.otherMainRequest := by
  unfold commit
  split <;> rfl

@[simp] theorem commit_preparedProof : c.commit.1.preparedProof = c.preparedProof := by
  unfold commit
  split <;> rfl

theorem commit_handed {q : Request} (handed : c.commit.2 = some q) :
    ∃ main, c.mainRequest = some main ∧ q.hash = main.request.hash ∧
      q.seq = main.request.seq := by
  unfold commit at handed
  split at handed
  · cases handed
  · rename_i main found
    cases handed
    exact ⟨main, found, rfl, rfl⟩

end Commit

/-- The main requests of a collector are of its sequence number. -/
def Coherent (c : Collector) : Prop :=
  ∀ main, c.mainRequest = some main ∨ main ∈ c.otherMainRequest → main.request.seq = c.seq

/-- The collector is past its PREPARE quorum. With view changes enabled the proofs it keeps
are of the hash. -/
structure Past (enableViewchange : Bool) (c : Collector) (hash : Bytes) : Prop where
  rank : Status.readyCommit.rank ≤ c.status.rank
  proofs : enableViewchange = true →
    c.preparedProof ≠ [] ∧ ∀ proof ∈ c.preparedProof, proof.request.hash = hash

instance (enableViewchange : Bool) (c : Collector) (hash : Bytes) :
    Decidable (c.Past enableViewchange hash) :=
  decidable_of_iff
    (Status.readyCommit.rank ≤ c.status.rank ∧ (enableViewchange = true →
      c.preparedProof ≠ [] ∧ ∀ proof ∈ c.preparedProof, proof.request.hash = hash))
    ⟨fun both => ⟨both.1, both.2⟩, fun past => ⟨past.rank, past.proofs⟩⟩

theorem Past.unique (on : enableViewchange = true) {h h' : Bytes}
    (past : c.Past enableViewchange h) (past' : c.Past enableViewchange h') : h' = h := by
  obtain ⟨nonempty, same⟩ := past.proofs on
  obtain ⟨proof, member⟩ := List.exists_mem_of_ne_nil _ nonempty
  rw [← same proof member, (past'.proofs on).2 proof member]

theorem mem_setBit {id i : Int} {bits : Finset Int} :
    i ∈ setBit id bits ↔ i ∈ bits ∨ i = id ∧ HasBit i := by
  unfold setBit
  split_ifs with place
  · rw [Finset.mem_insert, or_comm]
    refine or_congr_right (iff_self_and.mpr ?_)
    rintro rfl
    exact place
  · refine (or_iff_left ?_).symm
    rintro ⟨rfl, inside⟩
    exact place inside

theorem mem_addSender {type : RequestType} {h : Bytes} {i : Int} :
    i ∈ (c.addSender info).senders type h ↔ i ∈ c.senders type h ∨
      (type = info.request.type ∧ h = info.request.hash ∧ i = info.request.senderId ∧
        HasBit i) := by
  by_cases sameType : type = info.request.type
  · subst sameType
    by_cases sameHash : h = info.request.hash
    · subst sameHash
      simp [addSender, mem_setBit]
    · simp [addSender, sameHash]
  · simp [addSender, sameType]

section Effects
variable {result : Collector × AddResult} (added : Added quorum enableViewchange c info result)
include added

theorem Added.seq_eq : result.1.seq = c.seq := by
  cases added with
  | counted tallied _ _ => exact tallied.seq
  | prepared tallied _ _ _ _ _ => exact tallied.seq
  | settled tallied _ _ _ _ _ => exact tallied.seq
  | executed tallied _ _ _ _ => exact (commit_seq _).trans tallied.seq
  | _ => rfl

theorem Added.rank_le : c.status.rank ≤ result.1.status.rank := by
  cases added with
  | main _ _ next =>
      rcases next with same | ⟨fresh, moved⟩
      · exact (congrArg Status.rank same).ge
      · rw [fresh]
        exact Nat.zero_le _
  | counted tallied _ _ => exact (congrArg Status.rank tallied.status).ge
  | prepared _ _ _ ready _ _ => exact ready ▸ (show (1 : ℕ) ≤ 2 by omega)
  | settled _ _ _ ready _ _ => exact ready ▸ (show (1 : ℕ) ≤ 2 by omega)
  | executed _ _ _ ready _ =>
      rw [ready, commit_status]
      exact (show (2 : ℕ) ≤ 4 by omega)
  | _ => exact le_rfl

theorem Added.resting (before : c.status ≠ .readyExecute) :
    result.1.status ≠ .readyExecute := by
  cases added with
  | main _ _ next =>
      rcases next with same | ⟨-, moved⟩
      · rwa [same]
      · rw [moved]
        exact Status.noConfusion
  | counted tallied _ _ => rwa [tallied.status]
  | prepared _ _ _ _ _ _ => exact Status.noConfusion
  | settled _ _ _ _ _ _ => exact Status.noConfusion
  | executed _ _ _ _ _ =>
      rw [commit_status]
      exact Status.noConfusion
  | _ => exact before

theorem Added.mem_senders {type : RequestType} {h : Bytes} {i : Int}
    (member : i ∈ result.1.senders type h) :
    i ∈ c.senders type h ∨ (c.seq = info.request.seq ∧
      type = info.request.type ∧ h = info.request.hash ∧ i = info.request.senderId) := by
  have counted : ∀ {c' : Collector}, Tallied c info c' → c.seq = info.request.seq →
      i ∈ c'.senders type h → i ∈ c.senders type h ∨ (c.seq = info.request.seq ∧
        type = info.request.type ∧ h = info.request.hash ∧ i = info.request.senderId) := by
    intro c' tallied seq inside
    rw [tallied.senders, mem_addSender] at inside
    exact inside.imp_right (fun own => ⟨seq, own.1, own.2.1, own.2.2.1⟩)
  cases added with
  | counted tallied seq _ => exact counted tallied seq member
  | prepared tallied seq _ _ _ _ => exact counted tallied seq member
  | settled tallied seq _ _ _ _ => exact counted tallied seq member
  | executed tallied seq _ _ _ =>
      rw [commit_senders] at member
      exact counted tallied seq member
  | _ => exact .inl member

theorem Added.coherent (before : c.Coherent) : result.1.Coherent := by
  have kept : ∀ {c' : Collector}, Tallied c info c' → c'.Coherent := by
    intro c' tallied main
    rw [tallied.mainRequest, tallied.otherMainRequest, tallied.seq]
    exact before main
  cases added with
  | aside _ seq =>
      rintro main (found | member)
      · exact before main (.inl found)
      · cases List.mem_append.mp member with
        | inl old => exact before main (.inr old)
        | inr new =>
            rw [List.mem_singleton.mp new]
            exact seq.symm
  | main _ seq _ =>
      rintro main (found | member)
      · cases found
        exact seq.symm
      · exact before main (.inr member)
  | counted tallied _ _ => exact kept tallied
  | prepared tallied _ _ _ _ _ => exact fun main => kept tallied main
  | settled tallied _ _ _ _ _ =>
      rintro main (found | member)
      · simp only [settle] at found
        split_ifs at found
        · exact kept tallied main (.inr (List.mem_of_find?_eq_some found))
        · exact kept tallied main (.inl found)
      · simp only [settle] at member
        split_ifs at member
        · cases member
        · exact kept tallied main (.inr member)
  | executed tallied _ _ _ _ =>
      intro main
      rw [commit_mainRequest, commit_otherMainRequest, commit_seq]
      exact kept tallied main
  | _ => exact before

theorem Added.past_of_changed (prepare : info.request.type = .prepare)
    (changed : result.2.changed = true) :
    c.seq = info.request.seq ∧ c.status = .readyPrepare ∧
      result.1.Past enableViewchange info.request.hash := by
  cases added with
  | main pre _ _ =>
      rw [prepare] at pre
      cases pre
  | prepared _ seq _ ready _ off =>
      refine ⟨seq, ready, le_rfl, fun on => ?_⟩
      rw [off] at on
      cases on
  | settled _ seq _ ready _ proof =>
      refine ⟨seq, ready, le_rfl, fun _ => ⟨?_, ?_⟩⟩
      · exact List.ne_nil_of_mem (List.mem_filter.mpr ⟨proof, decide_eq_true rfl⟩)
      · intro kept member
        exact of_decide_eq_true (List.mem_filter.mp member).2
  | executed _ _ commits _ _ =>
      rw [prepare] at commits
      cases commits
  | _ => cases changed

theorem Added.full_of_changed (prepare : info.request.type = .prepare)
    (changed : result.2.changed = true) : quorum ≤ (c.addSender info).received info := by
  have counted : ∀ {c' : Collector}, Tallied c info c' → c'.received info =
      (c.addSender info).received info := by
    intro c' tallied
    rw [received, tallied.senders, received]
  cases added with
  | main pre _ _ =>
      rw [prepare] at pre
      cases pre
  | prepared tallied _ _ _ full _ => exact full.trans_eq (counted tallied)
  | settled tallied _ _ _ full _ => exact full.trans_eq (counted tallied)
  | executed _ _ commits _ _ =>
      rw [prepare] at commits
      cases commits
  | _ => cases changed

theorem Added.past {h : Bytes} (before : c.Past enableViewchange h) :
    result.1.Past enableViewchange h := by
  have later : ¬ c.status.rank ≤ Status.readyPrepare.rank := by
    have past := before.rank
    simp only [Status.rank] at past ⊢
    omega
  have same : ∀ {c' : Collector}, Tallied c info c' → c'.preparedProof = c.preparedProof :=
    fun tallied => tallied.proofs.resolve_right (fun early => later early.1)
  refine ⟨before.rank.trans added.rank_le, fun on => ?_⟩
  cases added with
  | counted tallied _ _ => exact (same tallied).symm ▸ before.proofs on
  | prepared tallied _ _ _ _ _ => exact (same tallied).symm ▸ before.proofs on
  | settled _ _ _ ready _ _ =>
      rw [ready] at later
      exact absurd le_rfl later
  | executed tallied _ _ _ _ =>
      rw [commit_preparedProof]
      exact (same tallied).symm ▸ before.proofs on
  | _ => exact before.proofs on

theorem Added.handed_main {q : Request} (handed : result.2.handed = some q) :
    info.request.type = .commit ∧
      (c.status = .readyCommit ∧ quorum ≤ (c.addSender info).received info) ∧
      c.seq = info.request.seq ∧
      quorum ≤ (result.1.senders .commit info.request.hash).card ∧
      ∃ main, c.mainRequest = some main ∧ q.hash = main.request.hash ∧
        q.seq = main.request.seq := by
  cases added with
  | executed tallied seq commits ready full =>
      obtain ⟨main, found, hash, same⟩ := commit_handed _ handed
      rw [received, tallied.senders] at full
      refine ⟨commits, ⟨ready, full⟩, seq, ?_, main, ?_, hash, same⟩
      · rw [commit_senders]
        rw [commits] at full
        exact full.trans_eq (congrArg Finset.card (congrFun (congrFun tallied.senders.symm _) _))
      · rw [← tallied.mainRequest]
        exact found
  | _ => cases handed

end Effects
end Collector
end ResDB.Pbft
