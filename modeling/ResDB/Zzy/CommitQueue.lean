import Mathlib.Data.List.Count
import Mathlib.Tactic
import ResDB.Common.Crypto
import ResDB.Library.AssocMap
import ResDB.Library.Run

/-! The commit queue of `ZZY`. `ReceivePropose` keeps a transaction in `data_` and then queues an
entry for it; `ReceiveCommit` queues another entry for a transaction that is there and not
committed; `AsyncCommit` takes the transaction of each entry out of `data_` and waits in a loop
while there is none. The handlers and the thread interleave between their accesses. -/
namespace ResDB.Zzy

structure Transaction where
  hash : Bytes
  seq : Int
  proposer : Int := 0
  data : Bytes := []
  deriving DecidableEq

structure QC where
  dataHash : Bytes
  sign : SignatureInfo
  deriving DecidableEq

structure Proposal where
  hash : Bytes
  seq : Int
  proposer : Int := 0
  localId : Int := 0
  qc : List QC := []
  deriving DecidableEq

abbrev Entry := Int × Bytes

/-- `AsyncCommit` before `Pop`, in the loop that waits for a transaction, and with one. -/
inductive Committer where
  | idle
  | waiting (entry : Entry)
  | committing (seq : Int) (txn : Transaction)
  deriving DecidableEq

/-- The maps have 1000 parts; their keys are the part and the hash. `storing` has the entries of
the calls of `ReceivePropose` that have kept their transaction and not queued it yet. The index
of a part is not checked: `strayed` says that a call has used one outside of the arrays, after
which nothing is known of the process. -/
structure ZZY where
  data : AssocMap (Int × Bytes) Transaction := ∅
  committed : List (Int × Bytes) := []
  commitQ : List Entry := []
  storing : List Entry := []
  committer : Committer := .idle
  commitSeq : ℕ := 0
  commits : List Transaction := []
  acks : List Proposal := []
  strayed : Bool := false

/-- The part of the maps that an entry belongs to, and its hash. -/
def slot (entry : Entry) : Int × Bytes := (entry.1.tmod 1000, entry.2)

/-- The remainder of a negative number is negative, unless it is 0. -/
def InBounds (entry : Entry) : Prop := 0 ≤ (slot entry).1

instance (entry : Entry) : Decidable (InBounds entry) := Int.decLe _ _

structure Config where
  id : ℕ
  crashNum : ℕ
  crypto : Crypto

namespace Config
variable (cfg : Config)

/-- The replicas that an experiment switches off. -/
def crashed : Bool := cfg.id % 3 = 2 && cfg.id ≤ 3 * cfg.crashNum

def verify (proposal : Proposal) : Bool :=
  proposal.qc.all (fun qc => cfg.crypto.verifyMessage qc.dataHash qc.sign)

end Config

inductive Action where
  | propose (txn : Transaction)
  | queue (entry : Entry)
  | commit (proposal : Proposal)
  | pop
  | take
  | finish

namespace ZZY
variable (cfg : Config) (s : ZZY)

/-- `ReceivePropose` up to the end of its first block. -/
def receivePropose (txn : Transaction) : ZZY :=
  if cfg.crashed then s
  else if InBounds (txn.seq, txn.hash) then
    { s with
      data := s.data.set (slot (txn.seq, txn.hash)) txn
      storing := s.storing ++ [(txn.seq, txn.hash)] }
  else { s with strayed := true }

/-- The second block of `ReceivePropose`. -/
def queueEntry (entry : Entry) : ZZY :=
  { s with
    storing := s.storing.erase entry
    commitQ := s.commitQ ++ [entry]
    commitSeq := s.commitSeq + 1 }

/-- `ReceiveCommit` holds both locks of its part where it looks into `data_` and queues. -/
def receiveCommit (proposal : Proposal) : ZZY :=
  if cfg.crashed then s
  else if ¬ InBounds (proposal.seq, proposal.hash) then { s with strayed := true }
  else
    let key := slot (proposal.seq, proposal.hash)
    let ack : Proposal :=
      { hash := proposal.hash
        seq := proposal.seq
        proposer := cfg.id
        localId := proposal.localId }
    if key ∉ s.committed ∧ (s.data.find key).isSome then
      { s with
        commitQ := s.commitQ ++ [(proposal.seq, proposal.hash)]
        commitSeq := s.commitSeq + 1
        acks := s.acks ++ [ack] }
    else { s with acks := s.acks ++ [ack] }

/-- `AsyncCommit`: an entry is popped, -/
def popEntry : Option ZZY :=
  match s.committer, s.commitQ with
  | .idle, entry :: rest => some { s with committer := .waiting entry, commitQ := rest }
  | _, _ => none

/-- its transaction taken, where the loop goes on as long as there is none, -/
def takeData : Option ZZY :=
  match s.committer with
  | .waiting entry =>
      (s.data.find (slot entry)).map (fun txn =>
        { s with
          committer := .committing entry.1 txn
          data := s.data.erase (slot entry) })
  | _ => none

/-- and committed. -/
def finishCommit : Option ZZY :=
  match s.committer with
  | .committing seq txn =>
      some { s with
        committer := .idle
        commits := s.commits ++ [txn]
        committed := slot (seq, txn.hash) :: s.committed }
  | _ => none

/-- A call of `ReceiveCommit` with a signature that does not verify ends the process. -/
def step : Action → Option ZZY
  | .propose txn => some (s.receivePropose cfg txn)
  | .queue entry => if entry ∈ s.storing then some (s.queueEntry entry) else none
  | .commit proposal => if cfg.verify proposal then some (s.receiveCommit cfg proposal) else none
  | .pop => s.popEntry
  | .take => s.takeData
  | .finish => s.finishCommit

/-! ### Entries and transactions -/

def awaited : List Entry :=
  match s.committer with
  | .waiting entry => [entry]
  | _ => []

/-- The entries for a key that are queued, about to be queued, or waited for. -/
def entries (key : Int × Bytes) : ℕ :=
  ((s.awaited ++ s.commitQ ++ s.storing).map slot).count key

def held (key : Int × Bytes) : ℕ := if (s.data.find key).isSome then 1 else 0

def Balanced : Prop := s.strayed = false ∧ ∀ key, s.entries key = s.held key

/-- What `AsyncCommit` waits for is there. -/
def Served : Prop := s.strayed = false ∧ ∀ entry ∈ s.awaited, (s.data.find (slot entry)).isSome

def Internal : Action → Prop
  | .propose _ => False
  | .commit _ => False
  | .queue _ => True
  | .pop => True
  | .take => True
  | .finish => True

/-- Whatever `AsyncCommit` and the calls under way do next, its loop exits. -/
def Servable : Prop :=
  ∀ actions : List Action, (∀ a ∈ actions, Internal a) →
    ∀ s', Run.exec (step cfg) s actions = some s' →
    s'.Served

/-- A proposal is not one that still waits in `data_`, and neither is the transaction of a
commit certificate, unless it is committed; both are for one of the parts. -/
def Fresh : Action → Prop
  | .propose txn => cfg.crashed = true ∨
      InBounds (txn.seq, txn.hash) ∧ s.data.find (slot (txn.seq, txn.hash)) = none
  | .commit proposal => cfg.crashed = true ∨ InBounds (proposal.seq, proposal.hash) ∧
      (slot (proposal.seq, proposal.hash) ∈ s.committed ∨
        s.data.find (slot (proposal.seq, proposal.hash)) = none)
  | .queue _ => True
  | .pop => True
  | .take => True
  | .finish => True

variable {cfg} {s} {s' : ZZY}

instance decidableFresh (cfg : Config) (s : ZZY) : (a : Action) → Decidable (Fresh cfg s a)
  | .propose _ => inferInstanceAs (Decidable (_ ∨ _ ∧ _))
  | .commit _ => inferInstanceAs (Decidable (_ ∨ _ ∧ (_ ∨ _)))
  | .queue _ => .isTrue trivial
  | .pop => .isTrue trivial
  | .take => .isTrue trivial
  | .finish => .isTrue trivial

theorem entries_eq (s : ZZY) (key : Int × Bytes) :
    s.entries key = (s.awaited.map slot).count key + (s.commitQ.map slot).count key +
      (s.storing.map slot).count key := by
  rw [entries, List.map_append, List.map_append, List.count_append, List.count_append]

/-! ### One step -/

section Steps

/-- Steps without a new call keep the number of entries that have no transaction. -/
def Even (s s' : ZZY) : Prop :=
  s'.strayed = s.strayed ∧ ∀ key, s'.entries key + s.held key = s.entries key + s'.held key

theorem even_queue {entry : Entry} (taken : s.step cfg (.queue entry) = some s') : Even s s' := by
  obtain ⟨inside, done⟩ := Option.ite_none_right_eq_some.mp taken
  cases done
  refine ⟨rfl, fun key => ?_⟩
  have same : (s.queueEntry entry).held key = s.held key := rfl
  have moved := ((List.perm_cons_erase inside).map slot).count_eq key
  rw [List.map_cons, List.count_cons] at moved
  have waits : (s.queueEntry entry).awaited = s.awaited := rfl
  rw [same, entries_eq, entries_eq, waits]
  simp only [queueEntry, List.map_append, List.map_singleton, List.count_append,
    List.count_singleton]
  omega

theorem pop_cases (taken : s.popEntry = some s') :
    ∃ entry rest, s.committer = .idle ∧ s.commitQ = entry :: rest ∧
      s' = { s with committer := .waiting entry, commitQ := rest } := by
  unfold popEntry at taken
  split at taken
  · next entry rest idle queued => exact ⟨entry, rest, idle, queued, (Option.some.inj taken).symm⟩
  · exact absurd taken.symm (Option.some_ne_none s')

theorem take_cases (taken : s.takeData = some s') :
    ∃ entry txn, s.committer = .waiting entry ∧ s.data.find (slot entry) = some txn ∧
      s' = { s with committer := .committing entry.1 txn, data := s.data.erase (slot entry) } := by
  unfold takeData at taken
  split at taken
  · next entry waiting =>
      obtain ⟨txn, found, done⟩ := Option.map_eq_some_iff.mp taken
      exact ⟨entry, txn, waiting, found, done.symm⟩
  · exact absurd taken.symm (Option.some_ne_none s')

theorem finish_cases (taken : s.finishCommit = some s') :
    ∃ seq txn, s.committer = .committing seq txn ∧
      s' = { s with
        committer := .idle
        commits := s.commits ++ [txn]
        committed := slot (seq, txn.hash) :: s.committed } := by
  unfold finishCommit at taken
  split at taken
  · next seq txn committing => exact ⟨seq, txn, committing, (Option.some.inj taken).symm⟩
  · exact absurd taken.symm (Option.some_ne_none s')

theorem even_pop (taken : s.popEntry = some s') : Even s s' := by
  obtain ⟨entry, rest, idle, queued, rfl⟩ := pop_cases taken
  refine ⟨rfl, fun key => ?_⟩
  have none' : s.awaited = [] := by simp [awaited, idle]
  have same : ({ s with committer := .waiting entry, commitQ := rest } : ZZY).held key =
      s.held key := rfl
  rw [entries_eq, entries_eq, none', queued, same]
  simp only [awaited, List.map_cons, List.map_nil, List.count_cons, List.count_nil]
  omega

theorem even_take (taken : s.takeData = some s') : Even s s' := by
  obtain ⟨entry, txn, waiting, found, rfl⟩ := take_cases taken
  refine ⟨rfl, fun key => ?_⟩
  have one : s.awaited = [entry] := by simp [awaited, waiting]
  rw [entries_eq, entries_eq, one]
  simp only [awaited, held, List.map_cons, List.map_nil, List.count_cons, List.count_nil,
    AssocMap.find_erase]
  by_cases here : key = slot entry
  · simp only [here, found, if_true, Option.isSome_none, Option.isSome_some, beq_self_eq_true,
      Bool.false_eq_true, if_false]
    omega
  · have differ : (slot entry == key) = false := by simpa using fun eq => here eq.symm
    simp only [here, differ, if_false, Bool.false_eq_true]

theorem even_finish (taken : s.finishCommit = some s') : Even s s' := by
  obtain ⟨seq, txn, committing, rfl⟩ := finish_cases taken
  refine ⟨rfl, fun key => ?_⟩
  have none' : s.awaited = [] := by simp [awaited, committing]
  rw [entries_eq, entries_eq, none']
  simp [awaited, held]

theorem even_internal {a : Action} (internal : Internal a) (taken : s.step cfg a = some s') :
    Even s s' := by
  cases a with
  | propose txn => exact internal.elim
  | commit proposal => exact internal.elim
  | queue entry => exact even_queue taken
  | pop => exact even_pop taken
  | take => exact even_take taken
  | finish => exact even_finish taken

theorem Even.balanced_iff (even : Even s s') : Balanced s' ↔ Balanced s := by
  refine and_congr (by rw [even.1]) (forall_congr' (fun key => ?_))
  have kept := even.2 key
  omega

theorem held_eq_zero_iff {key : Int × Bytes} : s.held key = 0 ↔ s.data.find key = none := by
  unfold held
  cases s.data.find key <;> simp

def Keeps (cfg : Config) (txn : Transaction) : Prop :=
  cfg.crashed = false ∧ InBounds (txn.seq, txn.hash)

theorem entries_receivePropose {txn : Transaction} (keeps : Keeps cfg txn) (key : Int × Bytes) :
    (s.receivePropose cfg txn).entries key =
      s.entries key + if slot (txn.seq, txn.hash) = key then 1 else 0 := by
  obtain ⟨running, inside⟩ := keeps
  have same : (s.receivePropose cfg txn).awaited = s.awaited := by
    simp [receivePropose, running, inside, awaited]
  rw [entries_eq, entries_eq, same]
  simp [receivePropose, running, inside, List.count_singleton, Nat.add_assoc]

theorem held_receivePropose {txn : Transaction} (keeps : Keeps cfg txn) (key : Int × Bytes) :
    (s.receivePropose cfg txn).held key =
      if key = slot (txn.seq, txn.hash) then 1 else s.held key := by
  obtain ⟨running, inside⟩ := keeps
  simp only [held, receivePropose, running, inside, Bool.false_eq_true, if_true, if_false,
    AssocMap.find_set]
  split_ifs <;> simp_all

/-- A call that keeps nothing leaves the queue and `data_` as they are. -/
theorem receivePropose_of_not {txn : Transaction} (leaves : ¬ Keeps cfg txn) (key : Int × Bytes) :
    (s.receivePropose cfg txn).entries key = s.entries key ∧
      (s.receivePropose cfg txn).held key = s.held key := by
  unfold receivePropose
  split_ifs with crashed inside
  · exact ⟨rfl, rfl⟩
  · exact absurd ⟨Bool.eq_false_iff.mpr crashed, inside⟩ leaves
  · exact ⟨rfl, rfl⟩

theorem balanced_receivePropose_iff (balanced : Balanced s) (txn : Transaction) :
    Balanced (s.receivePropose cfg txn) ↔ Fresh cfg s (.propose txn) := by
  by_cases keeps : Keeps cfg txn
  · have kept : (s.receivePropose cfg txn).strayed = s.strayed := by
      simp [receivePropose, keeps.1, keeps.2]
    have before := balanced.2 (slot (txn.seq, txn.hash))
    simp only [Balanced, Fresh, keeps.1, keeps.2, Bool.false_eq_true, false_or, true_and,
      ← held_eq_zero_iff, kept, balanced.1]
    constructor
    · intro after
      have here := after (slot (txn.seq, txn.hash))
      rw [entries_receivePropose keeps, held_receivePropose keeps, if_pos rfl, if_pos rfl] at here
      omega
    · intro absent other
      rw [entries_receivePropose keeps, held_receivePropose keeps]
      by_cases here : other = slot (txn.seq, txn.hash)
      · rw [if_pos here.symm, if_pos here, here]
        omega
      · rw [if_neg (fun eq => here eq.symm), if_neg here, balanced.2 other]
        rfl
  · cases running : cfg.crashed with
    | true => simp [receivePropose, Fresh, running, balanced]
    | false =>
        have outside : ¬ InBounds (txn.seq, txn.hash) := fun inside => keeps ⟨running, inside⟩
        simp [receivePropose, Fresh, Balanced, running, outside]

def Queues (cfg : Config) (s : ZZY) (proposal : Proposal) : Prop :=
  cfg.crashed = false ∧ InBounds (proposal.seq, proposal.hash) ∧
    slot (proposal.seq, proposal.hash) ∉ s.committed ∧
    (s.data.find (slot (proposal.seq, proposal.hash))).isSome

theorem held_receiveCommit (proposal : Proposal) (key : Int × Bytes) :
    (s.receiveCommit cfg proposal).held key = s.held key := by
  unfold receiveCommit
  dsimp only
  split_ifs <;> rfl

theorem entries_receiveCommit_of_queues {proposal : Proposal} (queues : Queues cfg s proposal)
    (key : Int × Bytes) :
    (s.receiveCommit cfg proposal).entries key =
      s.entries key + if slot (proposal.seq, proposal.hash) = key then 1 else 0 := by
  obtain ⟨running, inside, uncommitted, present⟩ := queues
  have same : (s.receiveCommit cfg proposal).awaited = s.awaited := by
    simp [receiveCommit, running, inside, uncommitted, present, awaited]
  rw [entries_eq, entries_eq, same]
  simp only [receiveCommit, running, inside, uncommitted, present, Bool.false_eq_true, if_false,
    not_true_eq_false, not_false_eq_true, and_self, if_true, List.map_append, List.map_singleton,
    List.count_append, List.count_singleton, beq_iff_eq]
  omega

theorem entries_receiveCommit_of_not {proposal : Proposal} (leaves : ¬ Queues cfg s proposal)
    (key : Int × Bytes) : (s.receiveCommit cfg proposal).entries key = s.entries key := by
  unfold receiveCommit
  dsimp only
  split_ifs with crashed inside queues
  · rfl
  · exact absurd ⟨Bool.eq_false_iff.mpr crashed, inside, queues⟩ leaves
  · rfl
  · rfl

theorem strayed_receiveCommit_iff (straight : s.strayed = false) (proposal : Proposal) :
    (s.receiveCommit cfg proposal).strayed = false ↔
      cfg.crashed = true ∨ InBounds (proposal.seq, proposal.hash) := by
  unfold receiveCommit
  dsimp only
  split_ifs with crashed outside queues <;> simp_all

theorem fresh_commit_iff (proposal : Proposal) :
    Fresh cfg s (.commit proposal) ↔
      (cfg.crashed = true ∨ InBounds (proposal.seq, proposal.hash)) ∧
        ¬ Queues cfg s proposal := by
  simp only [Fresh, Queues, not_and_or, Bool.not_eq_false, not_not, Option.not_isSome_iff_eq_none]
  tauto

theorem balanced_receiveCommit_iff (balanced : Balanced s) (proposal : Proposal) :
    Balanced (s.receiveCommit cfg proposal) ↔ Fresh cfg s (.commit proposal) := by
  rw [fresh_commit_iff]
  refine and_congr (strayed_receiveCommit_iff balanced.1 proposal) ⟨?_, ?_⟩
  · intro after queues
    have here := after (slot (proposal.seq, proposal.hash))
    have before := balanced.2 (slot (proposal.seq, proposal.hash))
    rw [held_receiveCommit, entries_receiveCommit_of_queues queues, if_pos rfl] at here
    omega
  · intro leaves key
    rw [held_receiveCommit, entries_receiveCommit_of_not leaves]
    exact balanced.2 key

theorem balanced_step_iff (balanced : Balanced s) {a : Action} (taken : s.step cfg a = some s') :
    Balanced s' ↔ Fresh cfg s a := by
  cases a with
  | propose txn =>
      cases taken
      exact balanced_receivePropose_iff balanced txn
  | commit proposal =>
      obtain ⟨-, done⟩ := Option.ite_none_right_eq_some.mp taken
      cases done
      exact balanced_receiveCommit_iff balanced proposal
  | queue entry => exact ⟨fun _ => trivial, fun _ => (even_queue taken).balanced_iff.mpr balanced⟩
  | pop => exact ⟨fun _ => trivial, fun _ => (even_pop taken).balanced_iff.mpr balanced⟩
  | take => exact ⟨fun _ => trivial, fun _ => (even_take taken).balanced_iff.mpr balanced⟩
  | finish => exact ⟨fun _ => trivial, fun _ => (even_finish taken).balanced_iff.mpr balanced⟩

def Backed (s : ZZY) : Prop := ∀ key, s.held key ≤ s.entries key

theorem Backed.step (backed : Backed s) {a : Action} (taken : s.step cfg a = some s') :
    Backed s' := by
  have even : Even s s' → Backed s' := by
    intro even key
    have kept := even.2 key
    have before := backed key
    omega
  cases a with
  | propose txn =>
      cases taken
      intro key
      have before := backed key
      by_cases keeps : Keeps cfg txn
      · rw [entries_receivePropose keeps, held_receivePropose keeps]
        by_cases here : key = slot (txn.seq, txn.hash)
        · rw [if_pos here, if_pos here.symm]
          omega
        · rw [if_neg here]
          omega
      · obtain ⟨queued, kept⟩ := receivePropose_of_not (s := s) keeps key
        rw [queued, kept]
        exact before
  | commit proposal =>
      obtain ⟨-, done⟩ := Option.ite_none_right_eq_some.mp taken
      cases done
      intro key
      have before := backed key
      rw [held_receiveCommit]
      by_cases queues : Queues cfg s proposal
      · rw [entries_receiveCommit_of_queues queues]
        omega
      · rw [entries_receiveCommit_of_not queues]
        exact before
  | queue entry => exact even (even_queue taken)
  | pop => exact even (even_pop taken)
  | take => exact even (even_take taken)
  | finish => exact even (even_finish taken)

end Steps

/-! ### Draining the queue -/

section Draining

theorem Balanced.served (balanced : Balanced s) : Served s := by
  refine ⟨balanced.1, fun entry inside => ?_⟩
  have one : 0 < s.entries (slot entry) := by
    rw [entries_eq]
    have counted := List.count_pos_iff.mpr (List.mem_map_of_mem (f := slot) inside)
    omega
  rw [balanced.2] at one
  unfold held at one
  by_contra absent
  simp [absent] at one

theorem Balanced.servable (cfg : Config) (balanced : Balanced s) : Servable cfg s := by
  intro actions internal s' ran
  induction actions generalizing s with
  | nil =>
      cases ran
      exact balanced.served
  | cons a rest ih =>
      obtain ⟨mid, first, later⟩ := Run.exec_cons_some ran
      obtain ⟨own, others⟩ := List.forall_mem_cons.mp internal
      exact ih ((even_internal own first).balanced_iff.mpr balanced) others later

theorem Servable.step (servable : Servable cfg s) {a : Action} (internal : Internal a)
    (taken : s.step cfg a = some s') : Servable cfg s' := by
  intro actions others last ran
  refine servable (a :: actions) (List.forall_mem_cons.mpr ⟨internal, others⟩) last ?_
  rw [Run.exec_cons_of_step actions taken, ran]

def work (s : ZZY) : ℕ :=
  4 * s.storing.length + 3 * s.commitQ.length +
    match s.committer with
    | .idle => 0
    | .committing _ _ => 1
    | .waiting _ => 2

theorem Served.progress (cfg : Config) (served : Served s) :
    (∀ key, s.entries key = 0) ∨
      ∃ a s', Internal a ∧ s.step cfg a = some s' ∧ s'.work < s.work := by
  cases busy : s.committer with
  | waiting entry =>
      have there : (s.data.find (slot entry)).isSome := served.2 entry (by simp [awaited, busy])
      obtain ⟨txn, found⟩ := Option.isSome_iff_exists.mp there
      have taken : s.takeData = some { s with
          committer := .committing entry.1 txn
          data := s.data.erase (slot entry) } := by
        simp [takeData, busy, found]
      exact .inr ⟨.take, _, trivial, taken, by simp [work, busy]⟩
  | committing seq txn =>
      have taken : s.finishCommit = some { s with
          committer := .idle
          commits := s.commits ++ [txn]
          committed := slot (seq, txn.hash) :: s.committed } := by
        simp [finishCommit, busy]
      exact .inr ⟨.finish, _, trivial, taken, by simp [work, busy]⟩
  | idle =>
      cases queued : s.commitQ with
      | cons entry rest =>
          have taken : s.popEntry = some { s with
              committer := .waiting entry
              commitQ := rest } := by
            simp [popEntry, busy, queued]
          refine .inr ⟨.pop, _, trivial, taken, ?_⟩
          simp only [work, busy, queued, List.length_cons]
          omega
      | nil =>
          cases stored : s.storing with
          | cons entry rest =>
              have inside : entry ∈ s.storing := by simp [stored]
              refine .inr ⟨.queue entry, s.queueEntry entry, trivial, if_pos inside, ?_⟩
              simp only [work, queueEntry, queued, stored, List.length_append, List.erase_cons_head,
                List.length_cons, List.length_nil]
              omega
          | nil =>
              left
              intro key
              simp [entries, awaited, busy, queued, stored]

theorem Servable.balanced (servable : Servable cfg s) (backed : Backed s) : Balanced s := by
  -- the last entry of a drained queue has had its transaction, and so had all before it
  induction size : s.work using Nat.strong_induction_on generalizing s with
  | h n ih =>
      have served : Served s := servable [] (fun a inside => absurd inside List.not_mem_nil) s rfl
      rcases served.progress cfg with drained | ⟨a, s', internal, taken, less⟩
      · refine ⟨served.1, fun key => ?_⟩
        have bound := backed key
        have none' := drained key
        omega
      · have later :=
          ih s'.work (size ▸ less) (servable.step internal taken) (backed.step taken) rfl
        exact (even_internal internal taken).balanced_iff.mp later

end Draining

/-! ### Whole runs -/

theorem balanced_initial : Balanced {} := ⟨rfl, fun _ => rfl⟩

theorem backed_initial : Backed {} := fun _ => Nat.le_refl _

/-- In all states of a run the loop of `AsyncCommit` exits, whatever calls under way and
`AsyncCommit` do next, exactly if no call of a handler in it is for a transaction that waits in
`data_`, or has an index outside of the arrays. -/
theorem queue_servable_iff_fresh (cfg : Config) (actions : List Action) (s : ZZY)
    (ran : Run.exec (step cfg) {} actions = some s) :
    (∀ made, made <+: actions → ∀ mid, Run.exec (step cfg) {} made = some mid →
      Servable cfg mid) ↔ Run.Along (step cfg) (Fresh cfg) {} actions := by
  have balanced : (∀ made, made <+: actions → ∀ mid, Run.exec (step cfg) {} made = some mid →
      Balanced mid) ↔ Run.Along (step cfg) (Fresh cfg) {} actions :=
    Run.holds_iff_along (fun _ _ _ (backed : Backed _) _ _ taken => backed.step taken)
      (fun _ _ _ _ balanced taken => balanced_step_iff balanced taken)
      backed_initial balanced_initial ran
  rw [← balanced]
  refine forall₄_congr (fun made inside mid reached => ⟨fun servable => ?_, fun balanced => ?_⟩)
  · have backed : Backed mid := Run.exec_invariant_always
      (fun _ _ _ backed taken => Backed.step backed taken) backed_initial reached
    exact servable.balanced backed
  · exact balanced.servable cfg

def sampleConfig : Config where
  id := 1
  crashNum := 0
  crypto := Crypto.sample

def sampleTxn : Transaction := { hash := [7], seq := 0 }

/-- A proposal is committed, its certificate comes after that, and so does the proposal again. -/
def lateCertificate : List Action :=
  [.propose sampleTxn, .queue (0, [7]), .pop, .take, .finish, .commit { hash := [7], seq := 0 },
    .propose sampleTxn, .queue (0, [7]), .pop, .take, .finish]

theorem late_certificate_servable :
    ∃ s, Run.exec (step sampleConfig) {} lateCertificate = some s ∧
      Run.Along (step sampleConfig) (Fresh sampleConfig) {} lateCertificate ∧
      ∀ made, made <+: lateCertificate → ∀ mid,
        Run.exec (step sampleConfig) {} made = some mid → Servable sampleConfig mid := by
  have along : Run.Along (step sampleConfig) (Fresh sampleConfig) {} lateCertificate := by decide
  exact ⟨_, rfl, along, (queue_servable_iff_fresh sampleConfig lateCertificate _ rfl).mpr along⟩

/-- A certificate for a transaction that is not committed yet queues a second entry, and
`AsyncCommit` waits for a transaction that it has committed. -/
theorem second_entry_never_served :
    ∃ s, Run.exec (step sampleConfig) {}
        [.propose sampleTxn, .queue (0, [7]), .commit { hash := [7], seq := 0 }, .pop, .take,
          .finish, .pop] = some s ∧
      s.committer = .waiting (0, [7]) ∧ s.commits = [sampleTxn] ∧ ¬ Served s := by
  refine ⟨_, rfl, rfl, rfl, ?_⟩
  intro served
  exact absurd (served.2 (0, [7]) (by decide)) (by decide)

end ZZY
end ResDB.Zzy
