import Mathlib.Tactic

/-! A connection to a store on which scripts are carried out, each between a `BEGIN` and the
`COMMIT` or `ROLLBACK` it ends with. A script may also return without either; its transaction
then stays open and the next `BEGIN` is refused. -/

/-- What the statements of a connection see, and what a `ROLLBACK` goes back to: `none` while no
transaction is open. -/
structure Session (σ : Type*) where
  data : σ
  saved : Option σ := none

namespace Session
variable {σ : Type*}

/-- What is left of the store when the transaction that is open is rolled back. -/
def durable (s : Session σ) : σ := s.saved.getD s.data

/-- `ROLLBACK`. Without a transaction it is refused and nothing changes. -/
def rollback (s : Session σ) : Session σ := ⟨s.durable, none⟩

def closed (d : σ) : Session σ := ⟨d, none⟩

end Session

inductive Ending where
  | commit
  | rollback
  | leave
  deriving DecidableEq

structure Outcome (σ α : Type*) where
  data : σ
  ending : Ending
  answer : α

/-- A script: whether the process survives what comes before its `BEGIN`; what it does after
that, or `none` where the process does not survive it; and what it answers where the `BEGIN` is
refused, with or without a `ROLLBACK`. -/
structure Script (σ α : Type*) where
  starts : Bool := true
  body : σ → Option (Outcome σ α)
  refused : α
  heals : Bool

namespace Script
variable {σ α ρ : Type*}

/-- The connection as a script leaves it that was begun on the store `d`. -/
def leaveWith (d : σ) (o : Outcome σ α) : Session σ :=
  match o.ending with
  | .commit => ⟨o.data, none⟩
  | .rollback => ⟨d, none⟩
  | .leave => ⟨o.data, some d⟩

def call (c : Script σ α) (s : Session σ) : Option (Session σ × α) :=
  if c.starts then
    match s.saved with
    | some _ => some (if c.heals then s.rollback else s, c.refused)
    | none => (c.body s.data).map (fun o => (leaveWith s.data o, o.answer))
  else none

def serve (script : ρ → Script σ α) : Session σ → List ρ → Option (Session σ × List α)
  | s, [] => some (s, [])
  | s, r :: rest =>
      ((script r).call s).bind (fun called =>
        (serve script called.1 rest).map (fun later => (later.1, called.2 :: later.2)))

section Rules
variable {script : ρ → Script σ α} {c : Script σ α} {s s' : Session σ} {answer : α}

theorem saved_leaveWith (d : σ) (o : Outcome σ α) :
    (leaveWith d o).saved = if o.ending = .leave then some d else none := by
  unfold leaveWith
  cases o.ending <;> rfl

theorem call_of_open {old : σ} (starts : c.starts = true) (busy : s.saved = some old) :
    c.call s = some (if c.heals then s.rollback else s, c.refused) := by
  rw [call, if_pos starts, busy]

theorem call_closed (starts : c.starts = true) (d : σ) :
    c.call (.closed d) = (c.body d).map (fun o => (leaveWith d o, o.answer)) := if_pos starts

theorem call_closed_eq_some {d : σ} (called : c.call (.closed d) = some (s', answer)) :
    c.starts = true ∧ ∃ o, c.body d = some o ∧ leaveWith d o = s' ∧ o.answer = answer := by
  obtain ⟨starts, ran⟩ := Option.ite_none_right_eq_some.mp called
  obtain ⟨o, body, same⟩ := Option.map_eq_some_iff.mp ran
  cases same
  exact ⟨starts, o, body, rfl, rfl⟩

theorem serve_cons_eq_some {r : ρ} {rest : List ρ} {answers : List α}
    (ran : serve script s (r :: rest) = some (s', answers)) :
    ∃ mid answer later, (script r).call s = some (mid, answer) ∧
      serve script mid rest = some (s', later) ∧ answers = answer :: later := by
  obtain ⟨⟨mid, answer⟩, called, tail⟩ := Option.bind_eq_some_iff.mp ran
  obtain ⟨⟨last, later⟩, served, same⟩ := Option.map_eq_some_iff.mp tail
  cases same
  exact ⟨mid, answer, later, called, served, rfl⟩

theorem serve_cons {r : ρ} {mid : Session σ} {rest : List ρ} {answers : List α}
    (called : (script r).call s = some (mid, answer))
    (served : serve script mid rest = some (s', answers)) :
    serve script s (r :: rest) = some (s', answer :: answers) := by
  rw [serve, called, Option.bind_some, served, Option.map_some]

/-- What a script keeps of the store when it commits, a call keeps of the durable store. -/
theorem call_invariant (Inv : σ → Prop)
    (keep : ∀ d o, c.starts = true → Inv d → c.body d = some o → o.ending = .commit → Inv o.data)
    (start : Inv s.durable) (called : c.call s = some (s', answer)) : Inv s'.durable := by
  obtain ⟨d, saved⟩ := s
  cases saved with
  | some old =>
      obtain ⟨-, ran⟩ := Option.ite_none_right_eq_some.mp called
      cases ran
      by_cases heals : c.heals = true
      · rw [if_pos heals]
        exact start
      · rw [if_neg heals]
        exact start
  | none =>
      obtain ⟨starts, o, body, rfl, -⟩ := call_closed_eq_some called
      cases ended : o.ending with
      | commit =>
          rw [leaveWith, ended]
          exact keep d o starts start body ended
      | rollback | leave =>
          rw [leaveWith, ended]
          exact start

theorem serve_invariant (Inv : σ → Prop)
    (keep : ∀ r d o, (script r).starts = true → Inv d → (script r).body d = some o →
      o.ending = .commit → Inv o.data)
    {rs : List ρ} {answers : List α} (start : Inv s.durable)
    (ran : serve script s rs = some (s', answers)) : Inv s'.durable := by
  induction rs generalizing s answers with
  | nil =>
      cases ran
      exact start
  | cons r rest ih =>
      obtain ⟨mid, answer, later, called, served, rfl⟩ := serve_cons_eq_some ran
      exact ih (call_invariant Inv (keep r) start called) served

/-- On a connection left open everything is refused, up to the first request whose handler rolls
back; that one is refused too and closes the connection. -/
theorem serve_blocked {rs : List ρ} {q : ρ} {old : σ} (busy : s.saved = some old)
    (starts : ∀ r ∈ rs ++ [q], (script r).starts = true)
    (stay : ∀ r ∈ rs, (script r).heals = false) (heals : (script q).heals = true) :
    serve script s (rs ++ [q]) = some (.closed old,
      (rs ++ [q]).map (fun r => (script r).refused)) := by
  induction rs with
  | nil =>
      have called : (script q).call s = some (.closed old, (script q).refused) := by
        rw [call_of_open (starts q List.mem_cons_self) busy, heals, if_pos rfl,
          Session.rollback, Session.durable, busy]
        rfl
      exact serve_cons called rfl
  | cons r rest ih =>
      have called : (script r).call s = some (s, (script r).refused) := by
        rw [call_of_open (starts r List.mem_cons_self) busy, stay r List.mem_cons_self]
        rfl
      exact serve_cons called (ih (fun r' member => starts r' (List.mem_cons_of_mem r member))
        (fun r' member => stay r' (List.mem_cons_of_mem r member)))

end Rules
end Script
