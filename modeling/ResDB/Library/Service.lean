import Mathlib.Tactic

/-! Services that answer one call after another, and the rule by which one service is shown to
answer as another one does: a relation between their states that every call keeps. The relation
may depend on the number of calls that are still to come. -/
namespace Service
variable {σ τ C D A B : Type*}

def answers (step : σ → C → A × σ) : σ → List C → List A
  | _, [] => []
  | s, call :: rest => (step s call).1 :: answers step (step s call).2 rest

/-- The answers agree, seen through `view`, if related states give related answers and states.
The calls of the first service may carry more than those of the second. -/
theorem answers_map_of_simulation {step : σ → C → A × σ} {step' : τ → D → B × τ}
    (view : A → B) (forget : C → D) (Rel : ℕ → σ → τ → Prop)
    (simulates : ∀ n s t call, Rel (n + 1) s t →
      view (step s call).1 = (step' t (forget call)).1 ∧
        Rel n (step s call).2 (step' t (forget call)).2) {s : σ} {t : τ} {calls : List C}
    (start : Rel calls.length s t) :
    (answers step s calls).map view = answers step' t (calls.map forget) := by
  induction calls generalizing s t with
  | nil => rfl
  | cons call rest ih =>
      obtain ⟨same, related⟩ := simulates rest.length s t call start
      rw [answers, List.map_cons, List.map_cons, answers, same, ih related]

def after (step : σ → C → A × σ) (s : σ) (calls : List C) : σ :=
  calls.foldl (fun s call => (step s call).2) s

theorem related_after {step : σ → C → A × σ} {step' : τ → D → B × τ} (forget : C → D)
    (Rel : ℕ → σ → τ → Prop)
    (simulates : ∀ n s t call, Rel (n + 1) s t →
      Rel n (step s call).2 (step' t (forget call)).2) {s : σ} {t : τ} {calls : List C}
    (start : Rel calls.length s t) :
    Rel 0 (after step s calls) (after step' t (calls.map forget)) := by
  induction calls generalizing s t with
  | nil => exact start
  | cons call rest ih => exact ih (simulates rest.length s t call start)

/-- Every call meets the condition in the state it is made in. -/
def Along (step : σ → C → A × σ) (cond : σ → C → Prop) : σ → List C → Prop
  | _, [] => True
  | s, call :: rest => cond s call ∧ Along step cond (step s call).2 rest

theorem along_of_invariant {step : σ → C → A × σ} {cond : σ → C → Prop} (Inv : σ → Prop)
    (keep : ∀ s call, Inv s → Inv (step s call).2) (meets : ∀ s call, Inv s → cond s call)
    {s : σ} (start : Inv s) (calls : List C) : Along step cond s calls := by
  induction calls generalizing s with
  | nil => trivial
  | cons call rest ih => exact ⟨meets s call start, ih (keep s call start)⟩

/-- Two services with the same calls answer alike on the calls that meet the condition, if a
relation between their states carries over from each such call to the next. -/
theorem answers_eq_of_along {step : σ → C → A × σ} {step' : τ → C → A × τ}
    {cond : σ → C → Prop} (Rel : σ → τ → Prop)
    (simulates : ∀ s t call, Rel s t → cond s call → (step s call).1 = (step' t call).1 ∧
      Rel (step s call).2 (step' t call).2) {s : σ} {t : τ} (start : Rel s t) {calls : List C}
    (along : Along step cond s calls) : answers step s calls = answers step' t calls := by
  induction calls generalizing s t with
  | nil => rfl
  | cons call rest ih =>
      obtain ⟨same, related⟩ := simulates s t call start along.1
      rw [answers, answers, same, ih related along.2]

end Service
