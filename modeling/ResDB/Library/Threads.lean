import ResDB.Library.Run

/-! Threads over a shared state. A thread carries out calls, one after the other, in atomic
steps; a run is any interleaving of the steps of any number of threads. A proof outline, in
the manner of Owicki and Gries, says what holds of the shared state and what each thread may
rely on; where no step spoils what another thread relies on, it holds in every run. -/
namespace Threads
variable {G L C : Type*}

/-- What a thread does for a call: where it enters, and its next step, which is `none` where
it has to wait or is through. -/
structure Program (G L C : Type*) where
  enter : C → L
  through : L → Bool
  step : ℕ → G → L → Option (G × L)

/-- The shared state, what each thread is at, and the calls made so far. -/
structure State (G L C : Type*) where
  shared : G
  locals : ℕ → Option L := fun _ => none
  made : List C := []

inductive Action (C : Type*) where
  | enter (thread : ℕ) (call : C)
  | step (thread : ℕ)

namespace Program
variable (P : Program G L C)

/-- A thread enters a call if it has none or is through with the last one. -/
def next (s : State G L C) : Action C → Option (State G L C)
  | .enter t call =>
      if (s.locals t).all P.through then
        some { s with
          locals := Function.update s.locals t (some (P.enter call))
          made := s.made ++ [call] }
      else none
  | .step t =>
      (s.locals t).bind (fun l => (P.step t s.shared l).map (fun result =>
        { s with shared := result.1, locals := Function.update s.locals t (some result.2) }))

variable {P} {s s' : State G L C}

theorem enter_cases {t : ℕ} {call : C} (taken : P.next s (.enter t call) = some s') :
    s'.shared = s.shared ∧ s'.made = s.made ++ [call] ∧
      s'.locals = Function.update s.locals t (some (P.enter call)) := by
  simp only [next] at taken
  split_ifs at taken
  cases taken
  exact ⟨rfl, rfl, rfl⟩

theorem step_cases {t : ℕ} (taken : P.next s (.step t) = some s') :
    s'.made = s.made ∧ ∃ l l', s.locals t = some l ∧
      P.step t s.shared l = some (s'.shared, l') ∧
      s'.locals = Function.update s.locals t (some l') := by
  obtain ⟨l, found, result⟩ := Option.bind_eq_some_iff.mp taken
  obtain ⟨⟨g', l'⟩, stepped, rfl⟩ := Option.map_eq_some_iff.mp result
  exact ⟨rfl, l, l', found, stepped, rfl⟩

variable (P)

/-- What a thread comes to in so many steps, if no other one takes a step meanwhile. -/
def alone (t : ℕ) : ℕ → G × L → G × L
  | 0, p => p
  | fuel + 1, p =>
      match P.step t p.1 p.2 with
      | none => p
      | some next => alone t fuel next

theorem exec_alone {t : ℕ} {l : L} (found : s.locals t = some l) (fuel : ℕ) :
    ∃ n, Run.exec P.next s (List.replicate n (.step t)) = some { s with
      shared := (P.alone t fuel (s.shared, l)).1
      locals := Function.update s.locals t (some (P.alone t fuel (s.shared, l)).2) } := by
  induction fuel generalizing s l with
  | zero =>
      refine ⟨0, congrArg some ?_⟩
      simp only [alone, ← found, Function.update_eq_self]
  | succ fuel ih =>
      cases stepped : P.step t s.shared l with
      | none =>
          refine ⟨0, congrArg some ?_⟩
          simp only [alone, stepped, ← found, Function.update_eq_self]
      | some result =>
          have first : P.next s (.step t) = some { s with
              shared := result.1, locals := Function.update s.locals t (some result.2) } := by
            simp only [next, found, Option.bind_some, stepped, Option.map_some]
          obtain ⟨n, ran⟩ := ih (s := { s with
            shared := result.1, locals := Function.update s.locals t (some result.2) })
            (Function.update_self ..)
          refine ⟨n + 1, ?_⟩
          rw [List.replicate_succ, Run.exec_cons_of_step _ first, ran]
          simp only [alone, stepped, Function.update_idem]

/-- What the shared state satisfies, what a thread may rely on where it is, and where two
threads cannot be at once, all relative to the calls made. -/
structure Outline (initial : G) where
  Good : List C → G → Prop
  Holds : List C → G → L → Prop
  Apart : L → L → Prop
  good_initial : Good [] initial
  good_enter : ∀ {made g} call, Good made g → Good (made ++ [call]) g
  holds_enter : ∀ {made g} call, Good made g → Holds (made ++ [call]) g (P.enter call)
  holds_made : ∀ {made g l} call, Holds made g l → Holds (made ++ [call]) g l
  apart_enter : ∀ call l, Apart (P.enter call) l
  apart_symm : ∀ {l k}, Apart l k → Apart k l
  good_step : ∀ {made g l t g' l'}, Good made g → Holds made g l →
    P.step t g l = some (g', l') → Good made g' ∧ Holds made g' l'
  free : ∀ {made g l k t g' l'}, Good made g → Holds made g l → Holds made g k → Apart l k →
    P.step t g l = some (g', l') → Holds made g' k ∧ Apart l' k

variable {P} {initial : G} {O : P.Outline initial}

structure Outline.Valid (O : P.Outline initial) (s : State G L C) : Prop where
  good : O.Good s.made s.shared
  holds : ∀ t l, s.locals t = some l → O.Holds s.made s.shared l
  apart : ∀ t u l k, t ≠ u → s.locals t = some l → s.locals u = some k → O.Apart l k

theorem at_update {locals : ℕ → Option L} {t u : ℕ} {l k : L}
    (found : Function.update locals t (some l) u = some k) :
    u = t ∧ k = l ∨ u ≠ t ∧ locals u = some k := by
  by_cases same : u = t
  · subst same
    rw [Function.update_self] at found
    exact .inl ⟨rfl, (Option.some.inj found).symm⟩
  · rw [Function.update_of_ne same] at found
    exact .inr ⟨same, found⟩

theorem Outline.Valid.enter {t : ℕ} {call : C} (valid : O.Valid s)
    (taken : P.next s (.enter t call) = some s') : O.Valid s' := by
  obtain ⟨shared, made, locals⟩ := enter_cases taken
  refine ⟨?_, ?_, ?_⟩
  · rw [shared, made]
    exact O.good_enter call valid.good
  · rw [shared, made, locals]
    intro u l found
    rcases at_update found with ⟨rfl, rfl⟩ | ⟨-, there⟩
    · exact O.holds_enter call valid.good
    · exact O.holds_made call (valid.holds u l there)
  · rw [locals]
    intro u v l k distinct first second
    rcases at_update first with ⟨rfl, rfl⟩ | ⟨-, there⟩
    · exact O.apart_enter call k
    · rcases at_update second with ⟨rfl, rfl⟩ | ⟨-, beside⟩
      · exact O.apart_symm (O.apart_enter call l)
      · exact valid.apart u v l k distinct there beside

theorem Outline.Valid.step {t : ℕ} (valid : O.Valid s)
    (taken : P.next s (.step t) = some s') : O.Valid s' := by
  obtain ⟨made, l, l', found, stepped, locals⟩ := step_cases taken
  have own := valid.holds t l found
  obtain ⟨good, holds⟩ := O.good_step valid.good own stepped
  have others : ∀ u k, u ≠ t → s.locals u = some k →
      O.Holds s.made s'.shared k ∧ O.Apart l' k := by
    intro u k distinct there
    exact O.free valid.good own (valid.holds u k there)
      (valid.apart t u l k distinct.symm found there) stepped
  refine ⟨?_, ?_, ?_⟩
  · rw [made]
    exact good
  · rw [made, locals]
    intro u k there
    rcases at_update there with ⟨rfl, rfl⟩ | ⟨distinct, before⟩
    · exact holds
    · exact (others u k distinct before).1
  · rw [locals]
    intro u v k m distinct first second
    rcases at_update first with ⟨rfl, rfl⟩ | ⟨apart, there⟩
    · rcases at_update second with ⟨rfl, rfl⟩ | ⟨-, beside⟩
      · exact absurd rfl distinct
      · exact (others v m distinct.symm beside).2
    · rcases at_update second with ⟨rfl, rfl⟩ | ⟨-, beside⟩
      · exact O.apart_symm (others u k apart there).2
      · exact valid.apart u v k m distinct there beside

theorem Outline.valid_initial (O : P.Outline initial) : O.Valid { shared := initial } := by
  refine ⟨O.good_initial, ?_, ?_⟩
  · intro t l found
    cases found
  · intro t u l k _ found
    cases found

theorem Outline.Valid.next {action : Action C} (valid : O.Valid s)
    (taken : P.next s action = some s') : O.Valid s' := by
  cases action with
  | enter t call => exact valid.enter taken
  | step t => exact valid.step taken

theorem Outline.valid_run (O : P.Outline initial) {actions : List (Action C)}
    (ran : Run.exec P.next { shared := initial } actions = some s) : O.Valid s :=
  Run.exec_invariant_always (fun _ _ _ valid taken => valid.next taken) O.valid_initial ran

end Program
end Threads
