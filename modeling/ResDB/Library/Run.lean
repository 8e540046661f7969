import Mathlib.Tactic

/-! Runs of a partial transition function. A run is the list of its actions; a
condition on the actions may read the state each of them is taken from. -/
namespace Run
variable {σ α : Type*}

/-- The state after all the actions, or `none` if one of them was not enabled. -/
def exec (step : σ → α → Option σ) : σ → List α → Option σ
  | s, [] => some s
  | s, a :: rest => (step s a).bind (fun s' => exec step s' rest)

/-- Every action meets the condition in the state it is taken from. -/
def Along (step : σ → α → Option σ) (cond : σ → α → Prop) : σ → List α → Prop
  | _, [] => True
  | s, a :: rest => cond s a ∧
      match step s a with
      | none => True
      | some s' => Along step cond s' rest

instance decidableAlong (step : σ → α → Option σ) (cond : σ → α → Prop)
    [∀ s a, Decidable (cond s a)] : ∀ s as, Decidable (Along step cond s as)
  | _, [] => .isTrue trivial
  | s, a :: rest =>
      @instDecidableAnd (cond s a)
        (match step s a with
          | none => True
          | some s' => Along step cond s' rest)
        inferInstance
        (match step s a with
          | none => .isTrue trivial
          | some s' => decidableAlong step cond s' rest)

section Rules
variable {step : σ → α → Option σ} {cond : σ → α → Prop}

theorem exec_cons_some {s s' : σ} {a : α} {rest : List α}
    (ran : exec step s (a :: rest) = some s') :
    ∃ mid, step s a = some mid ∧ exec step mid rest = some s' :=
  Option.bind_eq_some_iff.mp ran

theorem exec_cons_of_step {s mid : σ} {a : α} (rest : List α) (first : step s a = some mid) :
    exec step s (a :: rest) = exec step mid rest := by
  rw [exec, first, Option.bind_some]

theorem exec_append {s mid : σ} {as : List α} (more : List α) (first : exec step s as = some mid) :
    exec step s (as ++ more) = exec step mid more := by
  induction as generalizing s with
  | nil =>
      cases first
      rfl
  | cons a rest ih =>
      obtain ⟨next, taken, later⟩ := exec_cons_some first
      rw [List.cons_append, exec_cons_of_step _ taken]
      exact ih later

theorem Along.tail {s mid : σ} {a : α} {rest : List α} (along : Along step cond s (a :: rest))
    (first : step s a = some mid) : Along step cond mid rest := by
  have later := along.2
  rw [first] at later
  exact later

theorem Along.imp {weaker : σ → α → Prop} (le : ∀ s a, cond s a → weaker s a) {s : σ}
    {as : List α} (along : Along step cond s as) : Along step weaker s as := by
  induction as generalizing s with
  | nil => trivial
  | cons a rest ih =>
      refine ⟨le s a along.1, ?_⟩
      cases first : step s a with
      | none => trivial
      | some mid => exact ih (along.tail first)

theorem Along.and {other : σ → α → Prop} {s : σ} {as : List α} (along : Along step cond s as)
    (also : Along step other s as) : Along step (fun s a => cond s a ∧ other s a) s as := by
  induction as generalizing s with
  | nil => trivial
  | cons a rest ih =>
      refine ⟨⟨along.1, also.1⟩, ?_⟩
      cases first : step s a with
      | none => trivial
      | some mid => exact ih (along.tail first) (also.tail first)

theorem along_of_mem {as : List α} (always : ∀ a ∈ as, ∀ s, cond s a) (s : σ) :
    Along step cond s as := by
  induction as generalizing s with
  | nil => trivial
  | cons a rest ih =>
      refine ⟨always a List.mem_cons_self s, ?_⟩
      cases step s a with
      | none => trivial
      | some mid => exact ih (fun b member => always b (List.mem_cons_of_mem a member)) mid

theorem along_of_forall (always : ∀ s a, cond s a) (s : σ) (as : List α) :
    Along step cond s as :=
  along_of_mem (fun a _ s => always s a) s

/-- All runs meet the condition if and only if all actions meet it wherever a run leads. -/
theorem forall_along_iff {s : σ} :
    (∀ as, Along step cond s as) ↔ ∀ as s', exec step s as = some s' → ∀ a, cond s' a := by
  constructor
  · intro all as
    induction as generalizing s with
    | nil =>
        rintro s' ⟨⟩ a
        exact (all [a]).1
    | cons b rest ih =>
        intro s' ran
        obtain ⟨mid, first, later⟩ := exec_cons_some ran
        exact ih (fun as => (all (b :: as)).tail first) s' later
  · intro reached as
    induction as generalizing s with
    | nil => trivial
    | cons b rest ih =>
        refine ⟨reached [] s rfl b, ?_⟩
        cases first : step s b with
        | none => trivial
        | some mid =>
            refine ih (fun as s' ran => reached (b :: as) s' ?_)
            rw [exec_cons_of_step as first, ran]

/-- What one step keeps under the condition, a run that meets the condition keeps. -/
theorem exec_invariant {Inv : σ → Prop}
    (keep : ∀ s a s', Inv s → cond s a → step s a = some s' → Inv s') {s s' : σ} {as : List α}
    (initial : Inv s) (along : Along step cond s as) (ran : exec step s as = some s') :
    Inv s' := by
  induction as generalizing s with
  | nil =>
      cases ran
      exact initial
  | cons a rest ih =>
      obtain ⟨mid, first, later⟩ := exec_cons_some ran
      exact ih (keep s a mid initial along.1 first) (along.tail first) later

theorem exec_invariant_always {Inv : σ → Prop}
    (keep : ∀ s a s', Inv s → step s a = some s' → Inv s') {s s' : σ} {as : List α}
    (initial : Inv s) (ran : exec step s as = some s') : Inv s' :=
  exec_invariant (fun s a s' inv (_ : True) taken => keep s a s' inv taken) initial
    (along_of_forall (fun _ _ => trivial) s as) ran

theorem exec_invariant_of_forall {Inv : σ → Prop} {ok : α → Prop}
    (keep : ∀ s a s', Inv s → ok a → step s a = some s' → Inv s') {s s' : σ} {as : List α}
    (initial : Inv s) (all : ∀ a ∈ as, ok a) (ran : exec step s as = some s') : Inv s' :=
  exec_invariant keep initial (along_of_mem (fun a member _ => all a member) s) ran

/-- A property that an enabled step keeps exactly under a condition holds all along a run
exactly when every step meets the condition. What else is used of the states may itself rest on
the steps before. -/
theorem holds_iff_along {Inv Valid : σ → Prop}
    (keeps : ∀ s a s', Valid s → Inv s → cond s a → step s a = some s' → Valid s')
    (exact : ∀ s a s', Valid s → Inv s → step s a = some s' → (Inv s' ↔ cond s a)) {s s' : σ}
    {as : List α} (valid : Valid s) (initial : Inv s) (ran : exec step s as = some s') :
    (∀ made, made <+: as → ∀ mid, exec step s made = some mid → Inv mid) ↔
      Along step cond s as := by
  induction as generalizing s with
  | nil =>
      refine ⟨fun _ => trivial, fun _ made inside mid reached => ?_⟩
      rw [List.prefix_nil.mp inside] at reached
      cases reached
      exact initial
  | cons a rest ih =>
      obtain ⟨mid, first, later⟩ := exec_cons_some ran
      have here := exact s a mid valid initial first
      constructor
      · intro holds
        have one : Inv mid := by
          refine holds [a] (List.prefix_append [a] rest) mid ?_
          rw [exec_cons_of_step [] first, exec]
        have met := here.mp one
        refine ⟨met, ?_⟩
        rw [first]
        refine (ih (keeps s a mid valid initial met first) one later).mp ?_
        intro made inside t reached
        refine holds (a :: made) ((List.prefix_cons_inj a).mpr inside) t ?_
        rw [exec_cons_of_step made first, reached]
      · intro along made inside t reached
        have one : Inv mid := here.mpr along.1
        have valid' := keeps s a mid valid initial along.1 first
        cases made with
        | nil =>
            cases reached
            exact initial
        | cons b made =>
            obtain ⟨rfl, among⟩ := List.cons_prefix_cons.mp inside
            rw [exec_cons_of_step made first] at reached
            exact (ih valid' one later).mpr (along.tail first) made among t reached

/-- Some state on the way satisfies it. -/
def Once (step : σ → α → Option σ) (P : σ → Prop) (s : σ) (as : List α) : Prop :=
  ∃ earlier, earlier <+: as ∧ ∃ s', exec step s earlier = some s' ∧ P s'

/-- An effect that only the cause brings about, or the effect itself, comes after the
cause. -/
theorem once_of_effect {Inv Cause Effect : σ → Prop}
    (keep : ∀ s a s', Inv s → step s a = some s' → Inv s')
    (caused : ∀ s a s', Inv s → step s a = some s' → Effect s' → Effect s ∨ Cause s') {s s' : σ}
    {as : List α} (initial : Inv s) (ran : exec step s as = some s') (effect : Effect s') :
    Effect s ∨ Once step Cause s as := by
  induction as generalizing s with
  | nil =>
      cases ran
      exact .inl effect
  | cons a rest ih =>
      obtain ⟨mid, first, later⟩ := exec_cons_some ran
      rcases ih (keep s a mid initial first) later with early | ⟨earlier, inside, reached⟩
      · rcases caused s a mid initial first early with before | now
        · exact .inl before
        · refine .inr ⟨[a], (List.prefix_append _ rest), mid, ?_, now⟩
          rw [exec_cons_of_step [] first, exec]
      · refine .inr ⟨a :: earlier, (List.prefix_cons_inj a).mpr inside, ?_⟩
        rw [exec_cons_of_step earlier first]
        exact reached

end Rules

/-! ### Total transition functions

A run of a function that is always enabled is a fold over the actions, and the states along
it are those of the prefixes. -/

section Total
variable {β : Type*} [Preorder β] {step : σ → α → σ} {start : σ} {measure : σ → β}

def Rises (step : σ → α → σ) (start : σ) (measure : σ → β) (as : List α) : Prop :=
  ∀ earlier later, earlier <+: later → later <+: as →
    measure (earlier.foldl step start) ≤ measure (later.foldl step start)

theorem rises_iff_steps {as : List α} :
    Rises step start measure as ↔ ∀ earlier a, earlier ++ [a] <+: as →
      measure (earlier.foldl step start) ≤ measure (step (earlier.foldl step start) a) := by
  constructor
  · intro rises earlier a inside
    have one := rises earlier (earlier ++ [a]) (List.prefix_append _ _) inside
    rwa [List.foldl_concat] at one
  · rintro steps earlier later ⟨rest, rfl⟩ inside
    induction rest using List.reverseRecOn with
    | nil => rw [List.append_nil]
    | append_singleton rest a ih =>
        rw [← List.append_assoc] at inside ⊢
        rw [List.foldl_concat]
        exact (ih ((List.prefix_append _ _).trans inside)).trans (steps _ a inside)

/-- A property that each step keeps exactly under a condition holds all along a run exactly
when every step meets the condition. The equivalence may use what holds of every state. -/
theorem holds_iff_steps {Inv Valid : σ → Prop} {cond : σ → α → Prop}
    (valid : Valid start) (keeps : ∀ s a, Valid s → Valid (step s a)) (initial : Inv start)
    (exact : ∀ s a, Valid s → Inv s → (Inv (step s a) ↔ cond s a)) {as : List α} :
    (∀ made, made <+: as → Inv (made.foldl step start)) ↔
      ∀ made a, made ++ [a] <+: as → cond (made.foldl step start) a := by
  have always : ∀ made : List α, Valid (made.foldl step start) := fun made =>
    List.foldlRecOn made step valid (fun s inv a _ => keeps s a inv)
  constructor
  · intro holds made a inside
    have later := holds (made ++ [a]) inside
    rw [List.foldl_concat] at later
    exact (exact _ a (always made) (holds made ((List.prefix_append _ _).trans inside))).mp later
  · intro steps made inside
    induction made using List.reverseRecOn with
    | nil => exact initial
    | append_singleton made a ih =>
        rw [List.foldl_concat]
        exact (exact _ a (always made) (ih ((List.prefix_append _ _).trans inside))).mpr
          (steps made a inside)

theorem forall_steps_concat {as : List α} {b : α} {P : List α → α → Prop} :
    (∀ earlier a, earlier ++ [a] <+: as ++ [b] → P earlier a) ↔
      (∀ earlier a, earlier ++ [a] <+: as → P earlier a) ∧ P as b := by
  constructor
  · intro steps
    exact ⟨fun earlier a inside => steps earlier a (inside.trans (List.prefix_append _ _)),
      steps as b List.prefix_rfl⟩
  · rintro ⟨before, last⟩ earlier a inside
    rcases List.prefix_concat_iff.mp inside with whole | shorter
    · obtain ⟨rfl, same⟩ := List.append_inj' whole rfl
      cases same
      exact last
    · exact before earlier a shorter

theorem forall_prefix_iff {as : List α} {P : List α → α → Prop} :
    (∀ earlier a, earlier ++ [a] <+: as → P earlier a) ↔
      ∀ i : Fin as.length, P (as.take i) (as.get i) := by
  constructor
  · intro steps i
    refine steps _ _ ?_
    rw [List.get_eq_getElem, List.take_concat_get']
    exact List.take_prefix _ _
  · rintro places earlier a ⟨rest, rfl⟩
    have here := places ⟨earlier.length, by simp⟩
    simpa using here

end Total
end Run
