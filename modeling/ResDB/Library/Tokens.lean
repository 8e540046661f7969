import Mathlib.Data.List.Nodup
import Mathlib.Logic.Function.Basic

/-! Ownership by tokens. Each thing has a phase, and those that are in somebody's hands have a token
that names the phase. No thing has two tokens, so whoever has the token of a thing may move it to
another phase without a look at the others. -/
namespace Tokens
variable {κ φ : Type*} {phase : κ → φ} {tokens others : List (κ × φ)} {u : κ}

structure Owned (phase : κ → φ) (tokens : List (κ × φ)) : Prop where
  named : ∀ t ∈ tokens, phase t.1 = t.2
  single : (tokens.map Prod.fst).Nodup

theorem Owned.perm (owned : Owned phase tokens) (same : tokens.Perm others) :
    Owned phase others :=
  ⟨fun t member => owned.named t (same.mem_iff.mpr member),
    ((same.map _).nodup_iff).mp owned.single⟩

theorem Owned.tail {t : κ × φ} (owned : Owned phase (t :: others)) :
    Owned phase others ∧ t.1 ∉ others.map Prod.fst := by
  have single := List.nodup_cons.mp owned.single
  exact ⟨⟨fun v member => owned.named v (List.mem_cons_of_mem t member), single.2⟩, single.1⟩

theorem Owned.right (owned : Owned phase (others ++ tokens)) : Owned phase tokens := by
  refine ⟨fun t member => owned.named t (List.mem_append_right _ member), ?_⟩
  have single := owned.single
  rw [List.map_append] at single
  exact (List.nodup_append.mp single).2.1

/-- What has no token may be moved, and may be given one. -/
theorem Owned.update [DecidableEq κ] (owned : Owned phase tokens) (off : u ∉ tokens.map Prod.fst)
    (b : φ) : Owned (Function.update phase u b) tokens ∧
      Owned (Function.update phase u b) ((u, b) :: tokens) := by
  have kept : Owned (Function.update phase u b) tokens := by
    refine ⟨fun t member => ?_, owned.single⟩
    rw [Function.update_of_ne]
    · exact owned.named t member
    · rintro rfl
      exact off (List.mem_map_of_mem member)
  refine ⟨kept, fun t member => ?_, List.nodup_cons.mpr ⟨off, owned.single⟩⟩
  rcases List.mem_cons.mp member with rfl | later
  · exact Function.update_self _ _ _
  · exact kept.named t later

/-- A thing whose phase no token names has no token. -/
theorem Owned.off (owned : Owned phase tokens) (no : ∀ t ∈ tokens, t.2 ≠ phase u) :
    u ∉ tokens.map Prod.fst := by
  intro member
  obtain ⟨t, there, rfl⟩ := List.mem_map.mp member
  exact no t there (owned.named t there).symm

end Tokens
