import Mathlib.Data.Nat.Bitwise
import Mathlib.Logic.Function.Basic
import Mathlib.Tactic

/-! A ring of `2 * C` numbered cells, `C` a power of two, that is addressed by masking.
Completing a number replaces the cell half a turn ahead, the one found by flipping the bit
`C` of the index. -/
namespace PartnerRing

structure Kind (α : Type*) where
  seq : α → ℕ
  fresh : ℕ → α
  seq_fresh : ∀ s, seq (fresh s) = s

variable {α : Type*} (K : Kind α) (C : ℕ)

def index (s : ℕ) : ℕ := s &&& (2 * C - 1)

/-- A number whose cell is of another number is skipped. -/
def update (pool : ℕ → α) (s : ℕ) : ℕ → α :=
  if K.seq (pool (index C s)) ≠ s then pool
  else Function.update pool (index C s ^^^ C) (K.fresh (s + C))

def Live (pool : ℕ → α) (s : ℕ) : Prop := K.seq (pool (index C s)) = s

instance (pool : ℕ → α) (s : ℕ) : Decidable (Live K C pool s) :=
  inferInstanceAs (Decidable (_ = _))

/-- All numbers from half a turn back up to half a turn ahead have their own cell. -/
def Window (k : ℕ) (pool : ℕ → α) : Prop :=
  ∀ s, k + 1 ≤ s + C → s ≤ k + C → Live K C pool s

theorem xor_two_pow_of_lt {b m : ℕ} (below : m < 2 ^ b) : m ^^^ 2 ^ b = m + 2 ^ b := by
  have joined := Nat.two_pow_add_eq_or_of_lt below 1
  rw [Nat.mul_one] at joined
  rw [Nat.add_comm, joined]
  apply Nat.eq_of_testBit_eq
  intro i
  rw [Nat.testBit_xor, Nat.testBit_or, Nat.testBit_two_pow]
  by_cases here : b = i
  · subst here
    simp [Nat.testBit_lt_two_pow below]
  · simp [here]

section Power
variable {K C} (power : ∃ b, C = 2 ^ b)
include power

theorem capacity_pos : 0 < C := by
  obtain ⟨b, rfl⟩ := power
  exact Nat.two_pow_pos b

theorem index_eq_mod (s : ℕ) : index C s = s % (2 * C) := by
  obtain ⟨b, rfl⟩ := power
  rw [index, ← pow_succ', Nat.and_two_pow_sub_one_eq_mod]

theorem index_xor (s : ℕ) : index C s ^^^ C = index C (s + C) := by
  rw [index_eq_mod power, index_eq_mod power]
  have bound : s % (2 * C) < 2 * C := Nat.mod_lt _ (by have := capacity_pos power; omega)
  have half : (s + C) % (2 * C) = (s % (2 * C) + C) % (2 * C) := (Nat.mod_add_mod _ _ _).symm
  rw [half]
  generalize s % (2 * C) = m at bound
  obtain ⟨b, rfl⟩ := power
  by_cases low : m < 2 ^ b
  · rw [xor_two_pow_of_lt low, Nat.mod_eq_of_lt (by omega)]
  · obtain ⟨r, rfl⟩ := Nat.exists_eq_add_of_le' (not_lt.mp low)
    rw [← xor_two_pow_of_lt (show r < 2 ^ b by omega), Nat.xor_xor_cancel_right,
      xor_two_pow_of_lt (by omega), show r + 2 ^ b + 2 ^ b = r + 2 * 2 ^ b by omega,
      Nat.add_mod_right, Nat.mod_eq_of_lt (by omega)]

theorem index_ne {s t : ℕ} (lower : s < t) (upper : t < s + 2 * C) : index C s ≠ index C t := by
  rw [index_eq_mod power, index_eq_mod power]
  intro same
  have divides : 2 * C ∣ t - s := (Nat.modEq_iff_dvd' lower.le).mp same
  exact absurd (Nat.le_of_dvd (by omega) divides) (by omega)

theorem eq_of_index_eq {s t : ℕ} (same : index C s = index C t) (lower : t < s + 2 * C)
    (upper : s < t + 2 * C) : s = t := by
  rcases lt_trichotomy s t with less | equal | more
  · exact absurd same (index_ne power less lower)
  · exact equal
  · exact absurd same.symm (index_ne power more upper)

theorem update_of_near {pool : ℕ → α} {j s : ℕ} (lower : j < s + C) (upper : s < j + C) :
    update K C pool j (index C s) = pool (index C s) := by
  unfold update
  split_ifs
  · rfl
  · rw [index_xor power, Function.update_of_ne]
    exact index_ne power upper (by omega)

theorem live_update_partner {pool : ℕ → α} {j : ℕ} (live : Live K C pool j) :
    Live K C (update K C pool j) (j + C) := by
  have own : ¬ K.seq (pool (index C j)) ≠ j := not_not.mpr live
  rw [Live, update, if_neg own, index_xor power, Function.update_self, K.seq_fresh]

theorem live_update_iff {pool : ℕ → α} {j s : ℕ} :
    Live K C (update K C pool j) s ↔
      if Live K C pool j ∧ index C s = index C (j + C) then s = j + C else Live K C pool s := by
  by_cases live : Live K C pool j
  · have own : ¬ K.seq (pool (index C j)) ≠ j := not_not.mpr live
    rw [Live, update, if_neg own, index_xor power, Function.update_apply]
    by_cases here : index C s = index C (j + C)
    · rw [if_pos here, if_pos ⟨live, here⟩, K.seq_fresh, eq_comm]
    · rw [if_neg here, if_neg (fun both => here both.2), Live]
  · have other : K.seq (pool (index C j)) ≠ j := live
    rw [Live, update, if_pos other, if_neg (fun both => live both.1), Live]

theorem window_initial : Window K C 0 K.fresh := by
  intro s _ upper
  have small : index C s = s := by
    rw [index_eq_mod power]
    exact Nat.mod_eq_of_lt (by have := capacity_pos power; omega)
  rw [Live, small, K.seq_fresh]

/-- Completing the next number moves the window on by one. -/
theorem Window.update {k : ℕ} {pool : ℕ → α} (window : Window K C k pool) :
    Window K C (k + 1) (update K C pool (k + 1)) := by
  have positive := capacity_pos power
  intro s lower upper
  by_cases last : s = k + 1 + C
  · subst last
    exact live_update_partner power (window (k + 1) (by omega) (by omega))
  · rw [Live, update_of_near power (by omega) (by omega)]
    exact window s (by omega) (by omega)

/-- The window after the numbers up to `k` were completed in order. -/
theorem window_range' (k : ℕ) :
    Window K C k ((List.range' 1 k).foldl (PartnerRing.update K C) K.fresh) := by
  induction k with
  | zero => exact window_initial power
  | succ k ih =>
      rw [List.range'_concat, List.foldl_concat]
      have next : 1 + 1 * k = k + 1 := by omega
      rw [next]
      exact ih.update power

end Power
end PartnerRing
