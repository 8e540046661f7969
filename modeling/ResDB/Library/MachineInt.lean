import Mathlib.Tactic

/-! Signed integers of a fixed width. A variable keeps a number modulo a power of two, read
back in the range of its type. It makes no difference whether every addition wraps around or
only the sum, and nothing wraps around in the range. -/
namespace MachineInt
variable {width : ℕ} {a b n : Int}

/-- The range of a signed integer type. -/
def IsInt (width : ℕ) (n : Int) : Prop := -2 ^ (width - 1) ≤ n ∧ n < 2 ^ (width - 1)

instance (width : ℕ) (n : Int) : Decidable (IsInt width n) := inferInstanceAs (Decidable (_ ∧ _))

theorem IsInt.mono {v w : ℕ} {n : Int} (fits : IsInt v n) (wider : v ≤ w) : IsInt w n := by
  have bound : (2 : Int) ^ (v - 1) ≤ 2 ^ (w - 1) :=
    pow_le_pow_right₀ (by omega) (Nat.sub_le_sub_right wider 1)
  unfold IsInt at fits ⊢
  omega

/-- What a variable of the type keeps of a number. -/
def wrap (width : ℕ) (n : Int) : Int := n.bmod (2 ^ width)

theorem wrap_wrap_add (width : ℕ) (a b : Int) :
    wrap width (wrap width a + b) = wrap width (a + b) :=
  Int.bmod_add_bmod

theorem halves (positive : 0 < width) : 2 * 2 ^ (width - 1) = (2 : ℕ) ^ width := by
  rw [← pow_succ', Nat.sub_add_cancel positive]

theorem isInt_wrap (positive : 0 < width) (n : Int) : IsInt width (wrap width n) := by
  have size : 0 < 2 ^ width := Nat.two_pow_pos width
  have low := Int.le_bmod (x := n) size
  have high := Int.bmod_lt (x := n) size
  have half := halves positive
  rw [IsInt, wrap]
  push_cast [← half] at low high ⊢
  omega

theorem wrap_eq_self_iff (positive : 0 < width) : wrap width n = n ↔ IsInt width n := by
  have half := halves positive
  constructor
  · intro same
    rw [← same]
    exact isInt_wrap positive n
  · rintro ⟨low, high⟩
    refine Int.bmod_eq_of_le ?_ ?_
    · push_cast [← half]
      omega
    · push_cast [← half]
      omega

end MachineInt
