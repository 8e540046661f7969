import Mathlib.Order.SuccPred.IntervalSucc
import Mathlib.Order.Interval.Finset.Nat
import Mathlib.Tactic

/-! A monotone sequence of cut points divides a range into consecutive half-open
intervals. Which interval a position falls in, the linear search for it, and how many
positions an interval holds. -/
namespace Intervals

/-- The position lies between the `i`-th cut point and the next one. -/
def Within {β : Type*} [LinearOrder β] (cut : ℕ → β) (i : ℕ) (position : β) : Prop :=
  cut i ≤ position ∧ position < cut (i + 1)

variable {β : Type*} [LinearOrder β] {cut : ℕ → β}

instance (i : ℕ) (position : β) : Decidable (Within cut i position) :=
  inferInstanceAs (Decidable (_ ∧ _))

/-- The first of the `n` intervals that holds the position. -/
def locate (cut : ℕ → β) (n : ℕ) (position : β) : Option ℕ :=
  (List.range n).find? (fun i => Within cut i position)

theorem Within.unique (mono : Monotone cut) {i j : ℕ} {position : β}
    (first : Within cut i position) (second : Within cut j position) : i = j := by
  by_contra differ
  have apart := mono.pairwise_disjoint_on_Ico_succ differ
  exact Set.disjoint_left.mp apart first second

theorem exists_within (n : ℕ) {position : β} (low : cut 0 ≤ position)
    (high : position < cut n) : ∃ i < n, Within cut i position := by
  induction n with
  | zero => exact absurd high (not_lt.mpr low)
  | succ n ih =>
      by_cases earlier : position < cut n
      · obtain ⟨i, below, within⟩ := ih earlier
        exact ⟨i, by omega, within⟩
      · exact ⟨n, by omega, not_lt.mp earlier, high⟩

theorem locate_eq_some_iff (mono : Monotone cut) (n i : ℕ) (position : β) :
    locate cut n position = some i ↔ i < n ∧ Within cut i position := by
  rw [locate, List.find?_range_eq_some]
  constructor
  · rintro ⟨within, below, -⟩
    exact ⟨List.mem_range.mp below, of_decide_eq_true within⟩
  · rintro ⟨below, within⟩
    refine ⟨decide_eq_true within, List.mem_range.mpr below, fun j earlier => ?_⟩
    rw [Bool.not_eq_true', decide_eq_false_iff_not]
    intro other
    exact absurd (other.unique mono within) (by omega)

theorem locate_congr {other : ℕ → β} {n : ℕ} (agree : ∀ i ≤ n, cut i = other i) (position : β) :
    locate cut n position = locate other n position := by
  apply List.find?_congr
  intro i member
  have below : i < n := List.mem_range.mp member
  rw [decide_eq_decide, Within, Within, agree i below.le, agree (i + 1) below]

theorem locate_isSome (mono : Monotone cut) (n : ℕ) {position : β} (low : cut 0 ≤ position)
    (high : position < cut n) : ∃ i, locate cut n position = some i := by
  obtain ⟨i, below, within⟩ := exists_within n low high
  exact ⟨i, (locate_eq_some_iff mono n i position).mpr ⟨below, within⟩⟩

theorem card_within {cut : ℕ → ℕ} (mono : Monotone cut) {n i : ℕ} (below : i < n) :
    ((Finset.range (cut n)).filter (Within cut i)).card = cut (i + 1) - cut i := by
  have same : (Finset.range (cut n)).filter (Within cut i) =
      Finset.Ico (cut i) (cut (i + 1)) := by
    ext position
    have inside : cut (i + 1) ≤ cut n := mono below
    simp only [Finset.mem_filter, Finset.mem_range, Finset.mem_Ico, Within]
    omega
  rw [same, Nat.card_Ico]

end Intervals
