import Mathlib.Logic.Relation
import Mathlib.Tactic

/-! The safety argument of protocols that lock on a certificate and commit under three
consecutive views. A voter may fall back from its lock to an older one, but only behind a
certified block that carries an older certificate; such a block does not exist above a
committed one. -/
namespace ThreeChain
variable {κ : Type*} {parent : κ → κ} {view qview : κ → ℤ} {Certified : κ → Prop}

def Step (parent : κ → κ) (view : κ → ℤ) (Certified : κ → Prop) (child father : κ) : Prop :=
  Certified child ∧ father = parent child ∧ view father < view child

/-- What the voters of certified blocks give. Those of `a` lock the certificate of its
father. -/
structure Guarded (parent : κ → κ) (view qview : κ → ℤ) (Certified : κ → Prop) : Prop where
  unique : ∀ {a b}, Certified a → Certified b → view a = view b → a = b
  link : ∀ {b c}, Certified b → Certified c → view b < view c →
    Certified (parent c) ∧ view (parent c) = qview c ∧ qview c < view c
  guard : ∀ {a c}, Certified a → Certified (parent a) → Certified c → view a < view c →
    qview (parent a) < qview c ∨
      ∃ x, Certified x ∧ qview (parent a) < view x ∧ view x < view c ∧ qview x < qview (parent a)

theorem view_le_of_descends {c g : κ}
    (path : Relation.ReflTransGen (Step parent view Certified) c g) : view g ≤ view c := by
  induction path with
  | refl => exact le_rfl
  | tail _ last ih => exact (last.2.2.trans_le ih).le

/-- Once three consecutive views are certified on top of each other, all certified blocks
from the lowest of them on descend from it. -/
theorem Guarded.descends (inv : Guarded parent view qview Certified) {a : κ}
    (top : Certified a) (middle : Certified (parent a)) (low : Certified (parent (parent a)))
    (upper : view a = view (parent a) + 1)
    (lower : view (parent a) = view (parent (parent a)) + 1) {c : κ} (certified : Certified c)
    (above : view (parent (parent a)) ≤ view c) :
    Relation.ReflTransGen (Step parent view Certified) c (parent (parent a)) := by
  have locked : view (parent (parent a)) = qview (parent a) :=
    (inv.link low middle (by omega)).2.1
  have father : ∀ {x}, Certified x → view (parent (parent a)) < view x →
      Step parent view Certified x (parent x) := by
    intro x known higher
    obtain ⟨-, same, less⟩ := inv.link low known higher
    exact ⟨known, rfl, same ▸ less⟩
  -- Induction on the distance of the views.
  obtain ⟨n, distance⟩ : ∃ n : ℕ, view c = view (parent (parent a)) + n :=
    ⟨(view c - view (parent (parent a))).toNat, by omega⟩
  induction n using Nat.strong_induction_on generalizing c with
  | _ n ih =>
      by_cases beyond : view a < view c
      · rcases inv.guard top middle certified beyond with newer | ⟨x, known, high, less, older⟩
        · obtain ⟨known, same, less⟩ := inv.link low certified (by omega)
          refine .head (father certified (by omega)) ?_
          exact ih (n - (view c - view (parent c)).toNat) (by omega) known (by omega) (by omega)
        · -- A block that let a voter fall back would itself descend from the lowest one.
          have path := ih (n - (view c - view x).toNat) (by omega) known (by omega) (by omega)
          obtain same | ⟨y, ⟨-, rfl, -⟩, rest⟩ := path.cases_head
          · rw [same] at high
            omega
          · have bound := view_le_of_descends rest
            rw [(inv.link low known (by omega)).2.1] at bound
            omega
      · rcases (show n = 0 ∨ n = 1 ∨ n = 2 by omega) with rfl | rfl | rfl
        · rw [inv.unique certified low (by omega)]
        · rw [inv.unique certified middle (by omega)]
          exact .single (father middle (by omega))
        · rw [inv.unique certified top (by omega)]
          exact .head (father top (by omega)) (.single (father middle (by omega)))

end ThreeChain
