import Mathlib.Data.Finset.Dedup
import Mathlib.Data.Finset.Card
import Mathlib.Tactic

/-! Who stands behind a value: the distinct senders of the messages that agree with it.
When a count of messages amounts to that many backers. -/
namespace Backing
variable {M S : Type*} [DecidableEq S] (sender : M → S) (agrees : M → Bool)

def backers (messages : List M) : Finset S := ((messages.filter agrees).map sender).toFinset

variable {sender agrees} {messages : List M}

theorem mem_backers {j : S} :
    j ∈ backers sender agrees messages ↔ ∃ m ∈ messages, agrees m = true ∧ sender m = j := by
  simp only [backers, List.mem_toFinset, List.mem_map, List.mem_filter, and_assoc]

theorem backers_cons (m : M) (rest : List M) :
    backers sender agrees (m :: rest) =
      if agrees m then insert (sender m) (backers sender agrees rest)
      else backers sender agrees rest := by
  unfold backers
  split_ifs with agree
  · rw [List.filter_cons_of_pos agree, List.map_cons, List.toFinset_cons]
  · rw [List.filter_cons_of_neg agree]

theorem backers_concat (m : M) (messages : List M) :
    backers sender agrees (messages ++ [m]) =
      if agrees m then insert (sender m) (backers sender agrees messages)
      else backers sender agrees messages := by
  unfold backers
  rw [List.filter_append, List.map_append, List.toFinset_append]
  split_ifs with agree
  · rw [List.filter_cons_of_pos agree, Finset.union_comm]
    rfl
  · rw [List.filter_cons_of_neg agree]
    exact Finset.union_empty _

/-- As many backers as messages: all agree, and no two come from one sender. -/
theorem length_le_card_backers_iff :
    messages.length ≤ (backers sender agrees messages).card ↔
      (∀ m ∈ messages, agrees m = true) ∧ (messages.map sender).Nodup := by
  have distinct : (backers sender agrees messages).card ≤ (messages.filter agrees).length := by
    have bound := List.toFinset_card_le ((messages.filter agrees).map sender)
    rwa [List.length_map] at bound
  have kept : (messages.filter agrees).length ≤ messages.length := List.length_filter_le _ _
  constructor
  · intro enough
    have all : messages.filter agrees = messages :=
      List.filter_sublist.eq_of_length (by omega)
    refine ⟨List.filter_eq_self.mp all, ?_⟩
    rw [← Multiset.coe_nodup, ← Multiset.toFinset_card_eq_card_iff_nodup]
    rw [backers, all] at enough distinct
    change (messages.map sender).toFinset.card = (messages.map sender).length
    rw [List.length_map]
    omega
  · rintro ⟨all, nodup⟩
    rw [backers, List.filter_eq_self.mpr all, List.toFinset_card_of_nodup nodup, List.length_map]

end Backing
