import Mathlib.Data.Set.Function
import Mathlib.Tactic

/-! A digest that is extended item by item, over an arbitrary hash function on strings. No
such function is free of collisions, so what a digest binds is said of the strings that were
hashed on the way to it. -/
namespace HashChain
variable {β : Type*} (H : List β → List β)

/-- The digest of the items, from a digest before them. -/
def chain (start : List β) (items : List (List β)) : List β :=
  items.foldl (fun digest item => H (digest ++ item)) start

def inputs (start : List β) : List (List β) → Set (List β)
  | [] => ∅
  | item :: rest => insert (start ++ item) (inputs (H (start ++ item)) rest)

variable {H}

@[simp] theorem chain_nil (start : List β) : chain H start [] = start := rfl

@[simp] theorem chain_cons (start item : List β) (rest : List (List β)) :
    chain H start (item :: rest) = chain H (H (start ++ item)) rest := rfl

theorem chain_append (start : List β) (items more : List (List β)) :
    chain H start (items ++ more) = chain H (chain H start items) more :=
  List.foldl_append

theorem inputs_append (start : List β) (items more : List (List β)) :
    inputs H start (items ++ more) =
      inputs H start items ∪ inputs H (chain H start items) more := by
  induction items generalizing start with
  | nil => simp [inputs]
  | cons item rest ih => simp [inputs, ih, Set.insert_union]

theorem inputs_concat (start : List β) (items : List (List β)) (last : List β) :
    inputs H start (items ++ [last]) =
      insert (chain H start items ++ last) (inputs H start items) := by
  rw [inputs_append, Set.insert_eq, Set.union_comm]
  simp [inputs]

theorem chain_concat (start : List β) (items : List (List β)) (last : List β) :
    chain H start (items ++ [last]) = H (chain H start items ++ last) := by
  rw [chain_append]
  rfl

/-- Without a collision equal digests were made from equal strings. -/
theorem eq_of_chain_concat_eq {xs ys : List (List β)} {x y : List β}
    (free : Set.InjOn H (inputs H [] (xs ++ [x]) ∪ inputs H [] (ys ++ [y])))
    (same : chain H [] (xs ++ [x]) = chain H [] (ys ++ [y])) :
    chain H [] xs ++ x = chain H [] ys ++ y := by
  rw [inputs_concat, inputs_concat] at free
  rw [chain_concat, chain_concat] at same
  exact free (.inl (Set.mem_insert _ _)) (.inr (Set.mem_insert _ _)) same

theorem injOn_of_concat {xs ys : List (List β)} {x y : List β}
    (free : Set.InjOn H (inputs H [] (xs ++ [x]) ∪ inputs H [] (ys ++ [y]))) :
    Set.InjOn H (inputs H [] xs ∪ inputs H [] ys) := by
  rw [inputs_concat, inputs_concat] at free
  exact free.mono (Set.union_subset_union (Set.subset_insert _ _) (Set.subset_insert _ _))

theorem chain_concat_ne_nil {len : ℕ} (positive : 0 < len) (fixed : ∀ x, (H x).length = len)
    (xs : List (List β)) (x : List β) : chain H [] (xs ++ [x]) ≠ [] := by
  intro empty
  have length := fixed (chain H [] xs ++ x)
  rw [← chain_concat (H := H), empty, List.length_nil] at length
  exact positive.ne length

/-- Without a collision among the strings that were hashed, the digest from the empty string
determines the items. -/
theorem eq_of_chain_eq {len : ℕ} (positive : 0 < len) (fixed : ∀ x, (H x).length = len)
    {xs ys : List (List β)} (sizeX : ∀ x ∈ xs, x.length = len) (sizeY : ∀ y ∈ ys, y.length = len)
    (free : Set.InjOn H (inputs H [] xs ∪ inputs H [] ys))
    (same : chain H [] xs = chain H [] ys) : xs = ys := by
  -- the last items are peeled off together; a digest is never the empty string
  induction xs using List.reverseRecOn generalizing ys with
  | nil =>
      cases ys using List.reverseRecOn with
      | nil => rfl
      | append_singleton ys y => exact absurd same.symm (chain_concat_ne_nil positive fixed ys y)
  | append_singleton xs x ih =>
      cases ys using List.reverseRecOn with
      | nil => exact absurd same (chain_concat_ne_nil positive fixed xs x)
      | append_singleton ys y =>
          have size : x.length = y.length :=
            (sizeX x (by simp)).trans (sizeY y (by simp)).symm
          obtain ⟨earlier, last⟩ := List.append_inj' (eq_of_chain_concat_eq free same) size
          rw [ih (fun z member => sizeX z (List.mem_append_left _ member))
            (fun z member => sizeY z (List.mem_append_left _ member)) (injOn_of_concat free)
            earlier, last]

/-- The digest of as many items has the same length, whatever the items are. -/
theorem length_chain_eq {len : ℕ} (fixed : ∀ x, (H x).length = len) {xs ys : List (List β)}
    (count : xs.length = ys.length) : (chain H [] xs).length = (chain H [] ys).length := by
  cases xs using List.reverseRecOn with
  | nil => rw [List.eq_nil_of_length_eq_zero count.symm]
  | append_singleton xs x =>
      cases ys using List.reverseRecOn with
      | nil => simp at count
      | append_singleton ys y => rw [chain_concat, chain_concat, fixed, fixed]

/-- Items of any sizes are determined if their number is known. -/
theorem eq_of_chain_eq_of_length {len : ℕ} (fixed : ∀ x, (H x).length = len)
    {xs ys : List (List β)} (count : xs.length = ys.length)
    (free : Set.InjOn H (inputs H [] xs ∪ inputs H [] ys))
    (same : chain H [] xs = chain H [] ys) : xs = ys := by
  induction xs using List.reverseRecOn generalizing ys with
  | nil => exact (List.eq_nil_of_length_eq_zero count.symm).symm
  | append_singleton xs x ih =>
      cases ys using List.reverseRecOn with
      | nil => simp at count
      | append_singleton ys y =>
          have fewer : xs.length = ys.length := by simpa using count
          obtain ⟨earlier, last⟩ :=
            List.append_inj (eq_of_chain_concat_eq free same) (length_chain_eq fixed fewer)
          rw [ih fewer (injOn_of_concat free) earlier, last]

end HashChain
