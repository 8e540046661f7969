import Mathlib.Tactic
import ResDB.Library.SortedMap

/-! A map behind a buffer of writes. Reads see the map only. The policy `due` says when the
buffer is written out; whatever it says, the contents of map and buffer together are those of
the map with all writes made at once. -/

structure WriteBuffer (K V : Type*) [LinearOrder K] where
  main : SortedMap K V := ∅
  pending : List (K × V) := []

namespace WriteBuffer
variable {K V : Type*} [LinearOrder K] (b : WriteBuffer K V) (due : List (K × V) → Bool)

def contents : SortedMap K V := b.pending.foldl (fun m e => m.set e.1 e.2) b.main

def flush : WriteBuffer K V := { main := b.contents, pending := [] }

def put (k : K) (v : V) : WriteBuffer K V :=
  let added : WriteBuffer K V := { b with pending := b.pending ++ [(k, v)] }
  if due added.pending then added.flush else added

def Pending (k : K) : Prop := k ∈ b.pending.map Prod.fst

@[simp] theorem contents_flush : b.flush.contents = b.contents := rfl

@[simp] theorem contents_put (k : K) (v : V) :
    (b.put due k v).contents = b.contents.set k v := by
  have added : WriteBuffer.contents { b with pending := b.pending ++ [(k, v)] } =
      b.contents.set k v := List.foldl_concat ..
  unfold put
  dsimp only
  split_ifs
  · rw [contents_flush, added]
  · exact added

theorem find_contents {b : WriteBuffer K V} {k : K} (settled : ¬b.Pending k) :
    b.contents.find k = b.main.find k := by
  obtain ⟨main, pending⟩ := b
  unfold contents
  unfold Pending at settled
  induction pending generalizing main with
  | nil => rfl
  | cons e rest ih =>
      rw [List.map_cons, List.mem_cons, not_or] at settled
      rw [List.foldl_cons, ih _ settled.2, SortedMap.find_set, if_neg settled.1]

theorem contents_eq_main {b : WriteBuffer K V} (empty : b.pending = []) : b.contents = b.main := by
  rw [contents, empty, List.foldl_nil]

theorem main_put_of_not_due {b : WriteBuffer K V} {due : List (K × V) → Bool} {k : K} {v : V}
    (late : due [(k, v)] = false) : (b.flush.put due k v).main = b.contents := by
  have waits : due (b.flush.pending ++ [(k, v)]) = false := late
  simp only [put, waits]
  rfl

def Eager : Prop := ∀ e, due [e] = true

theorem Eager.pending_put {due : List (K × V) → Bool} (eager : Eager due) {b : WriteBuffer K V}
    (empty : b.pending = []) (k : K) (v : V) : (b.put due k v).pending = [] := by
  have now : due (b.pending ++ [(k, v)]) = true := by
    rw [empty]
    exact eager (k, v)
  simp only [put, now, if_true]
  rfl

end WriteBuffer
