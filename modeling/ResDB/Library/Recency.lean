import ResDB.Library.AssocMap

/-! Recency lists of bounded length, and linked lists whose nodes are reached through stable
handles. Both keep their entries in an association list, the most recent entry first. -/

namespace AssocMap
variable {K V : Type*}

theorem nodup_dropLast (m : AssocMap K V) : (m.entries.dropLast.map Prod.fst).Nodup :=
  m.nodup.sublist ((List.dropLast_sublist _).map Prod.fst)

def dropLast (m : AssocMap K V) : AssocMap K V := ⟨m.entries.dropLast, m.nodup_dropLast⟩

theorem entries_dropLast (m : AssocMap K V) : m.dropLast.entries = m.entries.dropLast := rfl

theorem exists_last {m : AssocMap K V} (occupied : 0 < m.size) :
    ∃ front last, m.entries = front ++ [last] := by
  rcases List.eq_nil_or_concat m.entries with nil | ⟨front, last, whole⟩
  · rw [size, nil] at occupied
    exact absurd occupied (Nat.lt_irrefl 0)
  · exact ⟨front, last, by simpa using whole⟩

theorem nodup_take (m : AssocMap K V) (n : ℕ) : ((m.entries.take n).map Prod.fst).Nodup :=
  m.nodup.sublist ((List.take_sublist _ _).map Prod.fst)

def take (m : AssocMap K V) (n : ℕ) : AssocMap K V := ⟨m.entries.take n, m.nodup_take n⟩

theorem size_dropLast (m : AssocMap K V) : m.dropLast.size = m.size - 1 :=
  List.length_dropLast

theorem take_of_size_le {m : AssocMap K V} {n : ℕ} (short : m.size ≤ n) : m.take n = m := by
  cases m with
  | mk entries nodup => simpa [take] using List.take_of_length_le short

theorem take_dropLast {m : AssocMap K V} {n : ℕ} (long : n < m.size) :
    m.dropLast.take n = m.take n := by
  have shorter : n ≤ m.entries.length - 1 := Nat.le_sub_one_of_lt long
  have same : m.entries.dropLast.take n = m.entries.take n := by
    rw [List.dropLast_eq_take, List.take_take, Nat.min_eq_left shorter]
  simpa [take, dropLast] using same

variable [DecidableEq K]

theorem find_dropLast {m : AssocMap K V} {front : List (K × V)} {last : K × V}
    (whole : m.entries = front ++ [last]) (k : K) :
    m.dropLast.find k = if k = last.1 then none else m.find k := by
  have kept : m.dropLast.entries = front := by
    rw [entries_dropLast, whole, List.dropLast_concat]
  have keys := m.nodup
  rw [whole, List.map_append, List.nodup_append] at keys
  rw [find, find, kept]
  split_ifs with same
  · rw [Option.map_eq_none_iff, List.find?_eq_none]
    intro e inside
    simpa [same] using keys.2.2 e.1 (List.mem_map_of_mem inside) last.1 (by simp)
  · have differ : ¬ last.1 = k := fun eq => same eq.symm
    rw [whole, List.find?_append]
    simp [differ]

theorem find_of_take {m : AssocMap K V} {n : ℕ} {k : K} {v : V}
    (found : (m.take n).find k = some v) : m.find k = some v := by
  rw [find_eq_some_iff] at found ⊢
  exact List.mem_of_mem_take found

theorem mem_keys_iff (m : AssocMap K V) (k : K) :
    k ∈ m.entries.map Prod.fst ↔ (m.find k).isSome := by
  rw [List.mem_map, Option.isSome_iff_exists]
  constructor
  · rintro ⟨⟨k', v⟩, inside, rfl⟩
    exact ⟨v, m.find_eq_some_iff.mpr inside⟩
  · rintro ⟨v, found⟩
    exact ⟨(k, v), mem_of_find found, rfl⟩

theorem keys_set (m : AssocMap K V) (k : K) (v : V) :
    (m.set k v).entries.map Prod.fst =
      k :: (m.entries.map Prod.fst).filter (fun j => j ≠ k) := by
  rw [List.filter_map]
  rfl

theorem size_set_le (m : AssocMap K V) (k : K) (v : V) : (m.set k v).size ≤ m.size + 1 :=
  Nat.succ_le_succ (List.length_filter_le _ _)

theorem size_set_of_found {m : AssocMap K V} {k : K} {old : V} (found : m.find k = some old)
    (v : V) : (m.set k v).size ≤ m.size :=
  size_erase_lt found

end AssocMap

/-- A doubly linked list. A handle keeps pointing to its node wherever the node is moved. -/
structure NodeList (K : Type*) where
  nodes : AssocMap ℕ K
  fresh : ℕ
  below : ∀ node ∈ nodes.entries, node.1 < fresh

namespace NodeList
variable {K : Type*}

theorem below_empty : ∀ node ∈ (∅ : AssocMap ℕ K).entries, node.1 < 0 :=
  fun _ inside => absurd inside List.not_mem_nil

instance : EmptyCollection (NodeList K) := ⟨⟨∅, 0, below_empty⟩⟩

def keys (l : NodeList K) : List K := l.nodes.entries.map Prod.snd

def size (l : NodeList K) : ℕ := l.nodes.size

def back (l : NodeList K) : Option K := l.keys.getLast?

def front (l : NodeList K) : Option ℕ := (l.nodes.entries.head?).map Prod.fst

theorem below_set (l : NodeList K) (k : K) :
    ∀ node ∈ (l.nodes.set l.fresh k).entries, node.1 < l.fresh + 1 := by
  intro node inside
  rcases List.mem_cons.mp inside with rfl | old
  · exact Nat.lt_succ_self _
  · exact Nat.lt_succ_of_lt (l.below node (List.mem_filter.mp old).1)

def pushFront (l : NodeList K) (k : K) : NodeList K :=
  ⟨l.nodes.set l.fresh k, l.fresh + 1, l.below_set k⟩

def popBack (l : NodeList K) : NodeList K :=
  ⟨l.nodes.dropLast, l.fresh, fun node inside => l.below node (List.mem_of_mem_dropLast inside)⟩

theorem below_move {l : NodeList K} {n : ℕ} {k : K} (found : l.nodes.find n = some k) :
    ∀ node ∈ (l.nodes.set n k).entries, node.1 < l.fresh := by
  intro node inside
  rcases List.mem_cons.mp inside with rfl | old
  · exact l.below _ (AssocMap.mem_of_find found)
  · exact l.below node (List.mem_filter.mp old).1

/-- Moves the node of a handle to the front; undefined for a handle of no node. -/
def splice (l : NodeList K) (n : ℕ) : Option (NodeList K) :=
  match found : l.nodes.find n with
  | none => none
  | some k => some ⟨l.nodes.set n k, l.fresh, below_move found⟩

theorem splice_of_mem {l : NodeList K} {n : ℕ} {k : K} (inside : (n, k) ∈ l.nodes.entries) :
    ∃ moved, l.splice n = some moved ∧ moved.nodes = l.nodes.set n k := by
  have found : l.nodes.find n = some k := l.nodes.find_eq_some_iff.mpr inside
  unfold splice
  split
  · next none => simp [none] at found
  · next k' some =>
      have same : k' = k := by simpa [some] using found
      subst same
      exact ⟨_, rfl, rfl⟩

/-- A fresh handle is not in use, so the new node stands before all the others. -/
theorem pushFront_entries (l : NodeList K) (k : K) :
    (l.pushFront k).nodes.entries = (l.fresh, k) :: l.nodes.entries := by
  have all : l.nodes.entries.filter (fun e => e.1 ≠ l.fresh) = l.nodes.entries := by
    apply List.filter_eq_self.mpr
    intro node inside
    simpa using (l.below node inside).ne
  exact congrArg _ all

end NodeList

/-- The entries in order of their last use, never more than the capacity. -/
structure Recency (K V : Type*) where
  capacity : ℕ
  entries : AssocMap K V
  positive : 0 < capacity
  fits : entries.size ≤ capacity

namespace Recency
variable {K V : Type*}

def empty (capacity : ℕ) (positive : 0 < capacity) : Recency K V :=
  ⟨capacity, ∅, positive, Nat.zero_le _⟩

def flush (r : Recency K V) : Recency K V := empty r.capacity r.positive

theorem fits_take (m : AssocMap K V) (n : ℕ) : (m.take n).size ≤ n := List.length_take_le n _

def setCapacity (r : Recency K V) (n : ℕ) (positive : 0 < n) : Recency K V :=
  ⟨n, r.entries.take n, positive, fits_take r.entries n⟩

theorem entries_setCapacity (r : Recency K V) (n : ℕ) (positive : 0 < n) :
    (r.setCapacity n positive).entries = r.entries.take n := rfl

variable [DecidableEq K]

theorem fits_touch (r : Recency K V) {k : K} {v : V} (found : r.entries.find k = some v) :
    (r.entries.set k v).size ≤ r.capacity :=
  (AssocMap.size_set_of_found found v).trans r.fits

/-- A present key is moved to the front and its value returned. -/
def get (r : Recency K V) (k : K) : Option V × Recency K V :=
  match found : r.entries.find k with
  | none => (none, r)
  | some v => (some v, ⟨r.capacity, r.entries.set k v, r.positive, r.fits_touch found⟩)

theorem get_of_none {r : Recency K V} {k : K} (absent : r.entries.find k = none) :
    r.get k = (none, r) := by
  unfold get
  split
  · rfl
  · next v found => simp [absent] at found

theorem get_of_some {r : Recency K V} {k : K} {v : V} (present : r.entries.find k = some v) :
    (r.get k).1 = some v ∧ (r.get k).2.capacity = r.capacity ∧
      (r.get k).2.entries = r.entries.set k v := by
  unfold get
  split
  · next absent => simp [absent] at present
  · next w found =>
      have same : w = v := by simpa [found] using present
      subst same
      exact ⟨rfl, rfl, rfl⟩

/-- The entries a key enters: those of a full list lose the last one when the key is new. -/
def room (r : Recency K V) (k : K) : AssocMap K V :=
  if r.entries.find k = none ∧ r.entries.size = r.capacity then r.entries.dropLast else r.entries

theorem fits_put (r : Recency K V) (k : K) (v : V) :
    ((r.room k).set k v).size ≤ r.capacity := by
  unfold room
  split_ifs with full
  · have smaller := AssocMap.size_set_le r.entries.dropLast k v
    have lost := r.entries.size_dropLast
    have positive := r.positive
    have fits := r.fits
    omega
  · cases found : r.entries.find k with
    | some old => exact (AssocMap.size_set_of_found found v).trans r.fits
    | none =>
        have larger := AssocMap.size_set_le r.entries k v
        have fits := r.fits
        have notFull : r.entries.size ≠ r.capacity := fun eq => full ⟨found, eq⟩
        omega

def put (r : Recency K V) (k : K) (v : V) : Recency K V :=
  ⟨r.capacity, (r.room k).set k v, r.positive, r.fits_put k v⟩

theorem entries_put (r : Recency K V) (k : K) (v : V) :
    (r.put k v).entries = (r.room k).set k v := rfl

theorem find_of_room {r : Recency K V} {k j : K} {v : V} (found : (r.room k).find j = some v) :
    r.entries.find j = some v := by
  unfold room at found
  split_ifs at found with full
  · rw [AssocMap.find_eq_some_iff] at found ⊢
    exact List.mem_of_mem_dropLast found
  · exact found

theorem find_get (r : Recency K V) (k j : K) : (r.get k).2.entries.find j = r.entries.find j := by
  cases found : r.entries.find k with
  | none => rw [get_of_none found]
  | some v =>
      rw [(get_of_some found).2.2, AssocMap.find_set]
      split_ifs with same
      · rw [same, found]
      · rfl

end Recency
