import ResDB.Library.Recency

/-! The least-recently-used cache of the storage layer: a linked list of keys, the map of the
values and the map from a key to its list iterator (`LRUCache`, common/lru/lru_cache.cpp). -/
namespace ResDB
variable {K V : Type} [DecidableEq K]

/-- A capacity is positive, so its comparison with an unsigned size is that of numbers. -/
structure LRUCache (K V : Type) where
  capacity : ℕ
  cacheHits : ℕ := 0
  cacheMisses : ℕ := 0
  keyList : NodeList K := ∅
  lookup : AssocMap K V := ∅
  rlookup : AssocMap K ℕ := ∅

namespace LRUCache

def new (capacity : ℕ) : LRUCache K V := { capacity := capacity }

/-- Moves the node that the key's iterator points to before all the others. -/
def touch (c : LRUCache K V) (k : K) : Option (LRUCache K V) :=
  (c.rlookup.find k).bind fun iterator =>
    (c.keyList.splice iterator).map fun moved => { c with keyList := moved }

def get [Inhabited V] (c : LRUCache K V) (k : K) : Option (V × LRUCache K V) :=
  match c.lookup.find k with
  | none => some (default, { c with cacheMisses := c.cacheMisses + 1 })
  | some v => (c.touch k).map fun used => (v, { used with cacheHits := used.cacheHits + 1 })

/-- The body of the two eviction loops: the back of the list leaves all three structures. -/
def evict (c : LRUCache K V) : Option (LRUCache K V) :=
  c.keyList.back.map fun lruKey =>
    { c with
      keyList := c.keyList.popBack
      lookup := c.lookup.erase lruKey
      rlookup := c.rlookup.erase lruKey }

def pushFront (c : LRUCache K V) (k : K) : Option (LRUCache K V) :=
  let pushed := c.keyList.pushFront k
  pushed.front.map fun iterator =>
    { c with keyList := pushed, rlookup := c.rlookup.set k iterator }

def put (c : LRUCache K V) (k : K) (v : V) : Option (LRUCache K V) :=
  let placed :=
    match c.lookup.find k with
    | none =>
        (if c.keyList.size = c.capacity then c.evict else some c).bind fun c => c.pushFront k
    | some _ => c.touch k
  placed.map fun c => { c with lookup := c.lookup.set k v }

/-- The loop of `SetCapacity`, with one unit of fuel a round. -/
def shrink (newCapacity : ℕ) : ℕ → LRUCache K V → Option (LRUCache K V)
  | 0, _ => none
  | fuel + 1, c =>
      if newCapacity < c.keyList.size then c.evict.bind (shrink newCapacity fuel) else some c

def setCapacity (c : LRUCache K V) (newCapacity : ℕ) : Option (LRUCache K V) :=
  let fitted :=
    if newCapacity < c.capacity then shrink newCapacity (c.keyList.size + 1) c else some c
  fitted.map fun c => { c with capacity := newCapacity }

def flush (c : LRUCache K V) : LRUCache K V := { capacity := c.capacity }

/-! ### The linked structures simulate one recency list -/

/-- The list holds the keys in their order, and each key's iterator points to its node. -/
structure Linked (l : NodeList K) (rlookup : AssocMap K ℕ) (order : List K) : Prop where
  keys : l.keys = order
  iterators : ∀ k n, rlookup.find k = some n ↔ (n, k) ∈ l.nodes.entries

namespace Linked
variable {l : NodeList K} {rlookup : AssocMap K ℕ} {order : List K}

theorem exists_node (linked : Linked l rlookup order) {k : K} (inside : k ∈ order) :
    ∃ n, (n, k) ∈ l.nodes.entries := by
  rw [← linked.keys] at inside
  obtain ⟨⟨n, k'⟩, node, rfl⟩ := List.mem_map.mp inside
  exact ⟨n, node⟩

theorem mem_order (linked : Linked l rlookup order) {k : K} {n : ℕ}
    (node : (n, k) ∈ l.nodes.entries) : k ∈ order := by
  rw [← linked.keys]
  exact List.mem_map_of_mem node

theorem handle_iff_key (linked : Linked l rlookup order) {k : K} {n : ℕ}
    (node : (n, k) ∈ l.nodes.entries) (e : ℕ × K) (inside : e ∈ l.nodes.entries) :
    e.1 = n ↔ e.2 = k := by
  constructor
  · intro same
    have found := l.nodes.find_eq_some_iff.mpr inside
    rw [same, l.nodes.find_eq_some_iff.mpr node] at found
    exact (Option.some.inj found).symm
  · intro same
    have found := (linked.iterators e.2 e.1).mpr inside
    rw [same, (linked.iterators k n).mpr node] at found
    exact (Option.some.inj found).symm

theorem splice (linked : Linked l rlookup order) {k : K} (inside : k ∈ order) :
    ∃ n moved, rlookup.find k = some n ∧ l.splice n = some moved ∧
      Linked moved rlookup (k :: order.filter (fun j => j ≠ k)) := by
  obtain ⟨n, node⟩ := linked.exists_node inside
  obtain ⟨moved, spliced, nodes⟩ := NodeList.splice_of_mem node
  refine ⟨n, moved, (linked.iterators k n).mpr node, spliced, ?_, ?_⟩
  · have others : l.nodes.entries.filter (fun e => e.1 ≠ n) =
        l.nodes.entries.filter (fun e => e.2 ≠ k) := by
      apply List.filter_congr
      intro e inside
      simpa using linked.handle_iff_key node e inside
    have entries : moved.nodes.entries =
        (n, k) :: l.nodes.entries.filter (fun e => e.2 ≠ k) := by
      rw [nodes, ← others]
      rfl
    rw [NodeList.keys, entries, List.map_cons, ← linked.keys, NodeList.keys, List.filter_map]
    rfl
  · intro j m
    have kept : moved.nodes.find m = l.nodes.find m := by
      rw [nodes, AssocMap.find_set]
      split_ifs with same
      · rw [same, l.nodes.find_eq_some_iff.mpr node]
      · rfl
    rw [linked.iterators, ← AssocMap.find_eq_some_iff, ← AssocMap.find_eq_some_iff, kept]

theorem pushFront (linked : Linked l rlookup order) {k : K} (absent : k ∉ order) :
    (l.pushFront k).front = some l.fresh ∧
      Linked (l.pushFront k) (rlookup.set k l.fresh) (k :: order) := by
  have entries := l.pushFront_entries k
  refine ⟨by rw [NodeList.front, entries]; rfl, ?_, ?_⟩
  · rw [NodeList.keys, entries, List.map_cons, ← linked.keys]
    rfl
  · intro j n
    rw [AssocMap.find_set, entries, List.mem_cons, ← linked.iterators, Prod.mk.injEq]
    split_ifs with same
    · have unlisted : rlookup.find j ≠ some n := fun found =>
        absent (same ▸ linked.mem_order ((linked.iterators j n).mp found))
      simp [same, eq_comm, same ▸ unlisted]
    · simp [same]

theorem popBack {last : K} {front : List K} (linked : Linked l rlookup (front ++ [last])) :
    l.back = some last ∧ Linked l.popBack (rlookup.erase last) front := by
  obtain ⟨nodes, tail, whole, fronts, lasts⟩ := List.map_eq_append_iff.mp linked.keys
  obtain ⟨⟨n, k⟩, rfl, rfl⟩ := List.map_eq_singleton_iff.mp lasts
  have popped : l.popBack.nodes.entries = nodes := by
    change l.nodes.entries.dropLast = nodes
    rw [whole, List.dropLast_concat]
  refine ⟨by rw [NodeList.back, linked.keys, List.getLast?_concat], ?_, ?_⟩
  · rw [NodeList.keys, popped, fronts]
  · intro j m
    have handles := l.nodes.nodup
    rw [whole, List.map_append, List.nodup_append] at handles
    rw [AssocMap.find_erase, popped]
    split_ifs with same
    · refine ⟨fun found => found.elim, fun inside => ?_⟩
      have node : (n, k) ∈ l.nodes.entries := by simp [whole]
      have twin : m = n := (linked.handle_iff_key node (m, j) (by simp [whole, inside])).mpr same
      exact absurd twin (handles.2.2 m (List.mem_map_of_mem inside) n (by simp))
    · rw [linked.iterators, whole, List.mem_append, List.mem_singleton, Prod.mk.injEq]
      simp [same]

end Linked

/-- The three structures hold the entries of one recency list. -/
structure Represents (c : LRUCache K V) (m : AssocMap K V) : Prop where
  linked : Linked c.keyList c.rlookup (m.entries.map Prod.fst)
  values : ∀ k, c.lookup.find k = m.find k

namespace Represents
variable {c : LRUCache K V} {m : AssocMap K V}

theorem size_eq (same : Represents c m) : c.keyList.size = m.size := by
  have lengths := congrArg List.length same.linked.keys
  simpa [NodeList.keys, NodeList.size, AssocMap.size] using lengths

theorem same_keys (same : Represents c m) (k : K) :
    (k ∈ c.keyList.keys ↔ (m.find k).isSome) ∧ ((c.lookup.find k).isSome ↔ (m.find k).isSome) ∧
      ((c.rlookup.find k).isSome ↔ (m.find k).isSome) := by
  have listed : k ∈ m.entries.map Prod.fst ↔ (m.find k).isSome := AssocMap.mem_keys_iff m k
  refine ⟨by rw [same.linked.keys, listed], by rw [same.values], ?_⟩
  rw [← listed]
  constructor
  · intro known
    obtain ⟨n, found⟩ := Option.isSome_iff_exists.mp known
    exact same.linked.mem_order ((same.linked.iterators k n).mp found)
  · intro inside
    obtain ⟨n, node⟩ := same.linked.exists_node inside
    exact Option.isSome_iff_exists.mpr ⟨n, (same.linked.iterators k n).mpr node⟩

theorem touch (same : Represents c m) {k : K} {v : V} (found : m.find k = some v) :
    ∃ c', c.touch k = some c' ∧ c'.capacity = c.capacity ∧ c'.lookup = c.lookup ∧
      Linked c'.keyList c'.rlookup (k :: (m.entries.map Prod.fst).filter (fun j => j ≠ k)) := by
  have inside : k ∈ m.entries.map Prod.fst := List.mem_map_of_mem (AssocMap.mem_of_find found)
  obtain ⟨n, moved, iterator, spliced, linked⟩ := same.linked.splice inside
  refine ⟨{ c with keyList := moved }, ?_, rfl, rfl, linked⟩
  rw [LRUCache.touch, iterator, Option.bind_some, spliced, Option.map_some]

theorem pushFront (same : Represents c m) {k : K} (absent : m.find k = none) :
    ∃ c', c.pushFront k = some c' ∧ c'.capacity = c.capacity ∧ c'.lookup = c.lookup ∧
      Linked c'.keyList c'.rlookup (k :: (m.entries.map Prod.fst).filter (fun j => j ≠ k)) := by
  have unlisted : k ∉ m.entries.map Prod.fst := by
    rw [AssocMap.mem_keys_iff, absent]
    exact Bool.false_ne_true
  have others : (m.entries.map Prod.fst).filter (fun j => j ≠ k) = m.entries.map Prod.fst := by
    apply List.filter_eq_self.mpr
    intro j inside
    simpa using ne_of_mem_of_not_mem inside unlisted
  obtain ⟨front, linked⟩ := same.linked.pushFront unlisted
  refine ⟨{ c with keyList := c.keyList.pushFront k, rlookup := c.rlookup.set k c.keyList.fresh },
    ?_, rfl, rfl, ?_⟩
  · rw [LRUCache.pushFront, front, Option.map_some]
  · rwa [others]

theorem store (values : ∀ j, c.lookup.find j = m.find j) {k : K}
    (linked : Linked c.keyList c.rlookup (k :: (m.entries.map Prod.fst).filter (fun j => j ≠ k)))
    (v : V) : Represents { c with lookup := c.lookup.set k v } (m.set k v) := by
  refine ⟨?_, ?_⟩
  · rwa [AssocMap.keys_set]
  · intro j
    rw [AssocMap.find_set, AssocMap.find_set, values]

theorem evict (same : Represents c m) (occupied : 0 < m.size) :
    ∃ c', c.evict = some c' ∧ c'.capacity = c.capacity ∧ Represents c' m.dropLast := by
  obtain ⟨front, last, whole⟩ := AssocMap.exists_last occupied
  have linked := same.linked
  rw [whole, List.map_append, List.map_singleton] at linked
  obtain ⟨back, popped⟩ := linked.popBack
  refine ⟨{ c with
    keyList := c.keyList.popBack
    lookup := c.lookup.erase last.1
    rlookup := c.rlookup.erase last.1 }, ?_, rfl, ?_, ?_⟩
  · rw [LRUCache.evict, back, Option.map_some]
  · rwa [AssocMap.entries_dropLast, whole, List.dropLast_concat]
  · intro k
    rw [AssocMap.find_dropLast whole, AssocMap.find_erase, same.values]

theorem shrink (n : ℕ) : ∀ (fuel : ℕ) {c : LRUCache K V} {m : AssocMap K V},
    Represents c m → m.size < fuel →
      ∃ c', LRUCache.shrink n fuel c = some c' ∧ Represents c' (m.take n) := by
  intro fuel
  induction fuel with
  | zero =>
      intro c m _ short
      exact absurd short (Nat.not_lt_zero _)
  | succ fuel ih =>
      intro c m same short
      rw [LRUCache.shrink, same.size_eq]
      split_ifs with long
      · obtain ⟨smaller, evicted, _, kept⟩ := same.evict (Nat.zero_lt_of_lt long)
        have fuelLeft : m.dropLast.size < fuel := by
          rw [AssocMap.size_dropLast]
          omega
        obtain ⟨c', ran, holds⟩ := ih kept fuelLeft
        refine ⟨c', by rw [evicted, Option.bind_some, ran], ?_⟩
        rwa [AssocMap.take_dropLast long] at holds
      · refine ⟨c, rfl, ?_⟩
        rwa [AssocMap.take_of_size_le (Nat.le_of_not_lt long)]

end Represents

structure Simulates (c : LRUCache K V) (r : Recency K V) : Prop where
  capacity : c.capacity = r.capacity
  represents : Represents c r.entries

namespace Simulates
variable {c : LRUCache K V} {r : Recency K V}

theorem new (capacity : ℕ) (positive : 0 < capacity) :
    Simulates (LRUCache.new capacity : LRUCache K V) (Recency.empty capacity positive) := by
  refine ⟨rfl, ⟨rfl, ?_⟩, fun k => rfl⟩
  intro k n
  exact ⟨fun found => absurd found.symm (Option.some_ne_none n),
    fun inside => absurd inside List.not_mem_nil⟩

theorem get [Inhabited V] (sim : Simulates c r) (k : K) :
    ∃ c', c.get k = some ((r.get k).1.getD default, c') ∧ Simulates c' (r.get k).2 := by
  cases found : r.entries.find k with
  | none =>
      have absent : c.lookup.find k = none := (sim.represents.values k).trans found
      refine ⟨{ c with cacheMisses := c.cacheMisses + 1 }, ?_, ?_⟩
      · rw [LRUCache.get, absent, Recency.get_of_none found]
        rfl
      · rw [Recency.get_of_none found]
        exact ⟨sim.capacity, sim.represents.linked, sim.represents.values⟩
  | some v =>
      have present : c.lookup.find k = some v := (sim.represents.values k).trans found
      obtain ⟨used, touched, capacity, lookup, linked⟩ := sim.represents.touch found
      obtain ⟨value, kept, entries⟩ := Recency.get_of_some found
      refine ⟨{ used with cacheHits := used.cacheHits + 1 }, ?_, ?_, ?_, ?_⟩
      · rw [LRUCache.get, present, value]
        simp only [touched, Option.map_some, Option.getD_some]
      · rw [kept, ← sim.capacity]
        exact capacity
      · rw [entries, AssocMap.keys_set]
        exact linked
      · intro j
        have values : used.lookup.find j = r.entries.find j := by
          rw [lookup, sim.represents.values]
        rw [entries, AssocMap.find_set]
        split_ifs with same
        · rw [same, ← found, ← same]
          exact values
        · exact values

theorem enter {m : AssocMap K V} (same : Represents c m) {k : K} (absent : m.find k = none)
    (v : V) : ∃ c', (c.pushFront k).map (fun c => { c with lookup := c.lookup.set k v }) = some c' ∧
      c'.capacity = c.capacity ∧ Represents c' (m.set k v) := by
  obtain ⟨pushed, front, capacity, lookup, linked⟩ := same.pushFront absent
  refine ⟨{ pushed with lookup := pushed.lookup.set k v }, by rw [front, Option.map_some],
    capacity, Represents.store ?_ linked v⟩
  intro j
  rw [lookup, same.values]

theorem put_new (sim : Simulates c r) {k : K} (absent : r.entries.find k = none) (v : V) :
    ∃ c', c.put k v = some c' ∧ Simulates c' (r.put k v) := by
  have missing : c.lookup.find k = none := (sim.represents.values k).trans absent
  have size := sim.represents.size_eq
  unfold LRUCache.put
  simp only [missing, size, sim.capacity]
  by_cases full : r.entries.size = r.capacity
  · obtain ⟨smaller, evicted, capacity, same⟩ := sim.represents.evict (full ▸ r.positive)
    have gone : r.entries.dropLast.find k = none := by
      obtain ⟨front, last, whole⟩ := AssocMap.exists_last (full ▸ r.positive)
      rw [AssocMap.find_dropLast whole, absent, ite_self]
    obtain ⟨c', entered, kept, holds⟩ := enter same gone v
    refine ⟨c', ?_, kept.trans (capacity.trans sim.capacity), ?_⟩
    · rw [if_pos full, evicted, Option.bind_some, entered]
    · have room : r.room k = r.entries.dropLast := if_pos ⟨absent, full⟩
      rwa [Recency.entries_put, room]
  · obtain ⟨c', entered, kept, holds⟩ := enter sim.represents absent v
    refine ⟨c', ?_, kept.trans sim.capacity, ?_⟩
    · rw [if_neg full, Option.bind_some, entered]
    · have room : r.room k = r.entries := if_neg (fun both => full both.2)
      rwa [Recency.entries_put, room]

theorem put_known (sim : Simulates c r) {k : K} {old : V} (found : r.entries.find k = some old)
    (v : V) : ∃ c', c.put k v = some c' ∧ Simulates c' (r.put k v) := by
  have present : c.lookup.find k = some old := (sim.represents.values k).trans found
  obtain ⟨used, touched, capacity, lookup, linked⟩ := sim.represents.touch found
  have room : r.room k = r.entries := by
    refine if_neg ?_
    rw [found]
    exact fun both => Option.some_ne_none old both.1
  refine ⟨{ used with lookup := used.lookup.set k v }, ?_, capacity.trans sim.capacity, ?_⟩
  · unfold LRUCache.put
    simp only [present, touched, Option.map_some]
  · rw [Recency.entries_put, room]
    refine Represents.store ?_ linked v
    intro j
    rw [lookup, sim.represents.values]

theorem put (sim : Simulates c r) (k : K) (v : V) :
    ∃ c', c.put k v = some c' ∧ Simulates c' (r.put k v) := by
  cases found : r.entries.find k with
  | none => exact sim.put_new found v
  | some old => exact sim.put_known found v

theorem setCapacity (sim : Simulates c r) (n : ℕ) (positive : 0 < n) :
    ∃ c', c.setCapacity n = some c' ∧ Simulates c' (r.setCapacity n positive) := by
  unfold LRUCache.setCapacity
  split_ifs with less
  · obtain ⟨fitted, ran, same⟩ := sim.represents.shrink n (c.keyList.size + 1)
      (by rw [sim.represents.size_eq]; exact Nat.lt_succ_self _)
    refine ⟨{ fitted with capacity := n }, by rw [ran, Option.map_some], rfl, ?_⟩
    exact ⟨same.linked, same.values⟩
  · have whole : r.entries.take n = r.entries := by
      apply AssocMap.take_of_size_le
      exact r.fits.trans (sim.capacity ▸ Nat.le_of_not_lt less)
    refine ⟨{ c with capacity := n }, rfl, rfl, ?_⟩
    rw [Recency.entries_setCapacity, whole]
    exact ⟨sim.represents.linked, sim.represents.values⟩

theorem flush (sim : Simulates c r) : Simulates c.flush r.flush := by
  have fresh := Simulates.new (K := K) (V := V) r.capacity r.positive
  refine ⟨sim.capacity, fresh.represents.linked, fresh.represents.values⟩

end Simulates

/-! ### Whole histories of calls -/

inductive Op (K V : Type) where
  | get (k : K)
  | put (k : K) (v : V)
  | setCapacity (n : ℕ) (positive : 0 < n)
  | flush

def step [Inhabited V] (c : LRUCache K V) : Op K V → Option (Option V × LRUCache K V)
  | .get k => (c.get k).map fun got => (some got.1, got.2)
  | .put k v => (c.put k v).map fun c => (none, c)
  | .setCapacity n _ => (c.setCapacity n).map fun c => (none, c)
  | .flush => some (none, c.flush)

/-- The calls one after the other; the values returned, in order. -/
def run [Inhabited V] (c : LRUCache K V) : List (Op K V) → Option (List (Option V) × LRUCache K V)
  | [] => some ([], c)
  | op :: rest => (c.step op).bind fun first =>
      (first.2.run rest).map fun later => (first.1 :: later.1, later.2)

/-- What a call means on the recency list. A `Get` of an absent key yields the default. -/
def abstractStep [Inhabited V] (r : Recency K V) : Op K V → Option V × Recency K V
  | .get k => (some ((r.get k).1.getD default), (r.get k).2)
  | .put k v => (none, r.put k v)
  | .setCapacity n positive => (none, r.setCapacity n positive)
  | .flush => (none, r.flush)

def abstractRun [Inhabited V] (r : Recency K V) : List (Op K V) → List (Option V) × Recency K V
  | [] => ([], r)
  | op :: rest =>
      ((abstractStep r op).1 :: (abstractRun (abstractStep r op).2 rest).1,
        (abstractRun (abstractStep r op).2 rest).2)

def putOf (k : K) : Op K V → Option V
  | .get _ => none
  | .put j v => if j = k then some v else none
  | .setCapacity _ _ => none
  | .flush => none

def lastPut (k : K) : List (Op K V) → Option V
  | [] => none
  | op :: rest => (lastPut k rest).or (putOf k op)

section Histories
variable [Inhabited V]

theorem Simulates.step {c : LRUCache K V} {r : Recency K V} (sim : Simulates c r) (op : Op K V) :
    ∃ c', c.step op = some ((abstractStep r op).1, c') ∧ Simulates c' (abstractStep r op).2 := by
  cases op with
  | get k =>
      obtain ⟨c', returned, after⟩ := sim.get k
      exact ⟨c', by rw [LRUCache.step, returned]; rfl, after⟩
  | put k v =>
      obtain ⟨c', stored, after⟩ := sim.put k v
      exact ⟨c', by rw [LRUCache.step, stored]; rfl, after⟩
  | setCapacity n positive =>
      obtain ⟨c', fitted, after⟩ := sim.setCapacity n positive
      exact ⟨c', by rw [LRUCache.step, fitted]; rfl, after⟩
  | flush => exact ⟨c.flush, rfl, sim.flush⟩

theorem Simulates.run {c : LRUCache K V} {r : Recency K V} (sim : Simulates c r)
    (ops : List (Op K V)) :
    ∃ c', c.run ops = some ((abstractRun r ops).1, c') ∧ Simulates c' (abstractRun r ops).2 := by
  induction ops generalizing c r with
  | nil => exact ⟨c, rfl, sim⟩
  | cons op rest ih =>
      obtain ⟨mid, first, holds⟩ := sim.step op
      obtain ⟨c', later, after⟩ := ih holds
      exact ⟨c', by rw [LRUCache.run, first, Option.bind_some, later, Option.map_some]; rfl, after⟩

theorem find_abstractStep {r : Recency K V} {op : Op K V} {k : K} {v : V}
    (found : (abstractStep r op).2.entries.find k = some v) :
    putOf k op = some v ∨ (putOf k op = none ∧ r.entries.find k = some v) := by
  cases op with
  | get j => exact .inr ⟨rfl, r.find_get j k ▸ found⟩
  | put j w =>
      rw [abstractStep, Recency.entries_put, AssocMap.find_set] at found
      split_ifs at found with same
      · exact .inl (by rw [putOf, if_pos same.symm, found])
      · exact .inr ⟨if_neg (fun eq => same eq.symm), Recency.find_of_room found⟩
  | setCapacity n positive => exact .inr ⟨rfl, AssocMap.find_of_take found⟩
  | flush => exact absurd found.symm (Option.some_ne_none v)

theorem find_abstractRun {r : Recency K V} {ops : List (Op K V)} {k : K} {v : V}
    (found : (abstractRun r ops).2.entries.find k = some v) :
    lastPut k ops = some v ∨ (lastPut k ops = none ∧ r.entries.find k = some v) := by
  induction ops generalizing r with
  | nil => exact .inr ⟨rfl, found⟩
  | cons op rest ih =>
      rcases ih found with later | ⟨unset, before⟩
      · exact .inl (by rw [lastPut, later, Option.some_or])
      · rw [lastPut, unset, Option.none_or]
        exact find_abstractStep before

/-- Every history of calls is that of one recency list: the values returned are the list's,
each entry holds the value last put, and the list of keys and both maps agree with it. -/
theorem run_simulates_recency (capacity : ℕ) (positive : 0 < capacity) (ops : List (Op K V)) :
    ∃ c, (new capacity : LRUCache K V).run ops =
        some ((abstractRun (Recency.empty capacity positive) ops).1, c) ∧
      Simulates c (abstractRun (Recency.empty capacity positive) ops).2 ∧
      (∀ k, (k ∈ c.keyList.keys ↔ (c.lookup.find k).isSome) ∧
        ((c.rlookup.find k).isSome ↔ (c.lookup.find k).isSome)) ∧
      ∀ k v, c.lookup.find k = some v → lastPut k ops = some v := by
  obtain ⟨c, ran, sim⟩ := (Simulates.new capacity positive).run ops
  refine ⟨c, ran, sim, ?_, ?_⟩
  · intro k
    obtain ⟨listed, stored, linked⟩ := sim.represents.same_keys k
    exact ⟨listed.trans stored.symm, linked.trans stored.symm⟩
  · intro k v found
    rw [sim.represents.values] at found
    rcases find_abstractRun found with last | ⟨_, empty⟩
    · exact last
    · exact absurd empty.symm (Option.some_ne_none v)

end Histories

/-- A third key in a cache of two drops the key used least recently. -/
def thirdKey : List (Op ℕ ℕ) := [.put 1 10, .put 2 20, .get 1, .put 3 30, .get 2, .get 1]

theorem thirdKey_simulates :
    0 < 2 ∧ ∃ c, (new 2 : LRUCache ℕ ℕ).run thirdKey =
        some ((abstractRun (Recency.empty 2 Nat.two_pos) thirdKey).1, c) ∧
      Simulates c (abstractRun (Recency.empty 2 Nat.two_pos) thirdKey).2 ∧
      (∀ k, (k ∈ c.keyList.keys ↔ (c.lookup.find k).isSome) ∧
        ((c.rlookup.find k).isSome ↔ (c.lookup.find k).isSome)) ∧
      ∀ k v, c.lookup.find k = some v → lastPut k thirdKey = some v :=
  ⟨Nat.two_pos, run_simulates_recency 2 Nat.two_pos thirdKey⟩

example : ((new 2 : LRUCache ℕ ℕ).run thirdKey).map Prod.fst =
    some [none, none, some 10, none, some 0, some 10] := by decide
end LRUCache

end ResDB
