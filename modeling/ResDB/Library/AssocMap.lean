import Mathlib.Data.List.Nodup
import Mathlib.Tactic

/-! Finite maps as association lists with distinct keys: the lookups, updates and
erasures of an unordered dictionary, over arbitrary key and value types. -/

/-- The keys are distinct by construction, so a lookup never hides a second value. -/
structure AssocMap (K V : Type*) where
  entries : List (K × V)
  nodup : (entries.map Prod.fst).Nodup

namespace AssocMap
variable {K V : Type*}

instance : EmptyCollection (AssocMap K V) := ⟨⟨[], List.nodup_nil⟩⟩
instance : Inhabited (AssocMap K V) := ⟨∅⟩

def size (m : AssocMap K V) : ℕ := m.entries.length

def isEmpty (m : AssocMap K V) : Bool := m.entries.isEmpty

variable [DecidableEq K]

def find (m : AssocMap K V) (k : K) : Option V :=
  (m.entries.find? (fun e => e.1 = k)).map Prod.snd

theorem nodup_filter (m : AssocMap K V) (k : K) :
    ((m.entries.filter (fun e => e.1 ≠ k)).map Prod.fst).Nodup :=
  m.nodup.sublist (List.filter_sublist.map Prod.fst)

def erase (m : AssocMap K V) (k : K) : AssocMap K V :=
  ⟨m.entries.filter (fun e => e.1 ≠ k), m.nodup_filter k⟩

theorem notMem_keys_erase (m : AssocMap K V) (k : K) :
    k ∉ (m.entries.filter (fun e => e.1 ≠ k)).map Prod.fst := by
  simp

def set (m : AssocMap K V) (k : K) (v : V) : AssocMap K V :=
  ⟨(k, v) :: (m.erase k).entries, List.nodup_cons.mpr ⟨m.notMem_keys_erase k, (m.erase k).nodup⟩⟩

theorem find_erase_self (m : AssocMap K V) (k : K) : (m.erase k).find k = none := by
  simp [find, erase]

theorem find_erase_ne (m : AssocMap K V) {k j : K} (other : j ≠ k) :
    (m.erase k).find j = m.find j := by
  rw [find, find, erase, List.find?_filter]
  congr 1
  apply List.find?_congr
  intro e _
  by_cases same : e.1 = j <;> simp [same, other]

@[simp] theorem find_erase (m : AssocMap K V) (k j : K) :
    (m.erase k).find j = if j = k then none else m.find j := by
  split_ifs with same
  · rw [same, find_erase_self]
  · exact find_erase_ne m same

@[simp] theorem find_set (m : AssocMap K V) (k : K) (v : V) (j : K) :
    (m.set k v).find j = if j = k then some v else m.find j := by
  by_cases same : j = k
  · simp [find, set, same]
  · have differ : ¬ k = j := fun eq => same eq.symm
    have tail : (m.set k v).find j = (m.erase k).find j := by
      simp [find, set, differ]
    rw [tail, find_erase_ne m same, if_neg same]

theorem mem_of_find {m : AssocMap K V} {k : K} {v : V} (found : m.find k = some v) :
    (k, v) ∈ m.entries := by
  rw [find, Option.map_eq_some_iff] at found
  obtain ⟨e, first, rfl⟩ := found
  have key : e.1 = k := by simpa using List.find?_some first
  rw [← key]
  exact List.mem_of_find?_eq_some first

theorem find_eq_some_iff (m : AssocMap K V) {k : K} {v : V} :
    m.find k = some v ↔ (k, v) ∈ m.entries := by
  refine ⟨mem_of_find, fun inside => ?_⟩
  have present : (m.entries.find? (fun e => e.1 = k)).isSome = true :=
    List.find?_isSome.mpr ⟨(k, v), inside, decide_eq_true rfl⟩
  obtain ⟨e, first⟩ := Option.isSome_iff_exists.mp present
  have key : e.1 = k := by simpa using List.find?_some first
  have same : e = (k, v) :=
    List.inj_on_of_nodup_map m.nodup (List.mem_of_find?_eq_some first) inside key
  rw [find, first, same]
  rfl

theorem size_erase_lt {m : AssocMap K V} {k : K} {v : V} (found : m.find k = some v) :
    (m.erase k).size < m.size := by
  apply List.length_filter_lt_length_iff_exists.mpr
  exact ⟨(k, v), mem_of_find found, by simp⟩

theorem isEmpty_iff (m : AssocMap K V) : m.isEmpty = true ↔ ∀ k, m.find k = none := by
  constructor
  · intro empty k
    have nil : m.entries = [] := List.isEmpty_iff.mp empty
    simp [find, nil]
  · intro absent
    cases eq : m.entries with
    | nil => simp [isEmpty, eq]
    | cons e rest =>
        have present := absent e.1
        simp [find, eq] at present

end AssocMap
