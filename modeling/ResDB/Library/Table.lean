import Mathlib.Data.List.Nodup
import Mathlib.Tactic

/-! Tables with a primary key: rows in the order they were inserted, no two of them under one
key, with the statements that select, insert, change and delete rows. -/

/-- The keys are distinct by construction, so a key names at most one row. -/
structure Table {ρ κ : Type*} (key : ρ → κ) where
  rows : List ρ
  distinct : (rows.map key).Nodup

namespace Table
variable {ρ κ : Type*} {key : ρ → κ}

instance : EmptyCollection (Table key) := ⟨⟨[], List.nodup_nil⟩⟩

def Fresh (t : Table key) (k : κ) : Prop := k ∉ t.rows.map key

instance decidableFresh [DecidableEq κ] (t : Table key) (k : κ) : Decidable (t.Fresh k) :=
  inferInstanceAs (Decidable (k ∉ t.rows.map key))

theorem fresh_iff {t : Table key} {k : κ} : t.Fresh k ↔ ∀ row ∈ t.rows, key row ≠ k := by
  rw [Fresh, List.mem_map]
  exact ⟨fun fresh row member same => fresh ⟨row, member, same⟩,
    fun other ⟨row, member, same⟩ => other row member same⟩

theorem distinct_append {t : Table key} {row : ρ} (fresh : t.Fresh (key row)) :
    ((t.rows ++ [row]).map key).Nodup := by
  rw [List.map_append, List.map_singleton]
  refine List.nodup_append.mpr ⟨t.distinct, List.nodup_singleton _, ?_⟩
  rintro k old k' new rfl
  exact fresh (List.mem_singleton.mp new ▸ old)

theorem map_key_change {change : ρ → ρ} (keeps : ∀ row, key (change row) = key row)
    (rows : List ρ) (hit : ρ → Bool) :
    (rows.map (fun row => if hit row then change row else row)).map key = rows.map key := by
  rw [List.map_map]
  apply List.map_congr_left
  intro row _
  by_cases met : hit row = true
  · simp only [Function.comp, met, if_true, keeps]
  · simp only [Function.comp, met, Bool.false_eq_true, if_false]

theorem distinct_change {t : Table key} {change : ρ → ρ}
    (keeps : ∀ row, key (change row) = key row) (hit : ρ → Bool) :
    ((t.rows.map (fun row => if hit row then change row else row)).map key).Nodup := by
  rw [map_key_change keeps]
  exact t.distinct

theorem distinct_filter (t : Table key) (keep : ρ → Bool) :
    ((t.rows.filter keep).map key).Nodup :=
  t.distinct.sublist (List.filter_sublist.map key)

section Statements
variable (t : Table key)

def find [DecidableEq κ] (k : κ) : Option ρ := t.rows.find? (fun row => key row = k)

def insert [DecidableEq κ] (row : ρ) : Option (Table key) :=
  if fresh : t.Fresh (key row) then some ⟨t.rows ++ [row], distinct_append fresh⟩ else none

/-- `UPDATE` of the rows that are hit, in columns that are not of the key. -/
def update (hit : ρ → Bool) (change : ρ → ρ) (keeps : ∀ row, key (change row) = key row) :
    Table key :=
  ⟨t.rows.map (fun row => if hit row then change row else row), distinct_change keeps hit⟩

def delete (hit : ρ → Bool) : Table key :=
  ⟨t.rows.filter (fun row => !hit row), t.distinct_filter _⟩

end Statements

section Rules
variable {t t' : Table key} {k : κ} {row : ρ}

theorem eq_of_key {other : ρ} (member : row ∈ t.rows) (member' : other ∈ t.rows)
    (same : key row = key other) : row = other :=
  List.inj_on_of_nodup_map t.distinct member member' same

theorem find_some [DecidableEq κ] (found : t.find k = some row) : row ∈ t.rows ∧ key row = k :=
  ⟨List.mem_of_find?_eq_some found, by simpa using List.find?_some found⟩

theorem find_eq_some_iff [DecidableEq κ] :
    t.find k = some row ↔ row ∈ t.rows ∧ key row = k := by
  refine ⟨find_some, ?_⟩
  rintro ⟨member, rfl⟩
  cases found : t.find (key row) with
  | none => exact absurd (decide_eq_true rfl) (List.find?_eq_none.mp found row member)
  | some first => rw [eq_of_key (find_some found).1 member (find_some found).2]

theorem find_eq_none_iff [DecidableEq κ] : t.find k = none ↔ t.Fresh k := by
  rw [find, List.find?_eq_none, fresh_iff]
  simp only [decide_eq_true_eq, ne_eq]

theorem insert_eq_some [DecidableEq κ] (inserted : t.insert row = some t') :
    t.Fresh (key row) ∧ t'.rows = t.rows ++ [row] := by
  unfold insert at inserted
  split at inserted
  · cases inserted
    exact ⟨‹_›, rfl⟩
  · cases inserted

theorem fresh_update {hit : ρ → Bool} {change : ρ → ρ}
    {keeps : ∀ row, key (change row) = key row} :
    (t.update hit change keeps).Fresh k ↔ t.Fresh k := by
  rw [Fresh, Fresh, update, map_key_change keeps]

theorem mem_delete {hit : ρ → Bool} :
    row ∈ (t.delete hit).rows ↔ row ∈ t.rows ∧ hit row = false := by
  rw [delete, List.mem_filter, Bool.not_eq_true']

end Rules
end Table
