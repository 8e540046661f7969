import Mathlib.Logic.Encodable.Basic
import Mathlib.Tactic

/-! Texts for the elements of a type, short ones for those of a table: a text has as many bytes,
all of them 1, as the element has in its code. It is read back as the element, and a text with
another byte in it is none. -/
namespace TableCode
variable {α : Type*} [DecidableEq α] [Encodable α] (table : List α)

def code (a : α) : ℕ :=
  if a ∈ table then table.idxOf a else table.length + Encodable.encode a

def ofCode (n : ℕ) : Option α :=
  if n < table.length then table[n]? else Encodable.decode (n - table.length)

def serialize (a : α) : List UInt8 := List.replicate (code table a) 1

def parse (text : List UInt8) : Option α :=
  if text = List.replicate text.length 1 then ofCode table text.length else none

theorem ofCode_code (a : α) : ofCode table (code table a) = some a := by
  by_cases listed : a ∈ table
  · have inside : table.idxOf a < table.length := List.idxOf_lt_length_iff.mpr listed
    rw [code, if_pos listed, ofCode, if_pos inside, List.getElem?_eq_getElem inside,
      List.getElem_idxOf]
  · have behind : ¬table.length + Encodable.encode a < table.length := by omega
    rw [code, if_neg listed, ofCode, if_neg behind, Nat.add_sub_cancel_left, Encodable.encodek]

theorem parse_serialize (a : α) : parse table (serialize table a) = some a := by
  rw [parse, serialize, List.length_replicate, if_pos rfl, ofCode_code]

end TableCode
