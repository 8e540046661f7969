import Mathlib.Data.List.Basic
import Mathlib.Tactic
import ResDB.Library.MachineInt

/-! The protobuf wire format. A message is written as a sequence of records, each a field number
with a varint or a byte string, in the order of the numbers and without the fields that have
their default value. Records can be read back one by one, so the bytes determine the records.
They do not tell where one message ends and the next one begins. -/
namespace Wire
open MachineInt (IsInt)

section Varint

def varint (n : ℕ) : List UInt8 :=
  if n < 128 then [UInt8.ofNat n] else UInt8.ofNat (n % 128 + 128) :: varint (n / 128)
termination_by n
decreasing_by omega

def readVarint : List UInt8 → Option (ℕ × List UInt8)
  | [] => none
  | b :: rest =>
      if b.toNat < 128 then some (b.toNat, rest)
      else match readVarint rest with
        | none => none
        | some (n, rest) => some (b.toNat - 128 + 128 * n, rest)

theorem toNat_ofNat {n : ℕ} (small : n < 256) : (UInt8.ofNat n).toNat = n :=
  UInt8.toNat_ofNat_of_lt' small

theorem readVarint_append (n : ℕ) (rest : List UInt8) :
    readVarint (varint n ++ rest) = some (n, rest) := by
  induction n using Nat.strongRecOn with
  | ind n ih =>
      rw [varint]
      by_cases small : n < 128
      · have byte : (UInt8.ofNat n).toNat = n := toNat_ofNat (by omega)
        simp only [small, if_true, List.singleton_append, readVarint, byte]
      · have byte : (UInt8.ofNat (n % 128 + 128)).toNat = n % 128 + 128 := toNat_ofNat (by omega)
        have marked : ¬n % 128 + 128 < 128 := by omega
        have whole : n % 128 + 128 - 128 + 128 * (n / 128) = n := by omega
        simp only [small, if_false, List.cons_append, readVarint, byte, marked,
          ih (n / 128) (by omega), whole]

end Varint

inductive Value
  | varint (n : ℕ)
  | bytes (string : List UInt8)
  deriving DecidableEq

structure Record where
  number : ℕ
  value : Value
  deriving DecidableEq

/-- The key has the wire type in its last three bits. -/
def Record.encode (r : Record) : List UInt8 :=
  match r.value with
  | .varint n => Wire.varint (8 * r.number) ++ Wire.varint n
  | .bytes string => Wire.varint (8 * r.number + 2) ++ (Wire.varint string.length ++ string)

def readRecord (string : List UInt8) : Option (Record × List UInt8) :=
  match readVarint string with
  | none => none
  | some (key, rest) =>
      match readVarint rest with
      | none => none
      | some (n, rest) =>
          if key % 8 = 0 then some (⟨key / 8, .varint n⟩, rest)
          else if key % 8 = 2 then some (⟨key / 8, .bytes (rest.take n)⟩, rest.drop n)
          else none

theorem readRecord_append (r : Record) (rest : List UInt8) :
    readRecord (r.encode ++ rest) = some (r, rest) := by
  obtain ⟨number, value⟩ := r
  cases value with
  | varint n =>
      have type : 8 * number % 8 = 0 := by omega
      have key : 8 * number / 8 = number := by omega
      simp only [Record.encode, List.append_assoc, readRecord, readVarint_append, type, if_true,
        key]
  | bytes string =>
      have type : (8 * number + 2) % 8 = 2 := by omega
      have key : (8 * number + 2) / 8 = number := by omega
      simp only [Record.encode, List.append_assoc, readRecord, readVarint_append, type, key,
        OfNat.ofNat_ne_zero, if_false, if_true, List.take_left, List.drop_left]

def encode (records : List Record) : List UInt8 := records.flatMap Record.encode

theorem encode_append (rs ss : List Record) : encode (rs ++ ss) = encode rs ++ encode ss :=
  List.flatMap_append

theorem readRecord_encode (rs : List Record) :
    readRecord (encode rs) = rs.head?.map (fun r => (r, encode rs.tail)) := by
  cases rs with
  | nil => rfl
  | cons r rs => exact readRecord_append r (encode rs)

theorem encode_injective : Function.Injective encode := by
  intro rs ss same
  induction rs generalizing ss with
  | nil =>
      have first := readRecord_encode ss
      rw [← same, readRecord_encode] at first
      cases ss with
      | nil => rfl
      | cons s ss => simp at first
  | cons r rs ih =>
      have first := readRecord_encode ss
      rw [← same, readRecord_encode] at first
      cases ss with
      | nil => simp at first
      | cons s ss =>
          simp only [List.head?_cons, Option.map_some, List.tail_cons, Option.some.injEq,
            Prod.mk.injEq] at first
          rw [first.1, ih first.2]

section Fields

/-- The records of the fields of a message, each with its number and its values. -/
def records (fields : List (ℕ × List Value)) : List Record :=
  fields.flatMap (fun e => e.2.map (Record.mk e.1))

theorem number_mem_of_mem_records {fields : List (ℕ × List Value)} {r : Record}
    (member : r ∈ records fields) : r.number ∈ fields.map Prod.fst := by
  obtain ⟨e, listed, inside⟩ := List.mem_flatMap.mp member
  obtain ⟨value, -, rfl⟩ := List.mem_map.mp inside
  exact List.mem_map_of_mem listed

theorem filter_records_cons {k : ℕ} {values : List Value} {fields : List (ℕ × List Value)}
    (fresh : k ∉ fields.map Prod.fst) :
    (records ((k, values) :: fields)).filter (fun r => r.number = k) =
      values.map (Record.mk k) := by
  rw [records, List.flatMap_cons, List.filter_append, List.filter_eq_self.mpr,
    List.filter_eq_nil_iff.mpr, List.append_nil]
  · intro r member numbered
    exact fresh (of_decide_eq_true numbered ▸ number_mem_of_mem_records member)
  · intro r member
    obtain ⟨value, -, rfl⟩ := List.mem_map.mp member
    exact decide_eq_true rfl

theorem records_injective (numbers : List ℕ) {es fs : List (ℕ × List Value)}
    (left : es.map Prod.fst = numbers) (right : fs.map Prod.fst = numbers)
    (distinct : numbers.Nodup) (same : records es = records fs) : es = fs := by
  induction numbers generalizing es fs with
  | nil => rw [List.map_eq_nil_iff.mp left, List.map_eq_nil_iff.mp right]
  | cons k numbers ih =>
      obtain ⟨⟨k, values⟩, es, rfl, rfl, behind⟩ := List.map_eq_cons_iff.mp left
      obtain ⟨⟨l, others⟩, fs, rfl, number, behind'⟩ := List.map_eq_cons_iff.mp right
      obtain rfl : l = k := number
      obtain ⟨fresh, distinct⟩ := List.nodup_cons.mp distinct
      have first : values.map (Record.mk l) = others.map (Record.mk l) := by
        rw [← filter_records_cons (behind ▸ fresh), same, filter_records_cons (behind' ▸ fresh)]
      have rest : records es = records fs := by
        rw [records, records, List.flatMap_cons, List.flatMap_cons, first] at same
        exact List.append_cancel_left same
      have injective : Function.Injective (Record.mk l) := fun a b h => (Record.mk.inj h).2
      rw [List.map_injective_iff.mpr injective first, ih behind behind' distinct rest]

end Fields

section Scalars

/-- A scalar field, which is left out where it has its default value. -/
def scalar {α : Type*} [DecidableEq α] (default : α) (value : α → Value) (a : α) : List Value :=
  if a = default then [] else [value a]

theorem scalar_inj {α : Type*} [DecidableEq α] {default a b : α} {value : α → Value}
    (injective : value a = value b → a = b)
    (same : scalar default value a = scalar default value b) : a = b := by
  unfold scalar at same
  split_ifs at same with left right right
  · rw [left, right]
  · exact injective (List.singleton_inj.mp same)

/-- Negative numbers are written in 64 bits, also those of 32-bit fields. -/
def int : Int → List Value := scalar 0 (fun n => .varint (n % 2 ^ 64).toNat)

def uint : ℕ → List Value := scalar 0 .varint

def bytes : List UInt8 → List Value := scalar [] .bytes

def bool : Bool → List Value := scalar false (fun b => .varint b.toNat)

/-- A submessage is written if it is present, even when it has no records. -/
def message (m : Option (List Record)) : List Value :=
  (m.map (fun m => .bytes (encode m))).toList

def repeated (ms : List (List Record)) : List Value := ms.map (fun m => .bytes (encode m))

theorem int_injective_of_isInt {m n : Int} (left : IsInt 64 m) (right : IsInt 64 n)
    (same : int m = int n) : m = n := by
  refine scalar_inj (fun codes => ?_) same
  simp only [Value.varint.injEq] at codes
  simp only [IsInt] at left right
  omega

theorem uint_injective : Function.Injective uint :=
  fun _ _ same => scalar_inj Value.varint.inj same

theorem bytes_injective : Function.Injective bytes :=
  fun _ _ same => scalar_inj Value.bytes.inj same

theorem bool_injective : Function.Injective bool := by
  intro a b same
  refine scalar_inj (fun codes => ?_) same
  cases a <;> cases b <;> first | rfl | cases codes

theorem bytes_encode_injective : Function.Injective (fun m => Value.bytes (encode m)) :=
  fun _ _ same => encode_injective (Value.bytes.inj same)

theorem message_injective : Function.Injective message := by
  intro m n same
  cases m with
  | none => cases n <;> simp_all [message]
  | some m =>
      cases n with
      | none => simp [message] at same
      | some n =>
          simp only [message, Option.map_some, Option.toList_some, List.cons.injEq,
            and_true] at same
          rw [bytes_encode_injective same]

theorem repeated_injective : Function.Injective repeated :=
  List.map_injective_iff.mpr bytes_encode_injective

end Scalars

section Typed
variable {α β : Type*} {f : α → β} {s : Set α}

theorem eq_of_map_eq (injective : Set.InjOn f s) {as bs : List α} (left : ∀ a ∈ as, a ∈ s)
    (right : ∀ b ∈ bs, b ∈ s) (same : as.map f = bs.map f) : as = bs := by
  induction as generalizing bs with
  | nil => exact (List.map_eq_nil_iff.mp same.symm).symm
  | cons a as ih =>
      cases bs with
      | nil => exact absurd same (List.cons_ne_nil _ _)
      | cons b bs =>
          obtain ⟨first, rest⟩ := List.cons.inj same
          rw [injective (left a List.mem_cons_self) (right b List.mem_cons_self) first,
            ih (fun a member => left a (List.mem_cons_of_mem _ member))
              (fun b member => right b (List.mem_cons_of_mem _ member)) rest]

theorem eq_of_option_map_eq (injective : Set.InjOn f s) {a b : Option α} (left : ∀ x ∈ a, x ∈ s)
    (right : ∀ x ∈ b, x ∈ s) (same : a.map f = b.map f) : a = b := by
  cases a with
  | none => exact (Option.map_eq_none_iff.mp same.symm).symm
  | some x =>
      cases b with
      | none => simp at same
      | some y => rw [injective (left x rfl) (right y rfl) (Option.some.inj same)]

end Typed

section Boundaries
variable {P : Record → Prop}

def Terminated (P : Record → Prop) (rs : List Record) : Prop :=
  ∃ init last, rs = init ++ [last] ∧ P last ∧ ∀ r ∈ init, ¬P r

/-- The field with the last number ends the message if it is set. -/
theorem terminated_records (fields : List (ℕ × List Value)) {k : ℕ} {value : Value}
    (fresh : k ∉ fields.map Prod.fst) :
    Terminated (fun r => r.number = k) (records (fields ++ [(k, [value])])) := by
  refine ⟨records fields, ⟨k, value⟩, ?_, rfl, ?_⟩
  · simp [records]
  · intro r member numbered
    exact fresh (numbered ▸ number_mem_of_mem_records member)

theorem append_marked_inj {init init' rest rest' : List Record} {last last' : Record}
    (clean : ∀ r ∈ init, ¬P r) (clean' : ∀ r ∈ init', ¬P r) (marked : P last)
    (marked' : P last') (same : init ++ last :: rest = init' ++ last' :: rest') :
    init = init' ∧ last = last' ∧ rest = rest' := by
  induction init generalizing init' with
  | nil =>
      cases init' with
      | nil => exact ⟨rfl, List.cons.inj same⟩
      | cons r init' =>
          exact absurd ((List.cons.inj same).1 ▸ marked) (clean' r List.mem_cons_self)
  | cons r init ih =>
      cases init' with
      | nil => exact absurd ((List.cons.inj same).1 ▸ marked') (clean r List.mem_cons_self)
      | cons r' init' =>
          obtain ⟨rfl, tail⟩ := List.cons.inj same
          obtain ⟨rfl, after⟩ := ih (fun r member => clean r (List.mem_cons_of_mem _ member))
            (fun r member => clean' r (List.mem_cons_of_mem _ member)) tail
          exact ⟨rfl, after⟩

/-- Messages that end in a marked record can be told apart in a sequence of them. -/
theorem pieces_injective {ms ns : List (List Record)} {h k : List Record}
    (terminated : ∀ m ∈ ms, Terminated P m) (terminated' : ∀ n ∈ ns, Terminated P n)
    (clean : ∀ r ∈ h, ¬P r) (clean' : ∀ r ∈ k, ¬P r)
    (same : (ms ++ [h]).flatten = (ns ++ [k]).flatten) : ms ++ [h] = ns ++ [k] := by
  induction ms generalizing ns with
  | nil =>
      cases ns with
      | nil => simpa using same
      | cons n ns =>
          obtain ⟨init, last, rfl, marked, -⟩ := terminated' n List.mem_cons_self
          have inside : last ∈ ([] ++ [h]).flatten := by
            rw [same]
            simp
          exact absurd marked (clean last (by simpa using inside))
  | cons m ms ih =>
      obtain ⟨init, last, rfl, marked, before⟩ := terminated m List.mem_cons_self
      cases ns with
      | nil =>
          have inside : last ∈ ([] ++ [k]).flatten := by
            rw [← same]
            simp
          exact absurd marked (clean' last (by simpa using inside))
      | cons n ns =>
          obtain ⟨init', last', rfl, marked', before'⟩ := terminated' n List.mem_cons_self
          simp only [List.cons_append, List.flatten_cons, List.append_assoc] at same
          obtain ⟨rfl, rfl, rest⟩ := append_marked_inj before before' marked marked' same
          rw [List.cons_append, List.cons_append,
            ih (fun m member => terminated m (List.mem_cons_of_mem _ member))
              (fun n member => terminated' n (List.mem_cons_of_mem _ member)) rest]

end Boundaries
end Wire
