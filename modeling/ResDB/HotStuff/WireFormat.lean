import Mathlib.Tactic
import ResDB.HotStuff.Message
import ResDB.Library.Wire

/-! The messages of `proposal.proto` in the wire format. The files of the protocols have the same
fields up to those at the end, so that each message is given by its common fields and a tail. -/
namespace ResDB
open MachineInt (IsInt)

def HashType.number : HashType → ℕ
  | .none => 0
  | .rsa => 1
  | .ed25519 => 2
  | .cmacAes => 3
  | .ecdsa => 4

theorem HashType.number_injective : Function.Injective HashType.number := by
  intro a b same
  cases a <;> cases b <;> first | rfl | cases same

def SignatureInfo.Typed (info : SignatureInfo) : Prop := IsInt 64 info.nodeId

def SignatureInfo.fields (info : SignatureInfo) : List (ℕ × List Wire.Value) :=
  [(1, Wire.uint info.hashType.number), (2, Wire.int info.nodeId), (3, Wire.bytes info.signature)]

def SignatureInfo.records (info : SignatureInfo) : List Wire.Record := Wire.records info.fields

theorem SignatureInfo.records_injOn : Set.InjOn SignatureInfo.records {info | info.Typed} := by
  intro a left b right same
  have fields : a.fields = b.fields := Wire.records_injective [1, 2, 3] rfl rfl (by decide) same
  simp only [SignatureInfo.fields, List.cons.injEq, Prod.mk.injEq, true_and, and_true] at fields
  obtain ⟨hashType, nodeId, signature⟩ := fields
  obtain ⟨_, _, _⟩ := a
  obtain ⟨_, _, _⟩ := b
  simp only [SignatureInfo.mk.injEq]
  exact ⟨HashType.number_injective (Wire.uint_injective hashType),
    Wire.int_injective_of_isInt left right nodeId, Wire.bytes_injective signature⟩

namespace HotStuff

structure Transaction.Typed (t : Transaction) : Prop where
  id : IsInt 32 t.id
  proxyId : IsInt 32 t.proxyId
  proposer : IsInt 32 t.proposer
  timestamp : t.timestamp < 2 ^ 64
  userSeq : IsInt 64 t.userSeq
  nextPrimary : IsInt 32 t.nextPrimary
  receptionTime : t.receptionTime < 2 ^ 64

instance (t : Transaction) : Decidable t.Typed :=
  decidable_of_iff (IsInt 32 t.id ∧ IsInt 32 t.proxyId ∧ IsInt 32 t.proposer ∧
      t.timestamp < 2 ^ 64 ∧ IsInt 64 t.userSeq ∧ IsInt 32 t.nextPrimary ∧
      t.receptionTime < 2 ^ 64)
    ⟨fun ⟨a, b, c, d, e, f, g⟩ => ⟨a, b, c, d, e, f, g⟩,
      fun ⟨a, b, c, d, e, f, g⟩ => ⟨a, b, c, d, e, f, g⟩⟩

structure QC.Typed (qc : QC) : Prop where
  signatures : ∀ info ∈ qc.signatures, info.Typed
  view : IsInt 32 qc.view
  slot : IsInt 32 qc.slot

structure Header.Typed (h : Header) : Prop where
  proposerId : IsInt 32 h.proposerId
  proposalId : IsInt 32 h.proposalId
  view : IsInt 32 h.view
  qc : ∀ qc ∈ h.qcField, qc.Typed
  slot : IsInt 32 h.slot

section Fields
variable (tail : List (ℕ × List Wire.Value))

def transactionFields (t : Transaction) : List (ℕ × List Wire.Value) :=
  [(1, Wire.int t.id), (2, Wire.bytes t.data), (3, Wire.bytes t.hash), (4, Wire.int t.proxyId),
    (5, Wire.int t.proposer), (6, Wire.uint t.timestamp), (7, Wire.int t.userSeq)] ++ tail

def qcFields (qc : QC) : List (ℕ × List Wire.Value) :=
  [(1, Wire.repeated (qc.signatures.map SignatureInfo.records)), (2, Wire.int qc.view),
    (3, Wire.bytes qc.hash), (4, Wire.int qc.slot)] ++ tail

def headerFields (qcRecords : QC → List Wire.Record) (h : Header) : List (ℕ × List Wire.Value) :=
  [(1, Wire.int h.proposerId), (2, Wire.int h.proposalId), (3, Wire.int h.view),
    (4, Wire.message (h.qcField.map qcRecords)), (5, Wire.bytes h.prehash),
    (6, Wire.int h.slot)] ++ tail

variable {tail} {tail' : List (ℕ × List Wire.Value)}

theorem eq_of_int_eq {m n : Int} (left : IsInt 32 m) (right : IsInt 32 n)
    (same : Wire.int m = Wire.int n) : m = n :=
  Wire.int_injective_of_isInt (left.mono (by omega)) (right.mono (by omega)) same

theorem transactionFields_inj {t u : Transaction} (left : t.Typed) (right : u.Typed)
    (same : transactionFields tail t = transactionFields tail' u) :
    { t with nextPrimary := 0, receptionTime := 0 } =
      { u with nextPrimary := 0, receptionTime := 0 } ∧ tail = tail' := by
  simp only [transactionFields, List.cons_append, List.nil_append, List.cons.injEq,
    Prod.mk.injEq, true_and] at same
  obtain ⟨id, data, hash, proxyId, proposer, timestamp, userSeq, rest⟩ := same
  refine ⟨?_, rest⟩
  rw [Transaction.mk.injEq]
  exact ⟨eq_of_int_eq left.id right.id id, Wire.bytes_injective data, Wire.bytes_injective hash,
    eq_of_int_eq left.proxyId right.proxyId proxyId,
    eq_of_int_eq left.proposer right.proposer proposer, Wire.uint_injective timestamp,
    Wire.int_injective_of_isInt left.userSeq right.userSeq userSeq, rfl, rfl⟩

theorem qcFields_inj {a b : QC} (left : a.Typed) (right : b.Typed)
    (same : qcFields tail a = qcFields tail' b) :
    { a with isFinal := false } = { b with isFinal := false } ∧ tail = tail' := by
  simp only [qcFields, List.cons_append, List.nil_append, List.cons.injEq, Prod.mk.injEq,
    true_and] at same
  obtain ⟨signatures, view, hash, slot, rest⟩ := same
  refine ⟨?_, rest⟩
  rw [QC.mk.injEq]
  exact ⟨Wire.eq_of_map_eq SignatureInfo.records_injOn left.signatures right.signatures
      (Wire.repeated_injective signatures),
    eq_of_int_eq left.view right.view view, Wire.bytes_injective hash,
    eq_of_int_eq left.slot right.slot slot, rfl⟩

theorem headerFields_inj {qcRecords : QC → List Wire.Record} {typedQC : Set QC}
    (injective : Set.InjOn qcRecords typedQC) {g h : Header} (left : g.Typed) (right : h.Typed)
    (leftQC : ∀ qc ∈ g.qcField, qc ∈ typedQC) (rightQC : ∀ qc ∈ h.qcField, qc ∈ typedQC)
    (same : headerFields tail qcRecords g = headerFields tail' qcRecords h) :
    { g with isFinal := false } = { h with isFinal := false } ∧ tail = tail' := by
  simp only [headerFields, List.cons_append, List.nil_append, List.cons.injEq, Prod.mk.injEq,
    true_and] at same
  obtain ⟨proposerId, proposalId, view, qc, prehash, slot, rest⟩ := same
  refine ⟨?_, rest⟩
  rw [Header.mk.injEq]
  exact ⟨eq_of_int_eq left.proposerId right.proposerId proposerId,
    eq_of_int_eq left.proposalId right.proposalId proposalId,
    eq_of_int_eq left.view right.view view,
    Wire.eq_of_option_map_eq injective leftQC rightQC (Wire.message_injective qc),
    Wire.bytes_injective prehash, eq_of_int_eq left.slot right.slot slot, rfl⟩

end Fields

/-- How a protocol writes the two messages under the hash of a proposal. `TypedTransaction` and
`TypedHeader` hold of the values that its message types have. -/
structure Layout where
  transaction : Transaction → List Wire.Record
  header : Header → List Wire.Record
  TypedTransaction : Transaction → Prop
  TypedHeader : Header → Prop
  transaction_injOn : Set.InjOn transaction {t | TypedTransaction t}
  header_injOn : Set.InjOn header {h | TypedHeader h}
  /-- The number of `reception_time`, the last field of a transaction. -/
  last : ℕ
  terminated : ∀ t : Transaction, t.receptionTime ≠ 0 →
    Wire.Terminated (fun r => r.number = last) (transaction t)
  header_number : ∀ h, ∀ r ∈ header h, r.number ≠ last

def Layout.codec (l : Layout) : Codec where
  transaction t := Wire.encode (l.transaction t)
  header h := Wire.encode (l.header h)

end HotStuff

namespace TdHotstuff
open HotStuff

def transactionRecords (t : Transaction) : List Wire.Record :=
  Wire.records (transactionFields
    [(8, Wire.int t.nextPrimary), (9, Wire.uint t.receptionTime)] t)

def qcRecords (qc : QC) : List Wire.Record :=
  Wire.records (qcFields [(5, Wire.bool qc.isFinal)] qc)

def headerRecords (h : Header) : List Wire.Record :=
  Wire.records (headerFields [(7, Wire.bool h.isFinal)] qcRecords h)

theorem transactionRecords_injOn : Set.InjOn transactionRecords {t | t.Typed} := by
  intro t left u right same
  have fields := Wire.records_injective [1, 2, 3, 4, 5, 6, 7, 8, 9] rfl rfl (by decide) same
  obtain ⟨common, rest⟩ := transactionFields_inj left right fields
  simp only [List.cons.injEq, Prod.mk.injEq, true_and, and_true] at rest
  have nextPrimary := eq_of_int_eq left.nextPrimary right.nextPrimary rest.1
  have receptionTime := Wire.uint_injective rest.2
  cases t
  cases u
  simp_all

theorem qcRecords_injOn : Set.InjOn qcRecords {qc | qc.Typed} := by
  intro a left b right same
  have fields := Wire.records_injective [1, 2, 3, 4, 5] rfl rfl (by decide) same
  obtain ⟨common, rest⟩ := qcFields_inj left right fields
  simp only [List.cons.injEq, Prod.mk.injEq, true_and, and_true] at rest
  have isFinal := Wire.bool_injective rest
  cases a
  cases b
  simp_all

theorem headerRecords_injOn : Set.InjOn headerRecords {h | h.Typed} := by
  intro g left h right same
  have fields := Wire.records_injective [1, 2, 3, 4, 5, 6, 7] rfl rfl (by decide) same
  obtain ⟨common, rest⟩ := headerFields_inj qcRecords_injOn left right left.qc right.qc fields
  simp only [List.cons.injEq, Prod.mk.injEq, true_and, and_true] at rest
  have isFinal := Wire.bool_injective rest
  cases g
  cases h
  simp_all

def layout : Layout where
  transaction := transactionRecords
  header := headerRecords
  TypedTransaction t := t.Typed
  TypedHeader h := h.Typed
  transaction_injOn := transactionRecords_injOn
  header_injOn := headerRecords_injOn
  last := 9
  terminated := by
    intro t stamped
    rw [transactionRecords, Wire.uint, Wire.scalar, if_neg stamped]
    exact Wire.terminated_records (transactionFields [(8, Wire.int t.nextPrimary)] t)
      (show 9 ∉ [1, 2, 3, 4, 5, 6, 7, 8] by decide)
  header_number := by
    intro h r member numbered
    have listed : r.number ∈ [1, 2, 3, 4, 5, 6, 7] := Wire.number_mem_of_mem_records member
    rw [numbered] at listed
    exact absurd listed (by decide)

end TdHotstuff

namespace Hs
open HotStuff

def transactionRecords (t : Transaction) : List Wire.Record :=
  Wire.records (transactionFields [(8, Wire.uint t.receptionTime)] t)

def qcRecords (qc : QC) : List Wire.Record := Wire.records (qcFields [] qc)

def headerRecords (h : Header) : List Wire.Record := Wire.records (headerFields [] qcRecords h)

theorem transactionRecords_injOn :
    Set.InjOn transactionRecords {t | t.Typed ∧ t.nextPrimary = 0} := by
  rintro t ⟨left, unset⟩ u ⟨right, unset'⟩ same
  have fields := Wire.records_injective [1, 2, 3, 4, 5, 6, 7, 8] rfl rfl (by decide) same
  obtain ⟨common, rest⟩ := transactionFields_inj left right fields
  simp only [List.cons.injEq, Prod.mk.injEq, true_and, and_true] at rest
  have receptionTime := Wire.uint_injective rest
  cases t
  cases u
  simp_all

theorem qcRecords_injOn : Set.InjOn qcRecords {qc | qc.Typed ∧ qc.isFinal = false} := by
  rintro a ⟨left, unset⟩ b ⟨right, unset'⟩ same
  have fields := Wire.records_injective [1, 2, 3, 4] rfl rfl (by decide) same
  obtain ⟨common, -⟩ := qcFields_inj left right fields
  cases a
  cases b
  simp_all

/-- The message types of HotStuff have no `is_final`. -/
structure TypedHeader (h : Header) : Prop extends h.Typed where
  isFinal : h.isFinal = false
  qcFinal : ∀ qc ∈ h.qcField, qc.isFinal = false

theorem headerRecords_injOn : Set.InjOn headerRecords {h | TypedHeader h} := by
  intro g left h right same
  have fields := Wire.records_injective [1, 2, 3, 4, 5, 6] rfl rfl (by decide) same
  obtain ⟨common, -⟩ := headerFields_inj qcRecords_injOn left.toTyped right.toTyped
    (fun qc member => ⟨left.qc qc member, left.qcFinal qc member⟩)
    (fun qc member => ⟨right.qc qc member, right.qcFinal qc member⟩) fields
  have unset := left.isFinal
  have unset' := right.isFinal
  cases g
  cases h
  simp_all

def layout : Layout where
  transaction := transactionRecords
  header := headerRecords
  TypedTransaction t := t.Typed ∧ t.nextPrimary = 0
  TypedHeader := TypedHeader
  transaction_injOn := transactionRecords_injOn
  header_injOn := headerRecords_injOn
  last := 8
  terminated := by
    intro t stamped
    rw [transactionRecords, Wire.uint, Wire.scalar, if_neg stamped]
    exact Wire.terminated_records (transactionFields [] t)
      (show 8 ∉ [1, 2, 3, 4, 5, 6, 7] by decide)
  header_number := by
    intro h r member numbered
    have listed : r.number ∈ [1, 2, 3, 4, 5, 6] := Wire.number_mem_of_mem_records member
    rw [numbered] at listed
    exact absurd listed (by decide)

end Hs
end ResDB
