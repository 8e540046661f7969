import Mathlib.Data.List.Sort
import Mathlib.Tactic
import ResDB.HotStuff.Message

/-! The parts of `ReceiveCertificate` that the slotted protocols spell identically:
the stale-vote test, the nested map `receive_`, and the certificate read off it. -/
namespace ResDB.HotStuff

/-- An `int` compared with or stored in a `uint64_t` wraps when it is negative. -/
def asUInt64 (i : Int) : Int := if i < 0 then i + 2 ^ 64 else i

theorem asUInt64_of_nonneg {i : Int} (nonneg : 0 ≤ i) : asUInt64 i = i := by
  rw [asUInt64, if_neg (not_lt.mpr nonneg)]

/-- The position of a certificate as `min_view_` and `min_slot_` hold it. -/
def unsignedPosition (qc : QC) : Position := toLex (asUInt64 qc.view, asUInt64 qc.slot)

/-- Votes at or below the position of the last formed certificate are dropped. -/
def isStale (minView minSlot : Int) (cert : Certificate) : Bool :=
  asUInt64 cert.view < minView ∨
    (asUInt64 cert.view = minView ∧ asUInt64 cert.slot ≤ minSlot)

theorem isStale_of_le {minView minSlot : Int} {cert : Certificate} (view : 0 ≤ cert.view)
    (slot : 0 ≤ cert.slot) (below : cert.position ≤ toLex (minView, minSlot)) :
    isStale minView minSlot cert = true := by
  rw [Certificate.position, position_le] at below
  rw [isStale, asUInt64_of_nonneg view, asUInt64_of_nonneg slot, decide_eq_true_iff]
  exact below

theorem isStale_eq_false_iff {minView minSlot : Int} {cert : Certificate} :
    isStale minView minSlot cert = false ↔
      (toLex (minView, minSlot) : Position) < toLex (asUInt64 cert.view, asUInt64 cert.slot) := by
  rw [position_lt, isStale, decide_eq_false_iff_not]
  omega

/-- `receive_`: for each view and hash a map keyed by the declared signer, kept as its
certificates in ascending order of the key. -/
abbrev VoteStore := Int → Bytes → List Certificate

/-- `std::map::insert` does nothing when the key is present. -/
def insertSigner (certs : List Certificate) (cert : Certificate) : List Certificate :=
  if certs.any (fun c => c.signer = cert.signer) then certs
  else certs.orderedInsert (fun a b => a.signer ≤ b.signer) cert

def VoteStore.insert (store : VoteStore) (cert : Certificate) : VoteStore := fun v h =>
  if v = cert.view ∧ h = cert.hash then insertSigner (store v h) cert else store v h

/-- The certificate over what is stored for a vote's view and hash. View, slot and
finality are copied from this one vote. -/
def formQC (store : VoteStore) (cert : Certificate) : QC :=
  { hash := cert.hash
    view := cert.view
    slot := cert.slot
    isFinal := cert.isFinal
    signatures := (store cert.view cert.hash).map Certificate.sign }

theorem mem_insertSigner {certs : List Certificate} {cert c : Certificate}
    (member : c ∈ insertSigner certs cert) : c = cert ∨ c ∈ certs := by
  unfold insertSigner at member
  split_ifs at member with known
  · exact .inr member
  · exact (List.mem_orderedInsert _).mp member

theorem mem_insertSigner_of_mem {certs : List Certificate} {cert c : Certificate}
    (member : c ∈ certs) : c ∈ insertSigner certs cert := by
  unfold insertSigner
  split_ifs
  · exact member
  · exact (List.mem_orderedInsert _).mpr (.inr member)

theorem length_insertSigner_le (certs : List Certificate) (cert : Certificate) :
    (insertSigner certs cert).length ≤ certs.length + 1 := by
  unfold insertSigner
  split_ifs
  · exact Nat.le_succ _
  · exact (List.orderedInsert_length _ _ _).le

theorem exists_signer_insertSigner (certs : List Certificate) (cert : Certificate) :
    ∃ c ∈ insertSigner certs cert, c.signer = cert.signer := by
  unfold insertSigner
  split_ifs with known
  · obtain ⟨c, member, same⟩ := List.any_eq_true.mp known
    exact ⟨c, member, of_decide_eq_true same⟩
  · exact ⟨cert, (List.mem_orderedInsert _).mpr (.inl rfl), rfl⟩

theorem insertSigner_perm {certs : List Certificate} {cert : Certificate}
    (fresh : ∀ c ∈ certs, c.signer ≠ cert.signer) :
    (insertSigner certs cert).Perm (cert :: certs) := by
  have unknown : ¬(certs.any (fun c => c.signer = cert.signer)) = true := by
    rw [List.any_eq_true]
    rintro ⟨c, member, same⟩
    exact fresh c member (of_decide_eq_true same)
  rw [insertSigner, if_neg unknown]
  exact List.perm_orderedInsert _ _ _

theorem VoteStore.mem_insert {store : VoteStore} {cert c : Certificate} {v : Int} {h : Bytes}
    (member : c ∈ store.insert cert v h) :
    (v = cert.view ∧ h = cert.hash ∧ c = cert) ∨ c ∈ store v h := by
  unfold VoteStore.insert at member
  split_ifs at member with here
  · rcases mem_insertSigner member with same | old
    · exact .inl ⟨here.1, here.2, same⟩
    · exact .inr old
  · exact .inr member

end ResDB.HotStuff
