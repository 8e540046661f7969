import Mathlib.Tactic
import ResDB.HotStuff.WireFormat

/-! What the hash of a proposal fixes. `GetHash` joins the serialised transactions and the
serialised header without their lengths. The digest fixes the records that are set, in their
order; it does not fix which of them belong to which transaction or to the header. -/
namespace ResDB.HotStuff

namespace Layout
variable {l : Layout} {crypto : Crypto} {p q : Proposal}

structure Typed (l : Layout) (p : Proposal) : Prop where
  transactions : ∀ t ∈ p.transactions, l.TypedTransaction t
  header : l.TypedHeader p.header

theorem typed_of_hs (typed : Hs.layout.Typed p) : TdHotstuff.layout.Typed p :=
  ⟨fun t member => (typed.transactions t member).1, typed.header.toTyped⟩

def pieces (l : Layout) (p : Proposal) : List (List Wire.Record) :=
  p.transactions.map l.transaction ++ [l.header p.header]

/-- The string that `GetHash` hashes. -/
def data (l : Layout) (p : Proposal) : Bytes :=
  p.transactions.flatMap l.codec.transaction ++ l.codec.header p.header

/-- The same records are set in both, but they are cut into messages at other places. -/
def Recut (l : Layout) (p q : Proposal) : Prop :=
  (l.pieces p).flatten = (l.pieces q).flatten ∧
    (l.pieces p).map List.length ≠ (l.pieces q).map List.length

instance (l : Layout) (p q : Proposal) : Decidable (l.Recut p q) :=
  inferInstanceAs (Decidable (_ ∧ _))

theorem data_eq (l : Layout) (p : Proposal) : l.data p = Wire.encode (l.pieces p).flatten := by
  have joined : p.transactions.flatMap l.codec.transaction =
      Wire.encode (p.transactions.map l.transaction).flatten := by
    induction p.transactions with
    | nil => rfl
    | cons t rest ih =>
        rw [List.flatMap_cons, ih, List.map_cons, List.flatten_cons, Wire.encode_append]
        rfl
  rw [data, pieces, List.flatten_append, Wire.encode_append, joined, List.flatten_singleton]
  rfl

theorem data_eq_of_records (same : (l.pieces p).flatten = (l.pieces q).flatten) :
    l.data p = l.data q := by
  rw [data_eq, data_eq, same]

theorem pieces_eq_iff (left : l.Typed p) (right : l.Typed q) :
    l.pieces p = l.pieces q ↔ p.transactions = q.transactions ∧ p.header = q.header := by
  constructor
  · intro same
    obtain ⟨transactions, header⟩ := List.append_inj' same rfl
    exact ⟨Wire.eq_of_map_eq l.transaction_injOn left.transactions right.transactions transactions,
      l.header_injOn left.header right.header (List.singleton_inj.mp header)⟩
  · rintro ⟨transactions, header⟩
    rw [pieces, pieces, transactions, header]

theorem hash_eq_iff (injective : Set.InjOn crypto.sha256 {l.data p, l.data q}) :
    getHash crypto l.codec p = getHash crypto l.codec q ↔
      (l.pieces p).flatten = (l.pieces q).flatten := by
  have digests : getHash crypto l.codec p = getHash crypto l.codec q ↔ l.data p = l.data q :=
    injective.eq_iff (Or.inl rfl) (Or.inr rfl)
  rw [digests, data_eq, data_eq, Wire.encode_injective.eq_iff]

theorem binds_iff (left : l.Typed p) (right : l.Typed q)
    (injective : Set.InjOn crypto.sha256 {l.data p, l.data q}) :
    (getHash crypto l.codec p = getHash crypto l.codec q →
      p.transactions = q.transactions ∧ p.header = q.header) ↔ ¬l.Recut p q := by
  rw [hash_eq_iff injective, ← pieces_eq_iff left right, List.eq_iff_flatten_eq, Recut]
  tauto

/-- Every transaction has the time that `ReceiveTransaction` gives it. -/
def Stamped (p : Proposal) : Prop := ∀ t ∈ p.transactions, t.receptionTime ≠ 0

instance (p : Proposal) : Decidable (Stamped p) :=
  inferInstanceAs (Decidable (∀ t ∈ p.transactions, _))

theorem not_recut_of_stamped (left : Stamped p) (right : Stamped q) : ¬l.Recut p q := by
  rintro ⟨same, cut⟩
  have ends : ∀ {p : Proposal}, Stamped p → ∀ piece ∈ p.transactions.map l.transaction,
      Wire.Terminated (fun r => r.number = l.last) piece := by
    intro p stamped piece member
    obtain ⟨t, listed, rfl⟩ := List.mem_map.mp member
    exact l.terminated t (stamped t listed)
  refine cut (congrArg _ ?_)
  exact Wire.pieces_injective (ends left) (ends right) (l.header_number p.header)
    (l.header_number q.header) same

end Layout

/-- In both protocols, equal hashes mean equal transactions and equal headers exactly unless the
two proposals set the same records cut at other places. Transactions that have a reception
time cannot be cut at other places. -/
theorem hash_binds_iff (crypto : Crypto) (p q : Proposal) :
    (TdHotstuff.layout.Typed p → TdHotstuff.layout.Typed q →
      Set.InjOn crypto.sha256 {TdHotstuff.layout.data p, TdHotstuff.layout.data q} →
      ((getHash crypto TdHotstuff.layout.codec p = getHash crypto TdHotstuff.layout.codec q →
          p.transactions = q.transactions ∧ p.header = q.header) ↔
        ¬TdHotstuff.layout.Recut p q) ∧
      (Layout.Stamped p → Layout.Stamped q → ¬TdHotstuff.layout.Recut p q)) ∧
    (Hs.layout.Typed p → Hs.layout.Typed q →
      Set.InjOn crypto.sha256 {Hs.layout.data p, Hs.layout.data q} →
      ((getHash crypto Hs.layout.codec p = getHash crypto Hs.layout.codec q →
          p.transactions = q.transactions ∧ p.header = q.header) ↔ ¬Hs.layout.Recut p q) ∧
      (Layout.Stamped p → Layout.Stamped q → ¬Hs.layout.Recut p q)) := by
  constructor
  · intro left right injective
    exact ⟨Layout.binds_iff left right injective, Layout.not_recut_of_stamped⟩
  · intro left right injective
    exact ⟨Layout.binds_iff left right injective, Layout.not_recut_of_stamped⟩

def stampedProposal (times : List ℕ) : Proposal :=
  { header := { proposerId := 1, view := 1 }
    transactions := times.map (fun time => { id := 1, receptionTime := time }) }

theorem typed_of_header {p : Proposal} (header : p.header = { proposerId := 1, view := 1 })
    (transactions : ∀ t ∈ p.transactions, t.Typed ∧ t.nextPrimary = 0) : Hs.layout.Typed p := by
  refine ⟨transactions, ?_⟩
  rw [header]
  exact ⟨⟨by decide, by decide, by decide, nofun, by decide⟩, rfl, nofun⟩

theorem stamped_hashes_bind :
    let p := stampedProposal [1]
    let q := stampedProposal [1, 2]
    (getHash .sample TdHotstuff.layout.codec p = getHash .sample TdHotstuff.layout.codec q →
      p.transactions = q.transactions ∧ p.header = q.header) ∧
    (getHash .sample Hs.layout.codec p = getHash .sample Hs.layout.codec q →
      p.transactions = q.transactions ∧ p.header = q.header) := by
  have one : Hs.layout.Typed (stampedProposal [1]) := typed_of_header rfl (by decide)
  have two : Hs.layout.Typed (stampedProposal [1, 2]) := typed_of_header rfl (by decide)
  have td : Set.InjOn Crypto.sample.sha256 {TdHotstuff.layout.data (stampedProposal [1]),
      TdHotstuff.layout.data (stampedProposal [1, 2])} := by
    rw [Set.injOn_pair]
    decide +kernel
  have hs : Set.InjOn Crypto.sample.sha256 {Hs.layout.data (stampedProposal [1]),
      Hs.layout.data (stampedProposal [1, 2])} := by
    rw [Set.injOn_pair]
    decide +kernel
  obtain ⟨tdBinds, hsBinds⟩ := hash_binds_iff .sample (stampedProposal [1]) (stampedProposal [1, 2])
  obtain ⟨tdIff, tdStamped⟩ := tdBinds (Layout.typed_of_hs one) (Layout.typed_of_hs two) td
  obtain ⟨hsIff, hsStamped⟩ := hsBinds one two hs
  exact ⟨tdIff.mpr (tdStamped (by decide) (by decide)),
    hsIff.mpr (hsStamped (by decide) (by decide))⟩

/-- One transaction with a number and data, and the same fields as two transactions. -/
def wholeProposal : Proposal :=
  { header := { proposerId := 1, view := 1 }, transactions := [{ id := 1, data := [5] }] }

def cutProposal : Proposal :=
  { header := { proposerId := 1, view := 1 }, transactions := [{ id := 1 }, { data := [5] }] }

/-- The two share their hash, whatever the hash function. -/
theorem cut_transaction_same_hash :
    (∀ crypto, getHash crypto TdHotstuff.layout.codec wholeProposal =
      getHash crypto TdHotstuff.layout.codec cutProposal) ∧
    (∀ crypto, getHash crypto Hs.layout.codec wholeProposal =
      getHash crypto Hs.layout.codec cutProposal) ∧
    Hs.layout.Typed wholeProposal ∧ Hs.layout.Typed cutProposal ∧
    wholeProposal.transactions ≠ cutProposal.transactions := by
  refine ⟨fun crypto => ?_, fun crypto => ?_, typed_of_header rfl (by decide),
    typed_of_header rfl (by decide), by decide⟩
  · exact congrArg crypto.sha256 (Layout.data_eq_of_records (by decide))
  · exact congrArg crypto.sha256 (Layout.data_eq_of_records (by decide))

end ResDB.HotStuff
