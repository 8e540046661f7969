import Mathlib.Data.Prod.Lex
import Mathlib.Tactic
import ResDB.Common.Crypto

/-! Wire messages of the chained protocols. The five `proposal.proto` files agree
up to a few fields: `is_final` and `next_primary` belong to the slotted protocols and
`weight` to TD-HotStuff. A protocol without a field never reads or sets it, so one
record per message, with the proto3 defaults, serves all of them. -/
namespace ResDB.HotStuff

structure Transaction where
  id : Int := 0
  data : Bytes := []
  hash : Bytes := []
  proxyId : Int := 0
  proposer : Int := 0
  timestamp : ℕ := 0
  userSeq : Int := 0
  nextPrimary : Int := 0
  receptionTime : ℕ := 0
  deriving DecidableEq

structure QC where
  signatures : List SignatureInfo := []
  view : Int := 0
  hash : Bytes := []
  slot : Int := 0
  isFinal : Bool := false
  deriving DecidableEq

/-- The submessage `qc` may be absent, which the serialised bytes show although
every read of it then sees the default. -/
structure Header where
  proposerId : Int := 0
  proposalId : Int := 0
  view : Int := 0
  qcField : Option QC := none
  prehash : Bytes := []
  slot : Int := 0
  isFinal : Bool := false
  deriving DecidableEq

/-- `header().qc()`: the default instance when the field is absent. -/
def Header.qc (h : Header) : QC := h.qcField.getD {}

structure Proposal where
  header : Header := {}
  transactions : List Transaction := []
  sender : Int := 0
  hash : Bytes := []
  createtime : ℕ := 0
  deriving DecidableEq

structure Certificate where
  sign : SignatureInfo := {}
  view : Int := 0
  signer : Int := 0
  hash : Bytes := []
  slot : Int := 0
  isFinal : Bool := false
  weight : Int := 0
  deriving DecidableEq

inductive Message where
  | newProposal (proposal : Proposal)
  | vote (cert : Certificate)
  deriving DecidableEq

structure Envelope where
  nodeId : Int
  message : Message
  deriving DecidableEq

/-- The generated serialisers of the two messages that are hashed. -/
structure Codec where
  transaction : Transaction → Bytes
  header : Header → Bytes

/-- Goes with the sample cryptography: one byte for each of the fields that tell the
blocks of a short run apart. -/
def Codec.sample : Codec where
  transaction txn := txn.data
  header h := [UInt8.ofNat h.view.toNat, UInt8.ofNat h.slot.toNat, if h.isFinal then 1 else 0]

/-- `GetHash` covers the transactions and the header. It leaves out the sender and
the creation time. -/
def getHash (crypto : Crypto) (codec : Codec) (p : Proposal) : Bytes :=
  crypto.sha256 (p.transactions.flatMap codec.transaction ++ codec.header p.header)

theorem getHash_ne_nil (crypto : Crypto) (codec : Codec) (p : Proposal) :
    getHash crypto codec p ≠ [] := crypto.sha256_ne_nil _

def verifyHash (crypto : Crypto) (codec : Codec) (p : Proposal) : Bool :=
  getHash crypto codec p = p.hash

/-- No two of the proposals share a digest without sharing what it is computed from. -/
def CollisionFree (crypto : Crypto) (codec : Codec) (ps : List Proposal) : Prop :=
  ∀ p ∈ ps, ∀ q ∈ ps, getHash crypto codec p = getHash crypto codec q →
    p.header = q.header ∧ p.transactions = q.transactions

instance (crypto : Crypto) (codec : Codec) (ps : List Proposal) :
    Decidable (CollisionFree crypto codec ps) :=
  inferInstanceAs (Decidable (∀ p ∈ ps, ∀ q ∈ ps, _))

/-- Views and slots are compared lexicographically throughout. -/
abbrev Position := Int ×ₗ Int

def QC.position (qc : QC) : Position := toLex (qc.view, qc.slot)
def Header.position (h : Header) : Position := toLex (h.view, h.slot)
def Certificate.position (c : Certificate) : Position := toLex (c.view, c.slot)

theorem position_lt {v s v' s' : Int} :
    (toLex (v, s) : Position) < toLex (v', s') ↔ v < v' ∨ v = v' ∧ s < s' :=
  Prod.Lex.toLex_lt_toLex

theorem position_le {v s v' s' : Int} :
    (toLex (v, s) : Position) ≤ toLex (v', s') ↔ v < v' ∨ v = v' ∧ s ≤ s' :=
  Prod.Lex.toLex_le_toLex

/-- The certificate names the hash and the whole position of the proposal. -/
structure QC.Certifies (qc : QC) (p : Proposal) : Prop where
  hash : qc.hash = p.hash
  view : qc.view = p.header.view
  slot : qc.slot = p.header.slot
  isFinal : qc.isFinal = p.header.isFinal

instance (qc : QC) (p : Proposal) : Decidable (qc.Certifies p) :=
  decidable_of_iff (qc.hash = p.hash ∧ qc.view = p.header.view ∧ qc.slot = p.header.slot ∧
      qc.isFinal = p.header.isFinal)
    ⟨fun h => ⟨h.1, h.2.1, h.2.2.1, h.2.2.2⟩, fun h => ⟨h.hash, h.view, h.slot, h.isFinal⟩⟩

theorem QC.Certifies.position {qc : QC} {p : Proposal} (h : qc.Certifies p) :
    qc.position = p.header.position := by
  rw [QC.position, Header.position, h.view, h.slot]

end ResDB.HotStuff
