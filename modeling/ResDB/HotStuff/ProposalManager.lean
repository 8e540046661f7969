import Mathlib.Tactic
import ResDB.Library.AssocMap
import ResDB.HotStuff.Message

/-! `ProposalManager`: the certificates and blocks a replica keeps. The part that
every chained protocol shares comes first, then the slotted variants of `SafeNode`,
`AddQC` and `AddProposal`, which TD-HotStuff and slotted HotStuff-1 spell identically.
Views and slots are the source's `int`s, read as integers. -/
namespace ResDB.HotStuff

/-- The mutable members of `ProposalManager`. The two plain certificates start as
proto3 defaults, so at view 0. -/
structure ProposalManager where
  round : Int := 1
  localBlock : AssocMap Bytes Proposal := ∅
  genericQC : QC := {}
  lockQC : QC := {}
  fakeGenericQC : QC := {}

/-- `GetLeader` of the protocols that rotate the leader, with the C++ remainder. -/
def roundRobin (totalNum : ℕ) (view : Int) : Int := view.tmod totalNum + 1

/-- The common body of `GenerateProposal` and `GenerateFakeProposal`: they differ in
the certificate they extend. A certificate without a hash leaves both link fields unset. -/
def generateWith (crypto : Crypto) (codec : Codec) (id round : Int) (qc : QC)
    (txns : List Transaction) (slot : Int) (isFinal : Bool) (now : ℕ) : Proposal :=
  let linked : Header := if qc.hash.isEmpty then {} else { prehash := qc.hash, qcField := some qc }
  let p : Proposal :=
    { header := { linked with view := round, slot := slot, isFinal := isFinal }
      transactions := txns
      sender := id
      createtime := now }
  { p with hash := getHash crypto codec p }

/-- The common body of `Verify`. Proposals of view 1 pass on their hash alone. -/
def verifyWith (crypto : Crypto) (codec : Codec) (safe : Bool) (verifyQC : QC → Bool)
    (p : Proposal) : Bool :=
  if !verifyHash crypto codec p then false
  else if p.header.view = 1 then true
  else if !safe then false
  else verifyQC p.header.qc

/-- `VerifyQC` of the protocols that count signatures. -/
def verifyCount (crypto : Crypto) (limitCount : ℕ) (qc : QC) : Bool :=
  if qc.signatures.length < limitCount then false
  else qc.signatures.all (crypto.verifyMessage qc.hash)

theorem verifyWith_hash {crypto : Crypto} {codec : Codec} {safe : Bool} {verifyQC : QC → Bool}
    {p : Proposal} (ok : verifyWith crypto codec safe verifyQC p = true) :
    p.hash = getHash crypto codec p := by
  unfold verifyWith verifyHash at ok
  split_ifs at ok with bad
  all_goals simpa using Eq.symm (by simpa using bad)

theorem verifyWith_qc {crypto : Crypto} {codec : Codec} {safe : Bool} {verifyQC : QC → Bool}
    {p : Proposal} (ok : verifyWith crypto codec safe verifyQC p = true)
    (later : p.header.view ≠ 1) : safe = true ∧ verifyQC p.header.qc = true := by
  unfold verifyWith at ok
  split_ifs at ok with _ below
  exact ⟨by simpa using below, ok⟩

theorem verifyWith_view_one {crypto : Crypto} {codec : Codec} {safe : Bool}
    {verifyQC : QC → Bool} {p : Proposal} (hash : p.hash = getHash crypto codec p)
    (one : p.header.view = 1) : verifyWith crypto codec safe verifyQC p = true := by
  simp [verifyWith, verifyHash, hash, one]

theorem verifyWith_iff {crypto : Crypto} {codec : Codec} {safe : Bool} {verifyQC : QC → Bool}
    {p : Proposal} : verifyWith crypto codec safe verifyQC p = true ↔
      p.hash = getHash crypto codec p ∧
        (p.header.view = 1 ∨ safe = true ∧ verifyQC p.header.qc = true) := by
  constructor
  · intro ok
    refine ⟨verifyWith_hash ok, ?_⟩
    by_cases one : p.header.view = 1
    · exact .inl one
    · exact .inr (verifyWith_qc ok one)
  · rintro ⟨hash, one | ⟨below, valid⟩⟩
    · exact verifyWith_view_one hash one
    · simp [verifyWith, verifyHash, ← hash, below, valid]

section Generate
variable (crypto : Crypto) (codec : Codec) (id round : Int) (qc : QC) (txns : List Transaction)
  (slot : Int) (isFinal : Bool) (now : ℕ)

theorem generateWith_root (empty : qc.hash = []) :
    (generateWith crypto codec id round qc txns slot isFinal now).header.prehash = [] ∧
      (generateWith crypto codec id round qc txns slot isFinal now).header.qcField = none := by
  simp [generateWith, empty]

theorem generateWith_link (named : qc.hash ≠ []) :
    (generateWith crypto codec id round qc txns slot isFinal now).header.prehash = qc.hash ∧
      (generateWith crypto codec id round qc txns slot isFinal now).header.qcField = some qc := by
  simp [generateWith, List.isEmpty_iff, named]

end Generate

namespace ProposalManager

def getProposal (m : ProposalManager) (hash : Bytes) : Option Proposal := m.localBlock.find hash

/-- `FetchProposal` hands the stored block out and forgets it. -/
def fetchProposal (m : ProposalManager) (hash : Bytes) : ProposalManager × Option Proposal :=
  match m.localBlock.find hash with
  | none => (m, none)
  | some p => ({ m with localBlock := m.localBlock.erase hash }, some p)

/-! ### The slotted protocols -/

/-- `SafeNode`: the proposal's certificate is not older than the lock. -/
def safeNode (m : ProposalManager) (p : Proposal) : Bool :=
  if m.lockQC.view < p.header.qc.view then true
  else if p.header.qc.view = m.lockQC.view ∧ m.lockQC.slot ≤ p.header.qc.slot then true
  else false

/-- `AddQC`. The two attack parameters make some leaders ignore or hide a final
certificate; with both at 0 a newer certificate is always adopted. The round is taken as a
number here, and as the `int` it is where its bound matters. -/
def addQC (getLeader : Int → Int) (id forkTailNum rollbackNum : Int) (m : ProposalManager)
    (qc : QC) : ProposalManager :=
  if m.genericQC.view = 0 ∨ m.genericQC.view < qc.view ∨
      (m.genericQC.view = qc.view ∧ m.genericQC.slot < qc.slot) then
    let leader := getLeader qc.view
    let victim := leader < 3 * forkTailNum ∧ leader.tmod 3 = 1 ∧ qc.isFinal = true
    let m := if ¬victim then { m with genericQC := qc } else m
    let m :=
      if forkTailNum ≠ 0 then
        if ¬victim then { m with genericQC := qc } else m
      else if rollbackNum ≠ 0 then
        if id < 3 * rollbackNum ∧ id.tmod 3 = 1 ∧ qc.isFinal = true then
          { m with fakeGenericQC := qc }
        else { m with genericQC := qc }
      else { m with genericQC := qc }
    if qc.isFinal then { m with round := qc.view + 1 } else m
  else m

/-- First step of `AddProposal`: adopt and lock the carried certificate unless it is
older than the highest known one. -/
def adoptQC (m : ProposalManager) (qc : QC) : ProposalManager :=
  if m.genericQC.view < qc.view ∨
      (m.genericQC.view = qc.view ∧ m.genericQC.slot ≤ qc.slot) then
    { m with genericQC := qc, lockQC := qc }
  else m

/-- Second step of `AddProposal`: hand out the direct father if it is stored. No other
ancestor is looked at. -/
def commitFather (m : ProposalManager) (prehash : Bytes) : ProposalManager × Option Proposal :=
  match m.getProposal prehash with
  | none => (m, none)
  | some _ => m.fetchProposal prehash

def addProposal (m : ProposalManager) (p : Proposal) : ProposalManager × Option Proposal :=
  let (m, commitReady) := (m.adoptQC p.header.qc).commitFather p.header.prehash
  ({ m with localBlock := m.localBlock.set p.hash p }, commitReady)

theorem safeNode_iff (m : ProposalManager) (p : Proposal) :
    m.safeNode p = true ↔ m.lockQC.position ≤ p.header.qc.position := by
  rw [QC.position, QC.position, position_le]
  unfold safeNode
  split_ifs with newer same
  · simp [newer]
  · simp [same.1, same.2]
  · simp only [false_iff]
    omega

/-! With the attack parameters off, `AddQC` adopts exactly the newer certificates. -/

theorem addQC_newer (getLeader : Int → Int) (id : Int) {m : ProposalManager} {qc : QC}
    (newer : m.genericQC.view = 0 ∨ m.genericQC.position < qc.position) :
    m.addQC getLeader id 0 0 qc =
      { m with genericQC := qc, round := if qc.isFinal then qc.view + 1 else m.round } := by
  rw [QC.position, QC.position, position_lt] at newer
  unfold addQC
  rw [if_pos newer]
  -- Only the leaders below `3 * fork_tail_num_ = 0` are victims; either way the last
  -- assignment of the chain stores the certificate.
  cases final : qc.isFinal with
  | false => simp
  | true =>
      simp only [and_true, ne_eq, not_true_eq_false, if_false, if_true]
      split_ifs <;> rfl

theorem addQC_older (getLeader : Int → Int) (id : Int) {m : ProposalManager} {qc : QC}
    (older : ¬(m.genericQC.view = 0 ∨ m.genericQC.position < qc.position)) :
    m.addQC getLeader id 0 0 qc = m := by
  rw [QC.position, QC.position, position_lt] at older
  unfold addQC
  rw [if_neg older]

theorem adoptQC_of_le {m : ProposalManager} {qc : QC}
    (newer : m.genericQC.position ≤ qc.position) :
    m.adoptQC qc = { m with genericQC := qc, lockQC := qc } := by
  rw [QC.position, QC.position, position_le] at newer
  rw [adoptQC, if_pos newer]

theorem adoptQC_of_lt {m : ProposalManager} {qc : QC}
    (older : qc.position < m.genericQC.position) : m.adoptQC qc = m := by
  rw [← not_le, QC.position, QC.position, position_le] at older
  rw [adoptQC, if_neg older]

theorem adoptQC_generic (m : ProposalManager) (qc : QC) :
    (m.adoptQC qc).genericQC = qc ∨ (m.adoptQC qc).genericQC = m.genericQC := by
  unfold adoptQC
  split_ifs
  · exact .inl rfl
  · exact .inr rfl

theorem adoptQC_lock (m : ProposalManager) (qc : QC) :
    (m.adoptQC qc).lockQC = qc ∨ (m.adoptQC qc).lockQC = m.lockQC := by
  unfold adoptQC
  split_ifs
  · exact .inl rfl
  · exact .inr rfl

@[simp] theorem adoptQC_localBlock (m : ProposalManager) (qc : QC) :
    (m.adoptQC qc).localBlock = m.localBlock := by
  unfold adoptQC
  split_ifs <;> rfl

@[simp] theorem adoptQC_round (m : ProposalManager) (qc : QC) :
    (m.adoptQC qc).round = m.round := by
  unfold adoptQC
  split_ifs <;> rfl

@[simp] theorem adoptQC_fake (m : ProposalManager) (qc : QC) :
    (m.adoptQC qc).fakeGenericQC = m.fakeGenericQC := by
  unfold adoptQC
  split_ifs <;> rfl

theorem commitFather_eq (m : ProposalManager) (prehash : Bytes) :
    m.commitFather prehash =
      (match m.localBlock.find prehash with
        | none => m
        | some _ => { m with localBlock := m.localBlock.erase prehash },
      m.localBlock.find prehash) := by
  unfold commitFather fetchProposal getProposal
  cases m.localBlock.find prehash <;> rfl

theorem addProposal_commit (m : ProposalManager) (p : Proposal) :
    (m.addProposal p).2 = m.getProposal p.header.prehash := by
  simp only [addProposal, commitFather_eq, adoptQC_localBlock, getProposal]

theorem addProposal_find (m : ProposalManager) (p : Proposal) (hash : Bytes) :
    (m.addProposal p).1.getProposal hash =
      if hash = p.hash then some p
      else if hash = p.header.prehash then none else m.getProposal hash := by
  simp only [addProposal, commitFather_eq, adoptQC_localBlock, getProposal, AssocMap.find_set]
  cases found : m.localBlock.find p.header.prehash with
  | none =>
      simp only [adoptQC_localBlock]
      by_cases father : hash = p.header.prehash
      · rw [father, found]
        simp
      · simp [father]
  | some q => simp only [AssocMap.find_erase]

theorem addProposal_manager (m : ProposalManager) (p : Proposal) :
    (m.addProposal p).1.genericQC = (m.adoptQC p.header.qc).genericQC ∧
      (m.addProposal p).1.lockQC = (m.adoptQC p.header.qc).lockQC ∧
      (m.addProposal p).1.round = m.round ∧
      (m.addProposal p).1.fakeGenericQC = m.fakeGenericQC := by
  simp only [addProposal, commitFather_eq, adoptQC_localBlock]
  cases m.localBlock.find p.header.prehash <;> simp

end ProposalManager
end ResDB.HotStuff
