import Mathlib.Tactic
import ResDB.HotStuff.ViewReplica
import ResDB.HotStuff.Window

/-! HotStuff-1: speculation on the father when there is no gap, otherwise the commit of
the grandfather. -/
namespace ResDB.Hs1
open HotStuff

structure Config where
  id : Int
  crypto : Crypto
  codec : Codec
  totalNum : ℕ
  f : ℕ
  forkTailNum : Int := 0
  rollbackNum : Int := 0

def getLeader (totalNum : ℕ) : Int → Int := roundRobin totalNum

/-- The rule of `AddProposal`: the no-gap rule with the prefix speculation rule, or the
commit of the grandfather. -/
def commitFrom (find : Bytes → Option Proposal) (p father : Proposal) : Option Bytes :=
  if father.header.view = p.header.view - 1 then
    match find father.header.prehash with
    | none => some p.header.prehash
    | some fafather =>
        if fafather.header.view = father.header.view - 1 then some p.header.prehash else none
  else
    match find father.header.prehash with
    | none => none
    | some fafather =>
        if fafather.header.view = father.header.view - 1 then some father.header.prehash else none

/-- `AddQC`, where the fork attack ignores a certificate and the rollback attack hides it. -/
def addQC (id : Int) (totalNum : ℕ) (forkTailNum rollbackNum : Int) (m : ProposalManager)
    (qc : QC) : ProposalManager :=
  if m.genericQC.view = 0 ∨ m.genericQC.view < qc.view then
    let leader := getLeader totalNum qc.view
    let m :=
      if forkTailNum ≠ 0 then
        if ¬(leader < 3 * forkTailNum ∧ leader.tmod 3 = 1) then { m with genericQC := qc } else m
      else if rollbackNum ≠ 0 then
        if id < 3 * rollbackNum ∧ id.tmod 3 = 1 then { m with fakeGenericQC := qc }
        else { m with genericQC := qc }
      else { m with genericQC := qc }
    { m with round := qc.view + 1 }
  else m

def protocol (cfg : Config) : ChainedProtocol where
  crypto := cfg.crypto
  codec := cfg.codec
  verifyQC := verifyCount cfg.crypto (2 * cfg.f + 1)
  safeNode := ProposalManager.newerThanLock
  addQC := addQC cfg.id cfg.totalNum cfg.forkTailNum cfg.rollbackNum
  addProposal := ProposalManager.addProposalWith commitFrom

theorem commitFrom_cases {find : Bytes → Option Proposal} {p father : Proposal} {hash : Bytes}
    (choice : commitFrom find p father = some hash) :
    hash = p.header.prehash ∨ hash = father.header.prehash := by
  unfold commitFrom at choice
  split_ifs at choice
  · left
    split at choice
    · cases choice
      rfl
    · split_ifs at choice
      cases choice
      rfl
  · right
    split at choice
    · cases choice
    · split_ifs at choice
      cases choice
      rfl

theorem commitFrom_reaches {find : Bytes → Option Proposal} {p father : Proposal} {hash : Bytes}
    (found : find p.header.prehash = some father)
    (choice : commitFrom find p father = some hash) :
    ProposalManager.Reaches find p.header.prehash hash := by
  rcases commitFrom_cases choice with rfl | rfl
  · exact .refl
  · exact .single ⟨father, found, rfl⟩

theorem addQC_localBlock (id : Int) (totalNum : ℕ) (forkTailNum rollbackNum : Int)
    (m : ProposalManager) (qc : QC) :
    (addQC id totalNum forkTailNum rollbackNum m qc).localBlock = m.localBlock := by
  simp only [addQC]
  split_ifs <;> rfl

theorem addQC_lockQC (id : Int) (totalNum : ℕ) (forkTailNum rollbackNum : Int)
    (m : ProposalManager) (qc : QC) :
    (addQC id totalNum forkTailNum rollbackNum m qc).lockQC = m.lockQC := by
  simp only [addQC]
  split_ifs <;> rfl

theorem protocol_lawful (cfg : Config) : (protocol cfg).Lawful := by
  refine .ofRule rfl ?_ (addQC_localBlock cfg.id cfg.totalNum cfg.forkTailNum cfg.rollbackNum)
  intro find p father hash found choice
  rcases commitFrom_cases choice with own | grand
  · exact .inl own
  · exact .inr ⟨_, father, found, grand⟩

theorem commitFrom_depth : Depth 1 commitFrom where
  positive := le_rfl
  early chain blocks i line window few h := by omega
  late chain blocks lo i line window full h low := by
    obtain rfl : i = lo := by omega
    simp only [commitFrom, window.miss_below line low, line.father h]
    rw [if_pos (line.view_pred h)]

theorem commitFrom_sparing : Sparing 1 commitFrom := by
  intro chain blocks lo hi i line window few h father found
  obtain ⟨j, rfl, low, -, -⟩ := window.father_place line h found
  omega

/-- The replicas of HotStuff-1, whatever the id in the configuration. -/
def viewProtocol (cfg : Config) : ViewProtocol where
  crypto := cfg.crypto
  codec := cfg.codec
  totalNum := cfg.totalNum
  f := cfg.f
  rollbackNum := cfg.rollbackNum
  crashNum := 0
  commitFrom := commitFrom
  addQC id := addQC id cfg.totalNum cfg.forkTailNum cfg.rollbackNum

theorem viewProtocol_chained (cfg : Config) (id : Int) :
    (viewProtocol cfg).chained id = protocol { cfg with id := id } := rfl

theorem viewProtocol_calm {cfg : Config} (calm : cfg.forkTailNum = 0 ∧ cfg.rollbackNum = 0) :
    (viewProtocol cfg).Calm where
  rollback := calm.2
  crash := rfl
  adopt id m qc := by
    change addQC id cfg.totalNum cfg.forkTailNum cfg.rollbackNum m qc = _
    rw [calm.1, calm.2]
    simp [addQC, ViewProtocol.adoptRound]

end ResDB.Hs1
