import Mathlib.Tactic
import ResDB.HotStuff.ViewReplica
import ResDB.HotStuff.Window

/-! HotStuff-2: a block commits under two consecutive views on top of it. -/
namespace ResDB.Hs2
open HotStuff

structure Config where
  crypto : Crypto
  codec : Codec
  totalNum : ℕ
  f : ℕ
  forkTailNum : Int := 0

def getLeader (totalNum : ℕ) : Int → Int := roundRobin totalNum

/-- The rule of `AddProposal`. -/
def commitFrom (find : Bytes → Option Proposal) (_ father : Proposal) : Option Bytes :=
  match find father.header.prehash with
  | none => none
  | some fafather =>
      if fafather.header.view = father.header.view - 1 then some father.header.prehash else none

def protocol (cfg : Config) : ChainedProtocol where
  crypto := cfg.crypto
  codec := cfg.codec
  verifyQC := verifyCount cfg.crypto (2 * cfg.f + 1)
  safeNode := ProposalManager.newerThanLock
  addQC := ProposalManager.addQCByView (getLeader cfg.totalNum) cfg.forkTailNum
  addProposal := ProposalManager.addProposalWith commitFrom

theorem commitFrom_father {find : Bytes → Option Proposal} {p father : Proposal} {hash : Bytes}
    (choice : commitFrom find p father = some hash) : hash = father.header.prehash := by
  unfold commitFrom at choice
  split at choice
  · cases choice
  · split_ifs at choice
    cases choice
    rfl

theorem commitFrom_reaches {find : Bytes → Option Proposal} {p father : Proposal} {hash : Bytes}
    (found : find p.header.prehash = some father)
    (choice : commitFrom find p father = some hash) :
    ProposalManager.Reaches find p.header.prehash hash := by
  rw [commitFrom_father choice]
  exact .single ⟨father, found, rfl⟩

theorem protocol_lawful (cfg : Config) : (protocol cfg).Lawful :=
  .ofRule rfl (fun _ _ father _ found choice => .inr ⟨_, father, found, commitFrom_father choice⟩)
    (fun m qc => ProposalManager.addQCByView_localBlock _ _ m qc)

theorem commitFrom_depth : Depth 2 commitFrom where
  positive := by decide
  early chain blocks i line window few h := by
    obtain rfl : i = 0 := by omega
    simp only [commitFrom, line.root (by omega), window.miss_nil line]
  late chain blocks lo i line window full h low := by
    obtain rfl : i = lo + 1 := by omega
    have grandfather := window.hit le_rfl (by omega) low
    have second := line.father (show lo + 1 < chain.length by omega)
    simp only [commitFrom, second, grandfather]
    rw [if_pos (line.view_pred _)]

theorem commitFrom_sparing : Sparing 2 commitFrom := by
  intro chain blocks lo hi i line window few h father found
  obtain ⟨j, rfl, low, -, place⟩ := window.father_place line h found
  obtain ⟨inside, rfl⟩ := List.getElem?_eq_some_iff.mp place
  obtain rfl : j = lo := by omega
  simp only [commitFrom, window.miss_below line inside]

def viewProtocol (cfg : Config) : ViewProtocol where
  crypto := cfg.crypto
  codec := cfg.codec
  totalNum := cfg.totalNum
  f := cfg.f
  rollbackNum := 0
  crashNum := 0
  commitFrom := commitFrom
  addQC _ := ProposalManager.addQCByView (getLeader cfg.totalNum) cfg.forkTailNum

theorem viewProtocol_chained (cfg : Config) (id : Int) :
    (viewProtocol cfg).chained id = protocol cfg := rfl

theorem viewProtocol_calm {cfg : Config} (calm : cfg.forkTailNum = 0) :
    (viewProtocol cfg).Calm where
  rollback := rfl
  crash := rfl
  adopt id m qc := by
    change ProposalManager.addQCByView _ cfg.forkTailNum m qc = _
    rw [calm]
    exact ViewProtocol.addQCByView_calm _ m qc

end ResDB.Hs2
