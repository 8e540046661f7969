import Mathlib.Tactic
import ResDB.HotStuff.ViewReplica
import ResDB.HotStuff.Window

/-! HotStuff: a block commits under three consecutive views on top of it. -/
namespace ResDB.Hs
open HotStuff

structure Config where
  crypto : Crypto
  codec : Codec
  totalNum : ℕ
  f : ℕ
  forkTailNum : Int := 0

def getLeader (totalNum : ℕ) : Int → Int := roundRobin totalNum

/-- The rule of `AddProposal`. The fork attack drops the first of the two view tests. -/
def commitFrom (forkTailNum : Int) (find : Bytes → Option Proposal) (_ father : Proposal) :
    Option Bytes :=
  match find father.header.prehash with
  | none => none
  | some fafather =>
      if fafather.header.view = father.header.view - 1 ∨ 0 < forkTailNum then
        match find fafather.header.prehash with
        | none => none
        | some fafafather =>
            if fafafather.header.view = fafather.header.view - 1 then
              some fafather.header.prehash
            else none
      else none

def protocol (cfg : Config) : ChainedProtocol where
  crypto := cfg.crypto
  codec := cfg.codec
  verifyQC := verifyCount cfg.crypto (2 * cfg.f + 1)
  safeNode := ProposalManager.newerThanLock
  addQC := ProposalManager.addQCByView (getLeader cfg.totalNum) cfg.forkTailNum
  addProposal := ProposalManager.addProposalWith (commitFrom cfg.forkTailNum)

theorem commitFrom_stored {forkTailNum : Int} {find : Bytes → Option Proposal}
    {p father : Proposal} {hash : Bytes}
    (choice : commitFrom forkTailNum find p father = some hash) :
    ∃ h c, find h = some c ∧ hash = c.header.prehash := by
  unfold commitFrom at choice
  split at choice
  · cases choice
  · rename_i fafather found
    split_ifs at choice
    split at choice
    · cases choice
    · split_ifs at choice
      cases choice
      exact ⟨_, fafather, found, rfl⟩

theorem commitFrom_reaches {forkTailNum : Int} {find : Bytes → Option Proposal}
    {p father : Proposal} {hash : Bytes} (found : find p.header.prehash = some father)
    (choice : commitFrom forkTailNum find p father = some hash) :
    ProposalManager.Reaches find p.header.prehash hash := by
  unfold commitFrom at choice
  split at choice
  · cases choice
  · rename_i fafather second
    split_ifs at choice
    split at choice
    · cases choice
    · split_ifs at choice
      cases choice
      exact .head ⟨father, found, rfl⟩ (.single ⟨fafather, second, rfl⟩)

theorem protocol_lawful (cfg : Config) : (protocol cfg).Lawful :=
  .ofRule rfl (fun _ _ _ _ _ choice => .inr (commitFrom_stored choice))
    (fun m qc => ProposalManager.addQCByView_localBlock _ _ m qc)

theorem commitFrom_depth (forkTailNum : Int) : Depth 3 (commitFrom forkTailNum) where
  positive := by decide
  early chain blocks i line window few h := by
    have absent := window.miss_nil line
    rcases (show i = 0 ∨ i = 1 by omega) with rfl | rfl
    · simp only [commitFrom, line.root (by omega), absent]
    · have grandfather := window.hit (Nat.zero_le 0) (by omega) (by omega)
      have second : chain[1].header.prehash = chain[0].hash := line.father (by omega)
      simp only [commitFrom, second, grandfather, line.root (by omega), absent, ite_self]
  late chain blocks lo i line window full h low := by
    obtain rfl : i = lo + 2 := by omega
    have grandfather := window.hit (Nat.le_succ lo) (by omega) (by omega)
    have great := window.hit le_rfl (by omega) low
    have second := line.father (show lo + 1 + 1 < chain.length by omega)
    have third := line.father (show lo + 1 < chain.length by omega)
    simp only [commitFrom, second, grandfather, third, great]
    rw [if_pos (.inl (line.view_pred _)), if_pos (line.view_pred _)]

theorem commitFrom_sparing (forkTailNum : Int) : Sparing 3 (commitFrom forkTailNum) := by
  intro chain blocks lo hi i line window few h father found
  obtain ⟨j, rfl, -, -, place⟩ := window.father_place line h found
  obtain ⟨inside, rfl⟩ := List.getElem?_eq_some_iff.mp place
  unfold commitFrom
  cases second : blocks.find chain[j].header.prehash with
  | none => rfl
  | some fafather =>
      obtain ⟨l, rfl, low, -, place'⟩ := window.father_place line inside second
      obtain ⟨inside', rfl⟩ := List.getElem?_eq_some_iff.mp place'
      obtain rfl : l = lo := by omega
      simp only [window.miss_below line inside', ite_self]

def viewProtocol (cfg : Config) : ViewProtocol where
  crypto := cfg.crypto
  codec := cfg.codec
  totalNum := cfg.totalNum
  f := cfg.f
  rollbackNum := 0
  crashNum := 0
  commitFrom := commitFrom cfg.forkTailNum
  addQC _ := ProposalManager.addQCByView (getLeader cfg.totalNum) cfg.forkTailNum

theorem viewProtocol_chained (cfg : Config) (id : Int) :
    (viewProtocol cfg).chained id = protocol cfg := rfl

theorem viewProtocol_calm {cfg : Config} (calm : cfg.forkTailNum = 0) :
    (viewProtocol cfg).Calm where
  rollback := rfl
  crash := rfl
  adopt id m qc := by
    change ProposalManager.addQCByView _ cfg.forkTailNum m qc = _
    rw [calm]
    exact ViewProtocol.addQCByView_calm _ m qc

end ResDB.Hs
