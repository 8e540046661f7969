import Mathlib.Tactic
import ResDB.Library.LinkedLog
import ResDB.Library.Run
import ResDB.HotStuff.ProposalManager

/-! The protocols without slots: HotStuff, HotStuff-1 and HotStuff-2. They lock the
father's certificate and commit whole stored branches, from a block that each of them
chooses by its own rule. Below them stands what one replica of any chained protocol does
with the proposals and certificates it is fed. -/
namespace ResDB.HotStuff
namespace ProposalManager

/-- `SafeNode` without slots: the certificate is newer than the lock. -/
def newerThanLock (m : ProposalManager) (p : Proposal) : Bool :=
  m.lockQC.view < p.header.qc.view

/-- The loop of `FetchProposal` calls down the branch that ends in `hash`. Each round
takes a block out, so the number of stored blocks is fuel enough. -/
def fetchChain : ℕ → ProposalManager → Bytes → ProposalManager × List Proposal
  | 0, m, _ => (m, [])
  | fuel + 1, m, hash =>
      match m.fetchProposal hash with
      | (m, none) => (m, [])
      | (m, some p) =>
          let (m, rest) := fetchChain fuel m p.header.prehash
          (m, p :: rest)

def fetchBranch (m : ProposalManager) (hash : Bytes) : ProposalManager × List Proposal :=
  fetchChain m.localBlock.size m hash

/-- First step of `AddProposal`. -/
def adoptNewer (m : ProposalManager) (qc : QC) : ProposalManager :=
  if m.genericQC.view < qc.view then { m with genericQC := qc } else m

/-- Second step of `AddProposal`, up to the choice of the block to commit from. The choice
sees the stored blocks, the proposal and its father. -/
def commitBranch (commitFrom : (Bytes → Option Proposal) → Proposal → Proposal → Option Bytes)
    (m : ProposalManager) (p : Proposal) : ProposalManager × List Proposal :=
  match m.getProposal p.header.prehash with
  | none => (m, [])
  | some father =>
      let locked := { m with lockQC := father.header.qc }
      match commitFrom m.getProposal p father with
      | none => (locked, [])
      | some hash => locked.fetchBranch hash

def addProposalWith
    (commitFrom : (Bytes → Option Proposal) → Proposal → Proposal → Option Bytes)
    (m : ProposalManager) (p : Proposal) : ProposalManager × List Proposal :=
  let (m, commitReady) := (m.adoptNewer p.header.qc).commitBranch commitFrom p
  ({ m with localBlock := m.localBlock.set p.hash p }, commitReady)

/-- `AddQC` of HotStuff and HotStuff-2. The fork attack makes the next leader ignore the
certificate; the round moves on all the same. -/
def addQCByView (getLeader : Int → Int) (forkTailNum : Int) (m : ProposalManager) (qc : QC) :
    ProposalManager :=
  if m.genericQC.view = 0 ∨ m.genericQC.view < qc.view then
    let leader := getLeader qc.view
    let m :=
      if ¬(leader < 3 * forkTailNum ∧ leader.tmod 3 = 1) then { m with genericQC := qc } else m
    { m with round := qc.view + 1 }
  else m

/-- The block is stored, as the father of the walk's start or of a stored block. -/
def OnBranch (find : Bytes → Option Proposal) (start : Bytes) (b : Proposal) : Prop :=
  ∃ key, find key = some b ∧
    (key = start ∨ ∃ h c, find h = some c ∧ key = c.header.prehash)

section Fetch
variable {m : ProposalManager} {hash : Bytes}

theorem fetchProposal_none (absent : m.getProposal hash = none) :
    m.fetchProposal hash = (m, none) := by
  rw [getProposal] at absent
  rw [fetchProposal, absent]

theorem fetchProposal_some {p : Proposal} (found : m.getProposal hash = some p) :
    m.fetchProposal hash = ({ m with localBlock := m.localBlock.erase hash }, some p) := by
  rw [getProposal] at found
  rw [fetchProposal, found]

theorem getProposal_erase {key : Bytes} {q : Proposal}
    (found : ({ m with localBlock := m.localBlock.erase hash } : ProposalManager).getProposal key =
      some q) : m.getProposal key = some q := by
  rw [getProposal, AssocMap.find_erase] at found
  split_ifs at found
  exact found

theorem fetchChain_fuel (fuel : ℕ) (enough : m.localBlock.size ≤ fuel) :
    fetchChain (fuel + 1) m hash = fetchChain fuel m hash := by
  induction fuel generalizing m hash with
  | zero =>
      have absent : m.getProposal hash = none := by
        cases found : m.getProposal hash with
        | none => rfl
        | some p =>
            have smaller := AssocMap.size_erase_lt found
            omega
      simp only [fetchChain, fetchProposal_none absent]
  | succ fuel ih =>
      cases found : m.getProposal hash with
      | none => simp only [fetchChain, fetchProposal_none found]
      | some p =>
          have smaller := AssocMap.size_erase_lt found
          have less : ({ m with localBlock := m.localBlock.erase hash } :
              ProposalManager).localBlock.size ≤ fuel :=
            Nat.le_of_lt_succ (smaller.trans_le enough)
          rw [fetchChain, fetchChain, fetchProposal_some found]
          simp only [ih less]

theorem fetchChain_stored (fuel : ℕ) {key : Bytes} {q : Proposal}
    (found : (fetchChain fuel m hash).1.getProposal key = some q) :
    m.getProposal key = some q := by
  induction fuel generalizing m hash with
  | zero => exact found
  | succ fuel ih =>
      cases here : m.getProposal hash with
      | none =>
          simp only [fetchChain, fetchProposal_none here] at found
          exact found
      | some p =>
          simp only [fetchChain, fetchProposal_some here] at found
          exact getProposal_erase (ih found)

theorem fetchChain_onBranch (fuel : ℕ) {b : Proposal} (fetched : b ∈ (fetchChain fuel m hash).2) :
    OnBranch m.getProposal hash b := by
  induction fuel generalizing m hash with
  | zero => cases fetched
  | succ fuel ih =>
      cases here : m.getProposal hash with
      | none =>
          simp only [fetchChain, fetchProposal_none here] at fetched
          cases fetched
      | some p =>
          simp only [fetchChain, fetchProposal_some here] at fetched
          rcases List.mem_cons.mp fetched with rfl | later
          · exact ⟨hash, here, .inl rfl⟩
          · -- The rest of the walk starts at the father of `p`, which is stored under `hash`.
            obtain ⟨key, found, start | ⟨h, c, stored, link⟩⟩ := ih later
            · exact ⟨key, getProposal_erase found, .inr ⟨hash, p, here, start⟩⟩
            · exact ⟨key, getProposal_erase found, .inr ⟨h, c, getProposal_erase stored, link⟩⟩

end Fetch

def Keyed (blocks : AssocMap Bytes Proposal) : Prop :=
  ∀ key q, blocks.find key = some q → key = q.hash

/-- What a walk of `FetchProposal` calls takes out, from the block under `hash` down. -/
inductive Fetched : AssocMap Bytes Proposal → Bytes → AssocMap Bytes Proposal → List Proposal →
    Prop where
  | stop {blocks : AssocMap Bytes Proposal} {hash : Bytes} (absent : blocks.find hash = none) :
      Fetched blocks hash blocks []
  | take {blocks left : AssocMap Bytes Proposal} {hash : Bytes} {p : Proposal}
      {rest : List Proposal} (found : blocks.find hash = some p)
      (below : Fetched (blocks.erase hash) p.header.prehash left rest) :
      Fetched blocks hash left (p :: rest)

/-- The keys that a walk down from `start` comes across. -/
def Reaches (find : Bytes → Option Proposal) : Bytes → Bytes → Prop :=
  Relation.ReflTransGen (fun key below => ∃ c, find key = some c ∧ below = c.header.prehash)

theorem Reaches.mono {find wider : Bytes → Option Proposal}
    (le : ∀ key c, find key = some c → wider key = some c) {start key : Bytes}
    (path : Reaches find start key) : Reaches wider start key := by
  induction path with
  | refl => exact .refl
  | tail _ last ih =>
      obtain ⟨c, found, below⟩ := last
      exact ih.tail ⟨c, le _ c found, below⟩

section Walk
variable {blocks left : AssocMap Bytes Proposal} {hash : Bytes} {taken : List Proposal}

theorem fetchChain_fetched (fuel : ℕ) (m : ProposalManager) (enough : m.localBlock.size ≤ fuel) :
    ∃ left, Fetched m.localBlock hash left (fetchChain fuel m hash).2 ∧
      (fetchChain fuel m hash).1 = { m with localBlock := left } := by
  induction fuel generalizing m hash with
  | zero =>
      cases found : m.localBlock.find hash with
      | none => exact ⟨_, .stop found, rfl⟩
      | some p =>
          have smaller := AssocMap.size_erase_lt found
          omega
  | succ fuel ih =>
      cases found : m.getProposal hash with
      | none =>
          simp only [fetchChain, fetchProposal_none found]
          exact ⟨_, .stop found, rfl⟩
      | some p =>
          have smaller := AssocMap.size_erase_lt found
          simp only [fetchChain, fetchProposal_some found]
          obtain ⟨left, below, rest⟩ := @ih p.header.prehash
            { m with localBlock := m.localBlock.erase hash }
            (Nat.le_of_lt_succ (smaller.trans_le enough))
          exact ⟨left, .take found below, rest⟩

theorem fetchBranch_fetched (m : ProposalManager) (hash : Bytes) :
    ∃ left, Fetched m.localBlock hash left (m.fetchBranch hash).2 ∧
      (m.fetchBranch hash).1 = { m with localBlock := left } :=
  fetchChain_fetched m.localBlock.size m le_rfl

theorem find_of_erase {key : Bytes} {q : Proposal}
    (found : (blocks.erase hash).find key = some q) : blocks.find key = some q := by
  rw [AssocMap.find_erase] at found
  split_ifs at found
  exact found

theorem Keyed.erase (keyed : Keyed blocks) (hash : Bytes) : Keyed (blocks.erase hash) :=
  fun key q found => keyed key q (find_of_erase found)

theorem Fetched.find (keyed : Keyed blocks) (walk : Fetched blocks hash left taken) (key : Bytes) :
    left.find key = if key ∈ taken.map Proposal.hash then none else blocks.find key := by
  induction walk with
  | stop absent => simp
  | @take blocks left hash p rest found below ih =>
      rw [ih (keyed.erase hash), AssocMap.find_erase, List.map_cons, ← keyed hash p found]
      by_cases here : key = hash
      · simp [here]
      · simp [here]

theorem Fetched.reached (keyed : Keyed blocks) (walk : Fetched blocks hash left taken) :
    ∀ b ∈ taken, blocks.find b.hash = some b ∧ Reaches blocks.find hash b.hash := by
  induction walk with
  | stop absent =>
      intro b member
      cases member
  | @take blocks left hash p rest found below ih =>
      intro b member
      rcases List.mem_cons.mp member with rfl | later
      · rw [← keyed hash b found]
        exact ⟨found, .refl⟩
      · obtain ⟨stored, path⟩ := ih (keyed.erase hash) b later
        exact ⟨find_of_erase stored, .head ⟨p, found, rfl⟩ (path.mono fun _ _ => find_of_erase)⟩

theorem Fetched.nodup (keyed : Keyed blocks) (walk : Fetched blocks hash left taken) :
    (taken.map Proposal.hash).Nodup := by
  induction walk with
  | stop absent => exact List.nodup_nil
  | @take blocks left hash p rest found below ih =>
      rw [List.map_cons, List.nodup_cons]
      refine ⟨?_, ih (keyed.erase hash)⟩
      intro again
      -- The rest is taken from a store without `p`.
      obtain ⟨q, member, same⟩ := List.mem_map.mp again
      have stored := (below.reached (keyed.erase hash) q member).1
      rw [AssocMap.find_erase, same, if_pos (keyed hash p found).symm] at stored
      cases stored

theorem Fetched.linked (keyed : Keyed blocks) (walk : Fetched blocks hash left taken) :
    ∃ bottom, left.find bottom = none ∧
      LinkedLog.Linked Proposal.hash (fun p => p.header.prehash) bottom taken.reverse ∧
      LinkedLog.tip Proposal.hash bottom taken.reverse = hash := by
  induction walk with
  | @stop blocks hash absent => exact ⟨hash, absent, trivial, rfl⟩
  | @take blocks left hash p rest found below ih =>
      obtain ⟨bottom, absent, linked, top⟩ := ih (keyed.erase hash)
      refine ⟨bottom, absent, ?_, ?_⟩
      · rw [List.reverse_cons, LinkedLog.linked_concat]
        exact ⟨linked, top.symm⟩
      · rw [List.reverse_cons, LinkedLog.tip_concat, keyed hash p found]

end Walk

theorem addQCByView_localBlock (getLeader : Int → Int) (forkTailNum : Int) (m : ProposalManager)
    (qc : QC) : (addQCByView getLeader forkTailNum m qc).localBlock = m.localBlock := by
  simp only [addQCByView]
  split_ifs <;> rfl

theorem addQCByView_lockQC (getLeader : Int → Int) (forkTailNum : Int) (m : ProposalManager)
    (qc : QC) : (addQCByView getLeader forkTailNum m qc).lockQC = m.lockQC := by
  simp only [addQCByView]
  split_ifs <;> rfl

section Commit
variable {commitFrom : (Bytes → Option Proposal) → Proposal → Proposal → Option Bytes}
  {m : ProposalManager} {p : Proposal}

@[simp] theorem adoptNewer_localBlock (m : ProposalManager) (qc : QC) :
    (m.adoptNewer qc).localBlock = m.localBlock := by
  unfold adoptNewer
  split_ifs <;> rfl

theorem adoptNewer_getProposal (m : ProposalManager) (qc : QC) :
    (m.adoptNewer qc).getProposal = m.getProposal := by
  funext hash
  rw [getProposal, adoptNewer_localBlock, getProposal]

theorem commitBranch_cases (commitFrom : (Bytes → Option Proposal) → Proposal → Proposal →
      Option Bytes) (m : ProposalManager) (p : Proposal) :
    m.getProposal p.header.prehash = none ∧ m.commitBranch commitFrom p = (m, []) ∨
      ∃ father, m.getProposal p.header.prehash = some father ∧
        (commitFrom m.getProposal p father = none ∧
            m.commitBranch commitFrom p = ({ m with lockQC := father.header.qc }, []) ∨
          ∃ hash, commitFrom m.getProposal p father = some hash ∧
            m.commitBranch commitFrom p =
              ({ m with lockQC := father.header.qc } : ProposalManager).fetchBranch hash) := by
  unfold commitBranch
  cases m.getProposal p.header.prehash with
  | none => exact .inl ⟨rfl, rfl⟩
  | some father =>
      refine .inr ⟨father, rfl, ?_⟩
      cases choice : commitFrom m.getProposal p father with
      | none => exact .inl ⟨rfl, by simp only [choice]⟩
      | some hash => exact .inr ⟨hash, rfl, by simp only [choice]⟩

theorem commitBranch_stored {key : Bytes} {q : Proposal}
    (found : (m.commitBranch commitFrom p).1.getProposal key = some q) :
    m.getProposal key = some q := by
  rcases commitBranch_cases commitFrom m p with ⟨-, same⟩ | ⟨father, -, ⟨-, same⟩ | ⟨hash, -, same⟩⟩
  · rw [same] at found
    exact found
  · rw [same] at found
    exact found
  · rw [same] at found
    have kept := fetchChain_stored _ found
    exact kept

theorem addProposalWith_stored {key : Bytes} {q : Proposal}
    (found : (m.addProposalWith commitFrom p).1.getProposal key = some q) :
    (key = p.hash ∧ q = p) ∨ m.getProposal key = some q := by
  simp only [addProposalWith, getProposal, AssocMap.find_set] at found
  split_ifs at found with own
  · cases found
    exact .inl ⟨own, rfl⟩
  · right
    rw [← adoptNewer_getProposal m p.header.qc]
    exact commitBranch_stored found

theorem addProposalWith_father (committed : (m.addProposalWith commitFrom p).2 ≠ []) :
    (m.getProposal p.header.prehash).isSome = true := by
  rw [← adoptNewer_getProposal m p.header.qc]
  rcases commitBranch_cases commitFrom (m.adoptNewer p.header.qc) p with
    ⟨-, same⟩ | ⟨father, found, -⟩
  · rw [addProposalWith, same] at committed
    exact absurd rfl committed
  · rw [found]
    rfl

theorem addProposalWith_onBranch
    (rule : ∀ find p father hash, find p.header.prehash = some father →
      commitFrom find p father = some hash →
      hash = p.header.prehash ∨ ∃ h c, find h = some c ∧ hash = c.header.prehash)
    {b : Proposal} (committed : b ∈ (m.addProposalWith commitFrom p).2) :
    OnBranch m.getProposal p.header.prehash b := by
  rw [← adoptNewer_getProposal m p.header.qc]
  rcases commitBranch_cases commitFrom (m.adoptNewer p.header.qc) p with
    ⟨-, same⟩ | ⟨father, found, ⟨-, same⟩ | ⟨hash, choice, same⟩⟩
  · rw [addProposalWith, same] at committed
    cases committed
  · rw [addProposalWith, same] at committed
    cases committed
  · rw [addProposalWith, same] at committed
    obtain ⟨key, stored, start | inside⟩ := fetchChain_onBranch _ committed
    · rw [start] at stored
      exact ⟨hash, stored, rule _ p father hash found choice⟩
    · exact ⟨key, stored, .inr inside⟩

theorem commitBranch_walk (commitFrom : (Bytes → Option Proposal) → Proposal → Proposal →
      Option Bytes) (m : ProposalManager) (p : Proposal) :
    ((∀ father, m.getProposal p.header.prehash = some father →
          commitFrom m.getProposal p father = none) ∧ (m.commitBranch commitFrom p).2 = [] ∧
        (m.commitBranch commitFrom p).1.localBlock = m.localBlock) ∨
      ∃ father hash, m.getProposal p.header.prehash = some father ∧
        commitFrom m.getProposal p father = some hash ∧
        Fetched m.localBlock hash (m.commitBranch commitFrom p).1.localBlock
          (m.commitBranch commitFrom p).2 := by
  rcases commitBranch_cases commitFrom m p with
    ⟨absent, same⟩ | ⟨father, found, ⟨refused, same⟩ | ⟨hash, choice, same⟩⟩
  · refine .inl ⟨fun father found => ?_, by rw [same], by rw [same]⟩
    rw [absent] at found
    cases found
  · refine .inl ⟨fun other hit => ?_, by rw [same], by rw [same]⟩
    rw [found] at hit
    cases hit
    exact refused
  · refine .inr ⟨father, hash, found, choice, ?_⟩
    obtain ⟨left, walk, rest⟩ :=
      fetchBranch_fetched ({ m with lockQC := father.header.qc } : ProposalManager) hash
    rw [same, rest]
    exact walk

theorem addProposalWith_walk (commitFrom : (Bytes → Option Proposal) → Proposal → Proposal →
      Option Bytes) (m : ProposalManager) (p : Proposal) :
    ∃ left, (m.addProposalWith commitFrom p).1.localBlock = left.set p.hash p ∧
      (((∀ father, m.getProposal p.header.prehash = some father →
            commitFrom m.getProposal p father = none) ∧
          (m.addProposalWith commitFrom p).2 = [] ∧ left = m.localBlock) ∨
        ∃ father hash, m.getProposal p.header.prehash = some father ∧
          commitFrom m.getProposal p father = some hash ∧
          Fetched m.localBlock hash left (m.addProposalWith commitFrom p).2) := by
  have second := commitBranch_walk commitFrom (m.adoptNewer p.header.qc) p
  rw [adoptNewer_localBlock, adoptNewer_getProposal] at second
  exact ⟨_, rfl, second⟩

theorem commitBranch_manager (commitFrom : (Bytes → Option Proposal) → Proposal → Proposal →
      Option Bytes) (m : ProposalManager) (p : Proposal) :
    (m.commitBranch commitFrom p).1 =
      { m with
        localBlock := (m.commitBranch commitFrom p).1.localBlock
        lockQC := match m.getProposal p.header.prehash with
          | none => m.lockQC
          | some father => father.header.qc } := by
  rcases commitBranch_cases commitFrom m p with
    ⟨absent, same⟩ | ⟨father, found, ⟨-, same⟩ | ⟨hash, -, same⟩⟩
  · rw [same, absent]
  · rw [same, found]
  · obtain ⟨left, -, rest⟩ :=
      fetchBranch_fetched ({ m with lockQC := father.header.qc } : ProposalManager) hash
    rw [same, found, rest]

theorem addProposalWith_lock (commitFrom : (Bytes → Option Proposal) → Proposal → Proposal →
      Option Bytes) (m : ProposalManager) (p : Proposal) :
    (m.addProposalWith commitFrom p).1.lockQC =
      match m.getProposal p.header.prehash with
      | none => m.lockQC
      | some father => father.header.qc := by
  change ((m.adoptNewer p.header.qc).commitBranch commitFrom p).1.lockQC = _
  have lock : (m.adoptNewer p.header.qc).lockQC = m.lockQC := by
    unfold adoptNewer
    split_ifs <;> rfl
  rw [commitBranch_manager, adoptNewer_getProposal, lock]

theorem addProposalWith_generic (commitFrom : (Bytes → Option Proposal) → Proposal → Proposal →
      Option Bytes) (m : ProposalManager) (p : Proposal) :
    (m.addProposalWith commitFrom p).1.genericQC =
      if m.genericQC.view < p.header.qc.view then p.header.qc else m.genericQC := by
  change ((m.adoptNewer p.header.qc).commitBranch commitFrom p).1.genericQC = _
  rw [commitBranch_manager]
  unfold adoptNewer
  split_ifs <;> rfl

theorem addProposalWith_round (commitFrom : (Bytes → Option Proposal) → Proposal → Proposal →
      Option Bytes) (m : ProposalManager) (p : Proposal) :
    (m.addProposalWith commitFrom p).1.round = m.round := by
  change ((m.adoptNewer p.header.qc).commitBranch commitFrom p).1.round = _
  rw [commitBranch_manager]
  unfold adoptNewer
  split_ifs <;> rfl

end Commit
end ProposalManager

/-! ### One replica -/

structure ChainedProtocol where
  crypto : Crypto
  codec : Codec
  verifyQC : QC → Bool
  safeNode : ProposalManager → Proposal → Bool
  addQC : ProposalManager → QC → ProposalManager
  addProposal : ProposalManager → Proposal → ProposalManager × List Proposal

/-- `accepted` and `commits` are history. A commit is kept with the accepted proposal
whose arrival triggered it, in the order of the pushes to `commit_q_`. -/
structure ChainedReplica where
  manager : ProposalManager := {}
  accepted : List Proposal := []
  commits : List (Proposal × Proposal) := []

inductive ChainedEvent where
  | proposal (p : Proposal)
  | certificate (qc : QC)

namespace ChainedProtocol
variable (P : ChainedProtocol)

def verify (m : ProposalManager) (p : Proposal) : Bool :=
  verifyWith P.crypto P.codec (P.safeNode m p) P.verifyQC p

/-- `ReceiveProposal`, which pushes the returned list from its end, and the `AddQC` of a
certificate that the replica formed. -/
def step (r : ChainedReplica) : ChainedEvent → Option ChainedReplica
  | .proposal p =>
      if P.verify r.manager p then
        let (manager, committed) := P.addProposal r.manager p
        some { manager := manager
               accepted := r.accepted ++ [p]
               commits := r.commits ++ committed.reverse.map (fun b => (p, b)) }
      else some r
  | .certificate qc => some { r with manager := P.addQC r.manager qc }

/-- What all commit rules have in common: they commit stored ancestors of a proposal whose
father is stored, and store nothing but the proposal. -/
structure Lawful : Prop where
  committed : ∀ m p, ∀ b ∈ (P.addProposal m p).2, ∃ q,
    ProposalManager.OnBranch m.getProposal p.header.prehash q ∧ b.hash = q.hash
  father : ∀ m p, (P.addProposal m p).2 ≠ [] → (m.getProposal p.header.prehash).isSome = true
  stored : ∀ m p key q, (P.addProposal m p).1.getProposal key = some q →
    (key = p.hash ∧ q = p) ∨ m.getProposal key = some q
  certificate : ∀ m qc, (P.addQC m qc).localBlock = m.localBlock

variable {P}

theorem Lawful.ofRule
    {commitFrom : (Bytes → Option Proposal) → Proposal → Proposal → Option Bytes}
    (same : P.addProposal = ProposalManager.addProposalWith commitFrom)
    (rule : ∀ find p father hash, find p.header.prehash = some father →
      commitFrom find p father = some hash →
      hash = p.header.prehash ∨ ∃ h c, find h = some c ∧ hash = c.header.prehash)
    (certificate : ∀ m qc, (P.addQC m qc).localBlock = m.localBlock) : P.Lawful where
  committed m p b member := by
    rw [same] at member
    exact ⟨b, ProposalManager.addProposalWith_onBranch rule member, rfl⟩
  father m p some := by
    rw [same] at some
    exact ProposalManager.addProposalWith_father some
  stored m p key q found := by
    rw [same] at found
    exact ProposalManager.addProposalWith_stored found
  certificate := certificate

end ChainedProtocol
end ResDB.HotStuff
