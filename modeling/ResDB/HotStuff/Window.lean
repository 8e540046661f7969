import Mathlib.Tactic
import ResDB.HotStuff.Chained

/-! The protocols without slots on a single chain with consecutive views. What a replica
stores is a window on the chain: the blocks it has accepted and not yet committed. -/
namespace ResDB.HotStuff
open ProposalManager (Keyed Fetched)
open LinkedLog (Linked)

/-- Blocks of views 1, 2, 3, …, each on top of the one before it. -/
structure ViewChain (chain : List Proposal) : Prop where
  linked : Linked Proposal.hash (fun p => p.header.prehash) [] chain
  views : ∀ i (h : i < chain.length), chain[i].header.view = i + 1
  named : ∀ p ∈ chain, p.hash ≠ []
  distinct : (chain.map Proposal.hash).Nodup

/-- The stored blocks are those of the chain from place `lo` up to `hi`. -/
def Window (chain : List Proposal) (lo hi : ℕ) (blocks : AssocMap Bytes Proposal) : Prop :=
  ∀ hash q, blocks.find hash = some q ↔
    ∃ j, lo ≤ j ∧ j < hi ∧ chain[j]? = some q ∧ q.hash = hash

theorem nodup_hash_of_views {crypto : Crypto} {codec : Codec} {chain : List Proposal}
    (free : CollisionFree crypto codec chain)
    (hashed : ∀ p ∈ chain, p.hash = getHash crypto codec p)
    (views : ∀ i (h : i < chain.length), chain[i].header.view = i + 1) :
    (chain.map Proposal.hash).Nodup := by
  rw [List.nodup_iff_pairwise_ne, List.pairwise_iff_getElem]
  intro i j hi hj below same
  rw [List.length_map] at hi hj
  rw [List.getElem_map, List.getElem_map, hashed _ (List.getElem_mem hi),
    hashed _ (List.getElem_mem hj)] at same
  have headers := (free _ (List.getElem_mem hi) _ (List.getElem_mem hj) same).1
  have positions := congrArg Header.view headers
  rw [views i hi, views j hj] at positions
  omega

namespace ViewChain
variable {chain : List Proposal} (line : ViewChain chain)
include line

theorem root (some : 0 < chain.length) : chain[0].header.prehash = [] :=
  line.linked.parent_zero some

theorem father {i : ℕ} (inside : i + 1 < chain.length) :
    chain[i + 1].header.prehash = chain[i].hash :=
  line.linked.parent_succ inside

theorem view_pred {i : ℕ} (inside : i + 1 < chain.length) :
    chain[i].header.view = chain[i + 1].header.view - 1 := by
  rw [line.views, line.views]
  push_cast
  ring

theorem index_eq {i j : ℕ} (hi : i < chain.length) (hj : j < chain.length)
    (same : chain[i].hash = chain[j].hash) : i = j := by
  have hi' : i < (chain.map Proposal.hash).length := by rwa [List.length_map]
  have hj' : j < (chain.map Proposal.hash).length := by rwa [List.length_map]
  apply (@List.Nodup.getElem_inj_iff _ _ line.distinct i hi' j hj').mp
  rw [List.getElem_map, List.getElem_map, same]

end ViewChain

namespace Window
variable {chain : List Proposal} {lo hi : ℕ} {blocks : AssocMap Bytes Proposal}
  (window : Window chain lo hi blocks)
include window

theorem hit {j : ℕ} (above : lo ≤ j) (below : j < hi) (inside : j < chain.length) :
    blocks.find chain[j].hash = some chain[j] :=
  (window _ _).mpr ⟨j, above, below, List.getElem?_eq_getElem inside, rfl⟩

theorem miss (line : ViewChain chain) {j : ℕ} (inside : j < chain.length)
    (outside : j < lo ∨ hi ≤ j) : blocks.find chain[j].hash = none := by
  cases found : blocks.find chain[j].hash with
  | none => rfl
  | some q =>
      obtain ⟨k, above, below, place, same⟩ := (window _ q).mp found
      obtain ⟨known, rfl⟩ := List.getElem?_eq_some_iff.mp place
      have index := line.index_eq known inside same
      omega

theorem miss_nil (line : ViewChain chain) : blocks.find [] = none := by
  cases found : blocks.find [] with
  | none => rfl
  | some q =>
      obtain ⟨k, -, -, place, same⟩ := (window _ q).mp found
      exact absurd same (line.named q (List.mem_of_getElem? place))

theorem miss_below (line : ViewChain chain) (inside : lo < chain.length) :
    blocks.find chain[lo].header.prehash = none := by
  cases lo with
  | zero =>
      rw [line.root inside]
      exact window.miss_nil line
  | succ lo =>
      rw [line.father inside]
      exact window.miss line (by omega) (.inl (Nat.lt_succ_self lo))

theorem push (line : ViewChain chain) (ordered : lo ≤ hi) (inside : hi < chain.length) :
    Window chain lo (hi + 1) (blocks.set chain[hi].hash chain[hi]) := by
  intro hash q
  rw [AssocMap.find_set]
  split_ifs with own
  · constructor
    · intro same
      cases same
      exact ⟨hi, ordered, Nat.lt_succ_self hi, List.getElem?_eq_getElem inside, own.symm⟩
    · rintro ⟨j, -, -, place, same⟩
      obtain ⟨known, rfl⟩ := List.getElem?_eq_some_iff.mp place
      have index := line.index_eq known inside (same.trans own)
      subst index
      rfl
  · rw [window hash q]
    constructor
    · rintro ⟨j, above, below, rest⟩
      exact ⟨j, above, Nat.lt_succ_of_lt below, rest⟩
    · rintro ⟨j, above, below, place, same⟩
      refine ⟨j, above, lt_of_le_of_ne (Nat.le_of_lt_succ below) ?_, place, same⟩
      rintro rfl
      obtain ⟨known, rfl⟩ := List.getElem?_eq_some_iff.mp place
      exact own same.symm

theorem drop (line : ViewChain chain) (inside : lo < chain.length) :
    Window chain (lo + 1) hi (blocks.erase chain[lo].hash) := by
  intro hash q
  rw [AssocMap.find_erase]
  constructor
  · intro found
    split_ifs at found with own
    obtain ⟨j, above, below, place, same⟩ := (window hash q).mp found
    refine ⟨j, lt_of_le_of_ne above ?_, below, place, same⟩
    rintro rfl
    obtain ⟨known, rfl⟩ := List.getElem?_eq_some_iff.mp place
    exact own same.symm
  · rintro ⟨j, above, below, place, same⟩
    have other : hash ≠ chain[lo].hash := by
      intro own
      obtain ⟨known, rfl⟩ := List.getElem?_eq_some_iff.mp place
      have index := line.index_eq known inside (same.trans own)
      omega
    rw [if_neg other]
    exact (window hash q).mpr ⟨j, Nat.le_of_succ_le above, below, place, same⟩

theorem again {i : ℕ} (above : lo ≤ i) (below : i < hi)
    (inside : i < chain.length) : Window chain lo hi (blocks.set chain[i].hash chain[i]) := by
  intro hash q
  rw [AssocMap.find_set]
  split_ifs with own
  · rw [own, ← window.hit above below inside]
    exact window chain[i].hash q
  · exact window hash q

theorem extend (short : hi ≤ chain.length) (p : Proposal) :
    Window (chain ++ [p]) lo hi blocks := by
  intro hash q
  rw [window hash q]
  constructor
  · rintro ⟨j, above, below, place, same⟩
    refine ⟨j, above, below, ?_, same⟩
    rwa [List.getElem?_append_left (by omega)]
  · rintro ⟨j, above, below, place, same⟩
    refine ⟨j, above, below, ?_, same⟩
    rwa [List.getElem?_append_left (by omega)] at place

theorem father_place (line : ViewChain chain) {i : ℕ} (inside : i < chain.length) {q : Proposal}
    (found : blocks.find chain[i].header.prehash = some q) :
    ∃ j, i = j + 1 ∧ lo ≤ j ∧ j < hi ∧ chain[j]? = some q := by
  cases i with
  | zero =>
      rw [line.root inside, window.miss_nil line] at found
      cases found
  | succ i =>
      rw [line.father inside] at found
      obtain ⟨j, above, below, place, same⟩ := (window _ q).mp found
      obtain ⟨known, rfl⟩ := List.getElem?_eq_some_iff.mp place
      obtain rfl := line.index_eq known (by omega) same
      exact ⟨j, rfl, above, below, place⟩

theorem fetched (line : ViewChain chain) (ordered : lo < hi) (inside : lo < chain.length)
    {left : AssocMap Bytes Proposal} {taken : List Proposal}
    (walk : Fetched blocks chain[lo].hash left taken) :
    taken = [chain[lo]] ∧ Window chain (lo + 1) hi left := by
  cases walk with
  | stop absent =>
      rw [window.hit le_rfl ordered inside] at absent
      cases absent
  | @take _ _ _ p rest found below =>
      rw [window.hit le_rfl ordered inside, Option.some.injEq] at found
      subst found
      have gone : (blocks.erase chain[lo].hash).find chain[lo].header.prehash = none := by
        rw [AssocMap.find_erase, window.miss_below line inside, ite_self]
      cases below with
      | stop absent => exact ⟨rfl, window.drop line inside⟩
      | take again _ =>
          rw [gone] at again
          cases again

end Window

/-- A commit rule that looks `k` blocks back: on a chain it starts the commit at the lowest
of `k` stored blocks, and not before there are as many. -/
structure Depth (k : ℕ)
    (commitFrom : (Bytes → Option Proposal) → Proposal → Proposal → Option Bytes) : Prop where
  positive : 1 ≤ k
  early : ∀ chain blocks i, ViewChain chain → Window chain 0 (i + 1) blocks → i + 1 < k →
    ∀ (h : i + 1 < chain.length), commitFrom blocks.find chain[i + 1] chain[i] = none
  late : ∀ chain blocks lo i, ViewChain chain → Window chain lo (i + 1) blocks → lo + k = i + 1 →
    ∀ (h : i + 1 < chain.length) (low : lo < chain.length),
      commitFrom blocks.find chain[i + 1] chain[i] = some chain[lo].hash

/-- The rule chooses nothing for a block with fewer than `k` stored blocks below it. -/
def Sparing (k : ℕ)
    (commitFrom : (Bytes → Option Proposal) → Proposal → Proposal → Option Bytes) : Prop :=
  ∀ chain blocks lo hi i, ViewChain chain → Window chain lo hi blocks → i < lo + k →
    ∀ (h : i < chain.length) (father : Proposal),
      blocks.find chain[i].header.prehash = some father →
        commitFrom blocks.find chain[i] father = none

section Accept
variable {chain : List Proposal} {k i : ℕ} {m : ProposalManager}
  {commitFrom : (Bytes → Option Proposal) → Proposal → Proposal → Option Bytes}

theorem Depth.accept_early (depth : Depth k commitFrom) (line : ViewChain chain)
    (window : Window chain 0 i m.localBlock) (inside : i < chain.length) (few : i < k) :
    Window chain 0 (i + 1) (m.addProposalWith commitFrom chain[i]).1.localBlock ∧
      (m.addProposalWith commitFrom chain[i]).2 = [] := by
  obtain ⟨left, blocks, outcome⟩ := ProposalManager.addProposalWith_walk commitFrom m chain[i]
  rw [blocks]
  cases outcome with
  | inl nothing =>
      obtain ⟨-, empty, rfl⟩ := nothing
      exact ⟨window.push line (Nat.zero_le i) inside, empty⟩
  | inr fetched =>
      obtain ⟨father, hash, found, choice, -⟩ := fetched
      cases i with
      | zero =>
          rw [ProposalManager.getProposal, line.root inside, window.miss_nil line] at found
          cases found
      | succ i =>
          have stored := window.hit (Nat.zero_le i) (Nat.lt_succ_self i) (by omega)
          rw [ProposalManager.getProposal, line.father inside, stored, Option.some.injEq] at found
          subst found
          have refused := depth.early chain _ i line window few inside
          exact absurd (choice.symm.trans refused) (Option.some_ne_none hash)

theorem Depth.accept_late (depth : Depth k commitFrom) (line : ViewChain chain) {lo : ℕ}
    (window : Window chain lo (i + 1) m.localBlock) (inside : i + 1 < chain.length)
    (full : lo + k = i + 1) (low : lo < chain.length) :
    Window chain (lo + 1) (i + 2) (m.addProposalWith commitFrom chain[i + 1]).1.localBlock ∧
      (m.addProposalWith commitFrom chain[i + 1]).2 = [chain[lo]] := by
  obtain ⟨left, blocks, outcome⟩ := ProposalManager.addProposalWith_walk commitFrom m chain[i + 1]
  have positive := depth.positive
  have stored : m.getProposal chain[i + 1].header.prehash = some chain[i] := by
    rw [line.father inside]
    exact window.hit (by omega) (Nat.lt_succ_self i) (by omega)
  have chosen : commitFrom m.getProposal chain[i + 1] chain[i] = some chain[lo].hash :=
    depth.late chain _ lo i line window full inside low
  rw [blocks]
  cases outcome with
  | inl nothing =>
      have refused := nothing.1 _ stored
      exact absurd (chosen.symm.trans refused) (Option.some_ne_none _)
  | inr fetched =>
      obtain ⟨father, hash, found, choice, walk⟩ := fetched
      rw [stored, Option.some.injEq] at found
      subst found
      rw [chosen, Option.some.injEq] at choice
      subst choice
      obtain ⟨taken, rest⟩ := window.fetched line (by omega) low walk
      exact ⟨rest.push line (by omega) inside, taken⟩

theorem Depth.accept (depth : Depth k commitFrom) (line : ViewChain chain)
    (window : Window chain (i - k) i m.localBlock) (inside : i < chain.length) :
    Window chain (i + 1 - k) (i + 1) (m.addProposalWith commitFrom chain[i]).1.localBlock ∧
      chain.take (i - k) ++ (m.addProposalWith commitFrom chain[i]).2.reverse =
        chain.take (i + 1 - k) := by
  have positive := depth.positive
  by_cases few : i < k
  · have low : i - k = 0 := by omega
    have next : i + 1 - k = 0 := by omega
    rw [low] at window
    obtain ⟨kept, nothing⟩ := depth.accept_early line window inside few
    rw [low, next, nothing]
    exact ⟨kept, rfl⟩
  · cases i with
    | zero => omega
    | succ i =>
        have low : i + 1 - k < chain.length := by omega
        have next : i + 1 + 1 - k = i + 1 - k + 1 := by omega
        obtain ⟨kept, taken⟩ := depth.accept_late line window inside (by omega) low
        rw [next, taken, List.reverse_singleton, List.take_append_getElem]
        exact ⟨kept, rfl⟩

theorem Sparing.repeated (sparing : Sparing k commitFrom) (line : ViewChain chain) {lo hi : ℕ}
    (window : Window chain lo hi m.localBlock) (above : lo ≤ i) (below : i < hi)
    (few : i < lo + k) (inside : i < chain.length) :
    Window chain lo hi (m.addProposalWith commitFrom chain[i]).1.localBlock ∧
      (m.addProposalWith commitFrom chain[i]).2 = [] := by
  obtain ⟨left, blocks, outcome⟩ := ProposalManager.addProposalWith_walk commitFrom m chain[i]
  rw [blocks]
  cases outcome with
  | inl nothing =>
      obtain ⟨-, empty, rfl⟩ := nothing
      exact ⟨window.again above below inside, empty⟩
  | inr fetched =>
      obtain ⟨father, hash, found, choice, -⟩ := fetched
      have refused := sparing chain _ lo hi i line window few inside father found
      exact absurd (choice.symm.trans refused) (Option.some_ne_none hash)

end Accept
end ResDB.HotStuff
