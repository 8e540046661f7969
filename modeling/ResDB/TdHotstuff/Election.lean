import ResDB.Library.Intervals
import ResDB.Library.Memo
import ResDB.TdHotstuff.Leader

/-! The three copies of the weighted election: `TdHotstuff` and `ProposalManager` each
keep a table of prefix sums and a cache of the leaders already computed, and
`TdHotstuffPerformanceManager` repeats the computation once, for view 1. The intervals of
the table divide the total weight, and no cache changes an answer. -/
namespace ResDB.TdHotstuff

/-- The constructor's loop `prefix_weights_[i + 1] = prefix_weights_[i] + weights_[i]`. -/
def prefixWeights (weights : List ℕ) : List ℕ := weights.scanl (· + ·) 0

/-- The loop over the intervals, with the source's default. -/
def searchLeader (totalNum : ℕ) (prefixes : List ℕ) (position : ℕ) : Int :=
  match Intervals.locate (fun i => prefixes.getD i 0) totalNum position with
  | some i => i + 1
  | none => 1

/-- What `VRFLeader` reads of its object, in either class. `total_weight_` is an `int`. -/
structure Elector where
  totalNum : ℕ
  totalWeight : ℕ
  prefixWeights : List ℕ
  epoch : ℕ := 1
  leaderCache : AssocMap Int Int := ∅

namespace Elector

/-- The part of `VRFLeader` after a cache miss. -/
def elect (crypto : Crypto) (e : Elector) (view : Int) : Int :=
  let hashRaw := crypto.sha256 (decimal e.epoch ++ 58 :: decimal view)
  searchLeader e.totalNum e.prefixWeights ((hashVal hashRaw).toNat % e.totalWeight)

def vrfLeader (crypto : Crypto) (e : Elector) (view : Int) : Int × Elector :=
  let answer := Memo.call (e.elect crypto) e.leaderCache view
  (answer.1, { e with leaderCache := answer.2 })

def after (crypto : Crypto) (e : Elector) (history : List Int) : Elector :=
  history.foldl (fun state view => (state.vrfLeader crypto view).2) e

end Elector

/-- `ProposalManager::ProposalManager`. -/
def proposalManagerElector (weights : List ℕ) : Elector where
  totalNum := weights.length
  totalWeight := weights.sum
  prefixWeights := prefixWeights weights

/-- `TdHotstuff::TdHotstuff` logs the leaders of the first views twice, once for the
election and once for the timeouts, and then asks whether it leads view 1. -/
def tdHotstuffElector (crypto : Crypto) (weights : List ℕ) : Elector :=
  let preview : List Int := (List.range (min 5 weights.length)).map (fun (v : ℕ) => (v : Int) + 1)
  -- each timeout preview calls `GetDynamicTimeout`, which elects as well
  (proposalManagerElector weights).after crypto
    (preview ++ preview.flatMap (fun v => [v, v]) ++ [1])

/-- `primary_` as `TdHotstuffPerformanceManager::TdHotstuffPerformanceManager` leaves it:
the digest is taken of the text "1:1". -/
def performancePrimary (crypto : Crypto) (weights : List ℕ) : Int :=
  let hashRaw := crypto.sha256 (decimal 1 ++ [58, 49])
  searchLeader weights.length (prefixWeights weights) ((hashVal hashRaw).toNat % weights.sum)

theorem getD_prefixWeights (weights : List ℕ) {i : ℕ} (inside : i ≤ weights.length) :
    (prefixWeights weights).getD i 0 = prefixWeight weights i := by
  have bound : i < (weights.scanl (· + ·) 0).length := by
    rw [List.length_scanl]
    omega
  rw [prefixWeights, List.getD_eq_getElem?_getD, List.getElem?_eq_getElem bound,
    List.getElem_scanl, Option.getD_some, prefixWeight, List.sum_eq_foldl]

theorem prefixWeight_mono (weights : List ℕ) : Monotone (prefixWeight weights) := by
  intro i j le
  exact List.Sublist.sum_le_sum (List.take_sublist_take_left le) (fun _ _ => Nat.zero_le _)

theorem prefixWeight_succ (weights : List ℕ) {i : ℕ} (inside : i < weights.length) :
    prefixWeight weights (i + 1) = prefixWeight weights i + weights[i] :=
  List.sum_take_succ weights i inside

theorem prefixWeight_length (weights : List ℕ) :
    prefixWeight weights weights.length = weights.sum := by
  rw [prefixWeight, List.take_length]

theorem searchLeader_eq_locate (weights : List ℕ) (position : ℕ) :
    searchLeader weights.length (prefixWeights weights) position =
      match Intervals.locate (prefixWeight weights) weights.length position with
      | some i => (i : Int) + 1
      | none => 1 := by
  have agree : ∀ i ≤ weights.length,
      (prefixWeights weights).getD i 0 = prefixWeight weights i :=
    fun i inside => getD_prefixWeights weights inside
  rw [searchLeader, Intervals.locate_congr agree]

theorem searchLeader_eq_electedAt (weights : List ℕ) (position : ℕ) :
    searchLeader weights.length (prefixWeights weights) position = electedAt weights position := by
  rw [searchLeader_eq_locate]
  rfl

theorem electedAt_eq_iff (weights : List ℕ) {position : ℕ} (inside : position < weights.sum)
    {i : ℕ} : electedAt weights position = i + 1 ↔
      i < weights.length ∧ Intervals.Within (prefixWeight weights) i position := by
  rw [← prefixWeight_length] at inside
  obtain ⟨j, located⟩ :=
    Intervals.locate_isSome (prefixWeight_mono weights) weights.length (Nat.zero_le _) inside
  have elected : electedAt weights position = j + 1 := by
    rw [← searchLeader_eq_electedAt, searchLeader_eq_locate, located]
  rw [elected, ← Intervals.locate_eq_some_iff (prefixWeight_mono weights), located,
    Option.some.injEq]
  omega

theorem card_elected (weights : List ℕ) {i : ℕ} (inside : i < weights.length) :
    ((Finset.range weights.sum).filter (fun p => electedAt weights p = i + 1)).card =
      weights[i] := by
  have same : (Finset.range weights.sum).filter (fun p => electedAt weights p = i + 1) =
      (Finset.range (prefixWeight weights weights.length)).filter
        (Intervals.Within (prefixWeight weights) i) := by
    rw [prefixWeight_length]
    apply Finset.filter_congr
    intro p member
    rw [electedAt_eq_iff weights (Finset.mem_range.mp member)]
    exact and_iff_right inside
  rw [same, Intervals.card_within (prefixWeight_mono weights) inside,
    prefixWeight_succ weights inside]
  omega

namespace Elector
variable {crypto : Crypto} {e : Elector}

theorem after_eq (e : Elector) (history : List Int) :
    e.after crypto history =
      { e with leaderCache := Memo.after (e.elect crypto) e.leaderCache history } := by
  induction history generalizing e with
  | nil => rfl
  | cons view rest ih => exact ih _

theorem after_append (e : Elector) (first second : List Int) :
    (e.after crypto first).after crypto second = e.after crypto (first ++ second) :=
  (List.foldl_append ..).symm

theorem vrfLeader_after (fresh : e.leaderCache = ∅) (history : List Int) (view : Int) :
    ((e.after crypto history).vrfLeader crypto view).1 = e.elect crypto view := by
  have sound : Memo.Sound (e.elect crypto) (Memo.after (e.elect crypto) ∅ history) :=
    Memo.sound_empty.after history
  rw [after_eq, fresh]
  exact Memo.call_fst sound view

end Elector

theorem elect_proposalManager (crypto : Crypto) (weights : List ℕ) (view : Int) :
    (proposalManagerElector weights).elect crypto view = vrfLeader crypto weights view :=
  searchLeader_eq_electedAt weights _

theorem performancePrimary_eq (crypto : Crypto) (weights : List ℕ) :
    performancePrimary crypto weights = vrfLeader crypto weights 1 :=
  searchLeader_eq_electedAt weights _

/-- The intervals divide the total weight, each replica is elected at as many positions
as it has weight, and the three copies agree whatever was asked before. -/
theorem election_partition (crypto : Crypto) (weights : List ℕ) :
    (∀ position < weights.sum,
      (∃! i, i < weights.length ∧
        Intervals.Within (fun j => (prefixWeights weights).getD j 0) i position) ∧
      ∀ i < weights.length,
        searchLeader weights.length (prefixWeights weights) position = i + 1 ↔
          Intervals.Within (fun j => (prefixWeights weights).getD j 0) i position) ∧
    (∀ (i : ℕ) (inside : i < weights.length), ((Finset.range weights.sum).filter (fun p =>
      searchLeader weights.length (prefixWeights weights) p = i + 1)).card = weights[i]) ∧
    (∀ (asked asked' : List Int) (view : Int),
      (((tdHotstuffElector crypto weights).after crypto asked).vrfLeader crypto view).1 =
        (((proposalManagerElector weights).after crypto asked').vrfLeader crypto view).1) ∧
    ∀ asked : List Int,
      (((tdHotstuffElector crypto weights).after crypto asked).vrfLeader crypto 1).1 =
        performancePrimary crypto weights := by
  have table : ∀ i < weights.length, ∀ position,
      Intervals.Within (fun j => (prefixWeights weights).getD j 0) i position ↔
        Intervals.Within (prefixWeight weights) i position := by
    intro i inside position
    simp only [Intervals.Within, getD_prefixWeights weights inside.le,
      getD_prefixWeights weights inside]
  have replica : ∀ (asked : List Int) (view : Int),
      (((tdHotstuffElector crypto weights).after crypto asked).vrfLeader crypto view).1 =
        vrfLeader crypto weights view := by
    intro asked view
    rw [tdHotstuffElector, Elector.after_append, Elector.vrfLeader_after rfl,
      elect_proposalManager]
  refine ⟨fun position inside => ?_, fun i inside => ?_, fun asked asked' view => ?_,
    fun asked => ?_⟩
  · constructor
    · obtain ⟨i, below, within⟩ := Intervals.exists_within weights.length (Nat.zero_le _)
        ((prefixWeight_length weights).symm ▸ inside)
      refine ⟨i, ⟨below, (table i below position).mpr within⟩, ?_⟩
      rintro j ⟨below', other⟩
      exact ((table j below' position).mp other).unique (prefixWeight_mono weights) within
    · intro i below
      rw [searchLeader_eq_electedAt, electedAt_eq_iff weights inside, table i below position]
      exact and_iff_right below
  · simp only [searchLeader_eq_electedAt]
    exact card_elected weights inside
  · rw [replica, Elector.vrfLeader_after rfl, elect_proposalManager]
  · rw [replica, performancePrimary_eq]

example : prefixWeights [3, 1, 2] = [0, 3, 4, 6] ∧
    (List.range 6).map (searchLeader 3 (prefixWeights [3, 1, 2])) = [1, 1, 1, 2, 3, 3] := by
  decide

end ResDB.TdHotstuff
