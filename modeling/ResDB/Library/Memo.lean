import ResDB.Library.AssocMap

/-! A function memoised in a finite map: look the argument up, compute and store it when
it is absent. A table that holds only values of the function changes no answer, whatever
was asked before. -/
namespace Memo
variable {K V : Type*} [DecidableEq K] (f : K → V)

def call (cache : AssocMap K V) (k : K) : V × AssocMap K V :=
  match cache.find k with
  | some v => (v, cache)
  | none => (f k, cache.set k (f k))

def after (cache : AssocMap K V) (history : List K) : AssocMap K V :=
  history.foldl (fun table k => (call f table k).2) cache

def Sound (cache : AssocMap K V) : Prop := ∀ k v, cache.find k = some v → v = f k

variable {f} {cache : AssocMap K V}

theorem sound_empty : Sound f (∅ : AssocMap K V) := by
  intro k v found
  exact absurd (AssocMap.mem_of_find found) List.not_mem_nil

theorem call_fst (sound : Sound f cache) (k : K) : (call f cache k).1 = f k := by
  unfold call
  cases found : cache.find k with
  | none => rfl
  | some v => exact sound k v found

theorem Sound.call (sound : Sound f cache) (k : K) : Sound f (call f cache k).2 := by
  unfold Memo.call
  cases cache.find k with
  | some v => exact sound
  | none =>
      intro j v found
      rw [AssocMap.find_set] at found
      split_ifs at found with same
      · rw [same, ← Option.some.inj found]
      · exact sound j v found

theorem Sound.after (sound : Sound f cache) (history : List K) :
    Sound f (after f cache history) := by
  induction history generalizing cache with
  | nil => exact sound
  | cons k rest ih => exact ih (sound.call k)

end Memo
