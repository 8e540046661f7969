import Mathlib.Tactic
import ResDB.Common.Crypto

/-! Weighted leader election. `TdHotstuff::VRFLeader` and its copy in
`ProposalManager` hash the epoch and the view, and map the result onto the interval
`[0, total_weight)` cut up by the replicas' weights. Their caches only store results. -/
namespace ResDB.TdHotstuff

/-- `std::to_string`, as ASCII bytes. -/
def decimal (i : Int) : Bytes :=
  let digits := (Nat.toDigits 10 i.natAbs).map (fun c => UInt8.ofNat c.toNat)
  if i < 0 then 45 :: digits else digits

/-- `epoch_` is never changed after its initialiser. -/
def epoch : ℕ := 1

def vrfInput (view : Int) : Bytes := decimal epoch ++ 58 :: decimal view

def hashVal (hashRaw : Bytes) : UInt32 :=
  (hashRaw.take 4).foldl (fun acc byte => (acc <<< 8) ||| byte.toUInt32) 0

/-- `prefix_weights_[i]`. -/
def prefixWeight (weights : List ℕ) (i : ℕ) : ℕ := (weights.take i).sum

/-- The first replica whose interval contains the position; 1 is the source's default. -/
def electedAt (weights : List ℕ) (position : ℕ) : Int :=
  match (List.range weights.length).find? (fun i =>
      prefixWeight weights i ≤ position ∧ position < prefixWeight weights (i + 1)) with
  | some i => i + 1
  | none => 1

def vrfLeader (crypto : Crypto) (weights : List ℕ) (view : Int) : Int :=
  electedAt weights ((hashVal (crypto.sha256 (vrfInput view))).toNat % weights.sum)

def nextLeader (crypto : Crypto) (weights : List ℕ) (view : Int) : Int :=
  vrfLeader crypto weights (view + 1)

end ResDB.TdHotstuff
