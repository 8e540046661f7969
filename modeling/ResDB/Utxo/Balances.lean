import Mathlib.Tactic
import ResDB.Library.Marking
import ResDB.Library.Run
import ResDB.Utxo.Ledger

/-! The value in the ledger. The checks of a transaction count an input as often as it is
listed and every output, while the mempool spends an input once and keeps an output that
comes marked as spent out of the unspent ones. What follows for the total of the unspent
outputs, and for the balances of the wallet. -/
namespace ResDB.Utxo

theorem sum_map_modify {α : Type*} (g : α → Int) (f : α → α) (list : List α) (i : ℕ) :
    ((list.modify i f).map g).sum =
      (list.map g).sum + (list[i]?.map (fun x => g (f x) - g x)).getD 0 := by
  induction list generalizing i with
  | nil => simp
  | cons x rest ih =>
      cases i with
      | zero =>
          simp only [List.modify_zero_cons, List.map_cons, List.sum_cons,
            List.getElem?_cons_zero, Option.map_some, Option.getD_some]
          ring
      | succ i =>
          rw [List.modify_succ_cons, List.map_cons, List.map_cons, List.sum_cons, List.sum_cons,
            ih, List.getElem?_cons_succ, add_assoc]

/-- What an output adds to the unspent value at some addresses. -/
def UTXOOut.worth (holder : Bytes → Bool) (out : UTXOOut) : Int :=
  if out.spent = false ∧ holder out.address = true then out.value else 0

namespace TxMempool
variable (holder : Bytes → Bool) (m : TxMempool)

/-- The value of the unspent outputs at some addresses. -/
def unspent : Int := (m.txs.map (fun utxo => (utxo.outs.map (UTXOOut.worth holder)).sum)).sum

def worthAt (k : UTXOIn) : Int := ((m.out? k).map (UTXOOut.worth holder)).getD 0

theorem unspent_mark (k : UTXOIn) :
    (m.mark k).unspent holder = m.unspent holder - m.worthAt holder k := by
  by_cases inside : 0 ≤ k.prevId ∧ 0 ≤ k.outIdx
  · obtain ⟨id, index⟩ := k
    lift id to ℕ using inside.1
    lift index to ℕ using inside.2
    rw [mark, if_pos inside, unspent, worthAt, out?_natCast, sum_map_modify]
    simp only [Int.toNat_natCast, sum_map_modify]
    cases m.txs[id]? with
    | none => exact (add_zero _).trans (sub_zero _).symm
    | some utxo =>
        simp only [Option.map_some, Option.bind_some, Option.getD_some]
        cases utxo.outs[index]? with
        | none =>
            simp only [Option.map_none, Option.getD_none, unspent]
            ring
        | some out =>
            have gone : UTXOOut.worth holder { out with spent := true } = 0 := by
              simp [UTXOOut.worth]
            simp only [Option.map_some, Option.getD_some, gone, unspent]
            ring
  · rw [mark, if_neg inside, worthAt, out?_eq_none inside]
    exact (sub_zero _).symm

theorem worthAt_mark (k j : UTXOIn) :
    (m.mark k).worthAt holder j = if j = k then 0 else m.worthAt holder j := by
  rw [worthAt, out?_mark, worthAt]
  split_ifs with same
  · cases m.out? k with
    | none => rfl
    | some out => simp [UTXOOut.worth]
  · rfl

/-- The unspent value under the marks of `MarkSpend`. -/
def marking : Marking TxMempool UTXOIn Int where
  total := unspent holder
  weight := worthAt holder
  mark := mark
  total_mark := unspent_mark holder
  weight_mark := worthAt_mark holder

theorem worthAt_of_spendable {m : TxMempool} {address : Bytes} {k : UTXOIn}
    (spendable : m.Spendable address k) :
    m.worthAt holder k = if holder address = true then m.valueAt k else 0 := by
  obtain ⟨out, found, unspent, rfl⟩ := spendable
  rw [worthAt, valueAt, found]
  simp [UTXOOut.worth, unspent]

end TxMempool

namespace UTXO
variable (holder : Bytes → Bool) (utxo : UTXO)

def paidTo : Int :=
  ((utxo.outs.filter (fun out => holder out.address)).map (fun out => out.value)).sum

/-- The value of those outputs to them that come marked as spent. -/
def preSpent : Int :=
  ((utxo.outs.filter (fun out => out.spent && holder out.address)).map (fun out => out.value)).sum

theorem sum_worth : (utxo.outs.map (UTXOOut.worth holder)).sum =
    utxo.paidTo holder - utxo.preSpent holder := by
  unfold paidTo preSpent
  induction utxo.outs with
  | nil => rfl
  | cons out rest ih =>
      rw [List.map_cons, List.sum_cons, ih, List.filter_cons, List.filter_cons, UTXOOut.worth]
      cases out.spent with
      | true =>
          cases holder out.address with
          | true => simp
          | false => simp
      | false =>
          cases holder out.address with
          | true =>
              simp
              ring
          | false => simp

theorem paidTo_all : utxo.paidTo (fun _ => true) = (utxo.outs.map (fun out => out.value)).sum := by
  simp [paidTo]

end UTXO

namespace Ledger
variable (l : Ledger) (utxo : UTXO)

def total : Int := l.mempool.unspent (fun _ => true)

def unspentAt (a : Bytes) : Int := l.mempool.unspent (fun address => address = a)

/-- The value that the inputs of a transaction count beyond the first time. -/
def repeated : Int :=
  (utxo.ins.map l.mempool.valueAt).sum - ∑ k ∈ utxo.ins.toFinset, l.mempool.valueAt k

variable {l utxo} {A : Arithmetic} {ecdsaVerifyString : Bytes → Bytes → Bytes → Bool}

theorem unspent_settle (acceptable : Acceptable A ecdsaVerifyString l utxo)
    (holder : Bytes → Bool) :
    (l.settle A utxo).mempool.unspent holder = l.mempool.unspent holder -
      (if holder utxo.address = true then
        (utxo.ins.map l.mempool.valueAt).sum - l.repeated utxo else 0) +
      (utxo.paidTo holder - utxo.preSpent holder) := by
  have spent : (utxo.ins.foldl TxMempool.mark l.mempool).unspent holder =
      l.mempool.unspent holder - ∑ k ∈ utxo.ins.toFinset, l.mempool.worthAt holder k :=
    (TxMempool.marking holder).total_foldl l.mempool utxo.ins
  have distinct : ∑ k ∈ utxo.ins.toFinset, l.mempool.worthAt holder k =
      if holder utxo.address = true then
        (utxo.ins.map l.mempool.valueAt).sum - l.repeated utxo else 0 := by
    rw [Finset.sum_congr rfl (fun k member => TxMempool.worthAt_of_spendable holder
      (acceptable.spendable k (List.mem_toFinset.mp member)))]
    split_ifs
    · rw [repeated, sub_sub_cancel]
    · exact Finset.sum_const_zero
  have added : (l.settle A utxo).mempool.unspent holder =
      (utxo.ins.foldl TxMempool.mark l.mempool).unspent holder +
        (utxo.outs.map (UTXOOut.worth holder)).sum := by
    simp only [TxMempool.unspent, settle, List.map_append, List.sum_append, List.map_singleton,
      List.sum_singleton]
  rw [added, spent, distinct, utxo.sum_worth]

theorem addCoin_apply {w : Wallet} {a : Bytes} (fits : A.Fits (w a)) (address : Bytes)
    (value : Int) :
    (w.addCoin A address value) a = A.keep (w a + if address = a then value else 0) := by
  unfold Wallet.addCoin
  by_cases here : address = a
  · rw [← here, Function.update_self, if_pos rfl]
  · rw [Function.update_of_ne (Ne.symm here), if_neg here, add_zero, fits.keep_eq]

theorem credit_apply {w : Wallet} {a : Bytes} (fits : A.Fits (w a)) (outs : List UTXOOut) :
    credit A w outs a = A.keep (w a +
      ((outs.filter (fun out => decide (out.address = a))).map (fun out => out.value)).sum) := by
  unfold credit
  induction outs generalizing w with
  | nil => simp [fits.keep_eq]
  | cons out rest ih =>
      have first := addCoin_apply fits out.address out.value
      rw [List.foldl_cons, ih (first ▸ A.fits_keep _), first, A.keep_keep_add, List.filter_cons]
      by_cases here : out.address = a
      · simp [here, add_assoc]
      · simp [here]

theorem wallet_settle {a : Bytes} (fits : A.Fits (l.wallet a)) :
    (l.settle A utxo).wallet a = A.keep (l.wallet a -
      (if utxo.address = a then (utxo.ins.map l.mempool.valueAt).sum else 0) +
      utxo.paidTo (fun address => address = a)) := by
  have debited := addCoin_apply fits utxo.address (-(utxo.ins.map l.mempool.valueAt).sum)
  have credited : (l.settle A utxo).wallet a = _ :=
    credit_apply (debited ▸ A.fits_keep _) utxo.outs
  rw [credited, debited, A.keep_keep_add, sub_eq_add_neg, apply_ite Neg.neg, neg_zero]
  rfl

theorem fits_settle (fits : ∀ a, A.Fits (l.wallet a)) (utxo : UTXO) (a : Bytes) :
    A.Fits ((l.settle A utxo).wallet a) := by
  rw [wallet_settle (fits a)]
  exact A.fits_keep _

theorem step_cases (A : Arithmetic) (ecdsaVerifyString : Bytes → Bytes → Bytes → Bool)
    (l : Ledger) (utxo : UTXO) :
    (Acceptable A ecdsaVerifyString l utxo ∧
      l.step A ecdsaVerifyString utxo = some (l.settle A utxo)) ∨
    (¬ Acceptable A ecdsaVerifyString l utxo ∧
      ∀ l', l.step A ecdsaVerifyString utxo = some l' → l' = l) := by
  unfold step
  rcases l.addTransaction_cases A ecdsaVerifyString utxo with
    ⟨acceptable, done⟩ | ⟨unacceptable, aborted | refused⟩
  · rw [done]
    exact .inl ⟨acceptable, rfl⟩
  · rw [aborted]
    exact .inr ⟨unacceptable, nofun⟩
  · rw [refused]
    exact .inr ⟨unacceptable, fun _ same => (Option.some_inj.mp same).symm⟩

/-- What repeated inputs count again is covered by what the transaction leaves over and by
its outputs that come marked as spent. -/
def NoSurplus (l : Ledger) (utxo : UTXO) : Prop :=
  l.repeated utxo ≤ (utxo.ins.map l.mempool.valueAt).sum -
    (utxo.outs.map (fun out => out.value)).sum + utxo.preSpent (fun _ => true)

theorem total_settle_le_iff (acceptable : Acceptable A ecdsaVerifyString l utxo) :
    (l.settle A utxo).total ≤ l.total ↔ NoSurplus l utxo := by
  rw [total, total, unspent_settle acceptable, if_pos rfl, utxo.paidTo_all, NoSurplus]
  constructor
  · intro less
    linarith
  · intro covered
    linarith

/-- The total of the unspent outputs never increases over the calls if and only if no
accepted transaction has a surplus, with exact sums and with those of the code. -/
theorem total_never_increases_iff (A : Arithmetic)
    (ecdsaVerifyString : Bytes → Bytes → Bytes → Bool) (transactions calls : List UTXO) :
    Run.Along (step A ecdsaVerifyString) (fun l utxo =>
        ∀ l', l.step A ecdsaVerifyString utxo = some l' → l'.total ≤ l.total)
      (genesis A transactions) calls ↔
    Run.Along (step A ecdsaVerifyString) (fun l utxo =>
        Acceptable A ecdsaVerifyString l utxo → NoSurplus l utxo)
      (genesis A transactions) calls := by
  have each : ∀ (l : Ledger) (utxo : UTXO),
      (∀ l', l.step A ecdsaVerifyString utxo = some l' → l'.total ≤ l.total) ↔
        (Acceptable A ecdsaVerifyString l utxo → NoSurplus l utxo) := by
    intro l utxo
    rcases l.step_cases A ecdsaVerifyString utxo with ⟨acceptable, settled⟩ | ⟨unacceptable, same⟩
    · rw [settled, ← total_settle_le_iff acceptable]
      constructor
      · exact fun less _ => less _ rfl
      · intro less l' reached
        cases reached
        exact less acceptable
    · constructor
      · exact fun _ acceptable => absurd acceptable unacceptable
      · exact fun _ l' reached => (congrArg total (same l' reached)).le
  constructor
  · exact Run.Along.imp (fun l utxo => (each l utxo).mp)
  · exact Run.Along.imp (fun l utxo => (each l utxo).mpr)

def Consistent (l : Ledger) : Prop := ∀ a, l.wallet a = l.unspentAt a

/-- To each address as much goes in outputs that come marked as spent as repeated inputs take
from it again. -/
def Offset (l : Ledger) (utxo : UTXO) : Prop :=
  ∀ a, utxo.preSpent (fun address => address = a) =
    if utxo.address = a then l.repeated utxo else 0

/-- No balance leaves its range with the transaction. -/
def InRange (A : Arithmetic) (l : Ledger) (utxo : UTXO) : Prop :=
  ∀ a, A.Fits (l.wallet a -
    (if utxo.address = a then (utxo.ins.map l.mempool.valueAt).sum else 0) +
      utxo.paidTo (fun address => address = a))

theorem consistent_settle_iff (consistent : Consistent l) (fits : ∀ a, A.Fits (l.wallet a))
    (range : InRange A l utxo) (acceptable : Acceptable A ecdsaVerifyString l utxo) :
    Consistent (l.settle A utxo) ↔ Offset l utxo := by
  refine forall_congr' (fun a => ?_)
  rw [unspentAt, unspent_settle acceptable, wallet_settle (fits a), (range a).keep_eq,
    consistent a, unspentAt]
  simp only [decide_eq_true_eq]
  by_cases here : utxo.address = a
  · simp only [if_pos here]
    constructor <;> intro same <;> linarith
  · simp only [if_neg here]
    constructor <;> intro same <;> linarith

theorem fits_step (fits : ∀ a, A.Fits (l.wallet a)) {l' : Ledger}
    (taken : l.step A ecdsaVerifyString utxo = some l') (a : Bytes) : A.Fits (l'.wallet a) := by
  rcases l.step_cases A ecdsaVerifyString utxo with ⟨-, settled⟩ | ⟨-, same⟩
  · cases settled.symm.trans taken
    exact fits_settle fits utxo a
  · rw [same l' taken]
    exact fits a

theorem along_consistent_iff (ecdsaVerifyString : Bytes → Bytes → Bytes → Bool)
    (consistent : Consistent l) (fits : ∀ a, A.Fits (l.wallet a)) {calls : List UTXO}
    (range : Run.Along (step A ecdsaVerifyString) (fun l utxo =>
      Acceptable A ecdsaVerifyString l utxo → InRange A l utxo) l calls) :
    Run.Along (step A ecdsaVerifyString) (fun l utxo =>
        ∀ l', l.step A ecdsaVerifyString utxo = some l' → Consistent l') l calls ↔
    Run.Along (step A ecdsaVerifyString) (fun l utxo =>
        Acceptable A ecdsaVerifyString l utxo → Offset l utxo) l calls := by
  induction calls generalizing l with
  | nil => exact Iff.rfl
  | cons utxo rest ih =>
      have head : (∀ l', l.step A ecdsaVerifyString utxo = some l' → Consistent l') ↔
          (Acceptable A ecdsaVerifyString l utxo → Offset l utxo) := by
        rcases l.step_cases A ecdsaVerifyString utxo with
          ⟨acceptable, settled⟩ | ⟨unacceptable, same⟩
        · rw [settled, ← consistent_settle_iff consistent fits (range.1 acceptable) acceptable]
          constructor
          · exact fun keeps _ => keeps _ rfl
          · intro keeps l' reached
            cases reached
            exact keeps acceptable
        · constructor
          · exact fun _ acceptable => absurd acceptable unacceptable
          · exact fun _ l' reached => same l' reached ▸ consistent
      rw [Run.Along, Run.Along, head]
      refine and_congr_right (fun keeps => ?_)
      cases first : l.step A ecdsaVerifyString utxo with
      | none => exact Iff.rfl
      | some l' => exact ih (head.mpr keeps l' first) (fits_step fits first) (range.tail first)

def granted (transactions : List UTXO) (a : Bytes) : Int :=
  (transactions.map (fun trans => trans.paidTo (fun address => address = a))).sum

theorem genesis_concat (A : Arithmetic) (transactions : List UTXO) (trans : UTXO) :
    genesis A (transactions ++ [trans]) =
      ⟨⟨(genesis A transactions).mempool.txs ++ [trans]⟩,
        credit A (genesis A transactions).wallet trans.outs⟩ :=
  List.foldl_concat ..

theorem genesis_wallet (A : Arithmetic) (transactions : List UTXO) (a : Bytes) :
    A.Fits ((genesis A transactions).wallet a) ∧
      (genesis A transactions).wallet a = A.keep (granted transactions a) := by
  induction transactions using List.reverseRecOn with
  | nil => exact ⟨A.fits_zero, A.fits_zero.keep_eq.symm⟩
  | append_singleton transactions trans ih =>
      obtain ⟨fits, wallet⟩ := ih
      rw [genesis_concat]
      dsimp only
      rw [credit_apply fits, wallet, A.keep_keep_add]
      refine ⟨A.fits_keep _, ?_⟩
      simp only [granted, List.map_append, List.sum_append, List.map_singleton,
        List.sum_singleton, UTXO.paidTo]

theorem genesis_unspentAt (A : Arithmetic) (transactions : List UTXO) (a : Bytes) :
    (genesis A transactions).unspentAt a = granted transactions a -
      (transactions.map (fun trans => trans.preSpent (fun address => address = a))).sum := by
  induction transactions using List.reverseRecOn with
  | nil => rfl
  | append_singleton transactions trans ih =>
      have added : (genesis A (transactions ++ [trans])).unspentAt a =
          (genesis A transactions).unspentAt a + (trans.paidTo (fun address => address = a) -
            trans.preSpent (fun address => address = a)) := by
        rw [genesis_concat, ← trans.sum_worth]
        simp only [unspentAt, TxMempool.unspent, List.map_append, List.sum_append,
          List.map_singleton, List.sum_singleton]
      rw [added, ih]
      simp only [granted, List.map_append, List.sum_append, List.map_singleton,
        List.sum_singleton]
      ring

theorem genesis_consistent_iff {transactions : List UTXO}
    (range : ∀ a, A.Fits (granted transactions a)) :
    Consistent (genesis A transactions) ↔
      ∀ a, (transactions.map (fun trans =>
        trans.preSpent (fun address => address = a))).sum = 0 := by
  refine forall_congr' (fun a => ?_)
  rw [(genesis_wallet A transactions a).2, (range a).keep_eq, genesis_unspentAt, eq_comm,
    sub_eq_self]

/-- The balances are those of the unspent outputs after the genesis and after every call, if
and only if this holds of what the genesis marks as spent and every accepted transaction
offsets what it repeats by what it marks, as long as no balance leaves the range of its type. -/
theorem wallet_consistent_iff (A : Arithmetic)
    (ecdsaVerifyString : Bytes → Bytes → Bytes → Bool) (transactions calls : List UTXO)
    (start : ∀ a, A.Fits (granted transactions a))
    (range : Run.Along (step A ecdsaVerifyString) (fun l utxo =>
      Acceptable A ecdsaVerifyString l utxo → InRange A l utxo) (genesis A transactions) calls) :
    (Consistent (genesis A transactions) ∧
      Run.Along (step A ecdsaVerifyString) (fun l utxo =>
          ∀ l', l.step A ecdsaVerifyString utxo = some l' → Consistent l')
        (genesis A transactions) calls) ↔
    (∀ a, (transactions.map (fun trans =>
        trans.preSpent (fun address => address = a))).sum = 0) ∧
      Run.Along (step A ecdsaVerifyString) (fun l utxo =>
          Acceptable A ecdsaVerifyString l utxo → Offset l utxo)
        (genesis A transactions) calls := by
  rw [← genesis_consistent_iff start]
  refine and_congr_right (fun consistent => ?_)
  exact along_consistent_iff _ consistent (fun a => (genesis_wallet A transactions a).1) range

/-! ### Ordinary transactions -/

theorem preSpent_eq_zero (holder : Bytes → Bool)
    (unmarked : ∀ out ∈ utxo.outs, out.spent = false) : utxo.preSpent holder = 0 := by
  rw [UTXO.preSpent, List.filter_eq_nil_iff.mpr]
  · rfl
  · intro out member
    rw [unmarked out member, Bool.false_and]
    exact Bool.false_ne_true

theorem offset_of_plain (l : Ledger) (unmarked : ∀ out ∈ utxo.outs, out.spent = false)
    (distinct : utxo.ins.Nodup) : Offset l utxo := by
  intro a
  have once : l.repeated utxo = 0 := by
    rw [repeated, List.sum_toFinset _ distinct, sub_self]
  rw [preSpent_eq_zero _ unmarked, once, ite_self]

def turnover (l : Ledger) (utxo : UTXO) : Int :=
  |(utxo.ins.map l.mempool.valueAt).sum| + (utxo.outs.map (fun out => |out.value|)).sum

theorem abs_paidTo_le (holder : Bytes → Bool) (utxo : UTXO) :
    |utxo.paidTo holder| ≤ (utxo.outs.map (fun out => |out.value|)).sum := by
  unfold UTXO.paidTo
  induction utxo.outs with
  | nil => exact le_rfl
  | cons out rest ih =>
      rw [List.filter_cons, List.map_cons, List.sum_cons]
      split_ifs
      · rw [List.map_cons, List.sum_cons]
        exact (abs_add_le _ _).trans (add_le_add_right ih _)
      · exact ih.trans (le_add_of_nonneg_left (abs_nonneg _))

theorem inRange_of_turnover {bound : Int} (fits : ∀ a, A.Fits (l.wallet a))
    (wallet : ∀ a, |l.wallet a| ≤ bound) (small : bound + l.turnover utxo < 2 ^ 63) :
    InRange A l utxo ∧ ∀ a, |(l.settle A utxo).wallet a| ≤ bound + l.turnover utxo := by
  have moved : ∀ a, |l.wallet a -
      (if utxo.address = a then (utxo.ins.map l.mempool.valueAt).sum else 0) +
        utxo.paidTo (fun address => address = a)| ≤ bound + l.turnover utxo := by
    intro a
    have paid := abs_paidTo_le (fun address => address = a) utxo
    have taken : |if utxo.address = a then (utxo.ins.map l.mempool.valueAt).sum else 0| ≤
        |(utxo.ins.map l.mempool.valueAt).sum| := by
      split_ifs
      · exact le_rfl
      · exact abs_zero.trans_le (abs_nonneg _)
    have first := abs_sub (l.wallet a)
      (if utxo.address = a then (utxo.ins.map l.mempool.valueAt).sum else 0)
    have second := abs_add_le (l.wallet a -
      (if utxo.address = a then (utxo.ins.map l.mempool.valueAt).sum else 0))
      (utxo.paidTo (fun address => address = a))
    have before := wallet a
    rw [turnover]
    omega
  have range : InRange A l utxo := by
    intro a
    have bounds := abs_le.mp (moved a)
    cases A with
    | exact => trivial
    | int64 =>
        refine ⟨?_, ?_⟩
        · norm_num
          omega
        · norm_num
          omega
  refine ⟨range, fun a => ?_⟩
  rw [wallet_settle (fits a), (range a).keep_eq]
  exact moved a

section Sample

def sampleVerify (message key sig : Bytes) : Bool := sig = key ++ message

/-- One output of value 10 to address `[1]`, under the key `[7]`. -/
def sampleGenesis : List UTXO := [{ outs := [{ address := [1], value := 10, pubKey := [7] }] }]

/-- Spends that output, as often as listed, with the signature of its owner. -/
def sampleSpend (times : ℕ) (outs : List UTXOOut) : UTXO :=
  let unsigned : UTXO := { ins := List.replicate times ⟨0, 0⟩, outs := outs, address := [1] }
  { unsigned with sig := [7] ++ unsigned.signedString }

def sampleSale : UTXO := sampleSpend 1 [{ address := [2], value := 9, pubKey := [8] }]

def sampleReturn : UTXO :=
  let unsigned : UTXO :=
    { ins := [⟨1, 0⟩], outs := [{ address := [1], value := 8, pubKey := [7] }], address := [2] }
  { unsigned with sig := [8] ++ unsigned.signedString }

theorem sampleGenesis_granted (a : Bytes) :
    granted sampleGenesis a = if [1] = a then 10 else 0 := by
  by_cases here : [1] = a
  · rw [if_pos here, ← here]
    rfl
  · simp [granted, sampleGenesis, UTXO.paidTo, here]

theorem sampleTrade_inRange :
    Run.Along (step .int64 sampleVerify) (fun l utxo =>
      Acceptable .int64 sampleVerify l utxo → InRange .int64 l utxo)
      (genesis .int64 sampleGenesis) [sampleSale, sampleReturn] := by
  have start := fun a => (genesis_wallet .int64 sampleGenesis a).1
  have wallet : ∀ a, |(genesis .int64 sampleGenesis).wallet a| ≤ 10 := by
    intro a
    rw [(genesis_wallet .int64 sampleGenesis a).2, sampleGenesis_granted]
    split_ifs <;> decide
  have sale : InRange .int64 (genesis .int64 sampleGenesis) sampleSale ∧ _ :=
    inRange_of_turnover start wallet (by decide)
  refine ⟨fun _ => sale.1, ?_⟩
  rcases step_cases .int64 sampleVerify (genesis .int64 sampleGenesis) sampleSale with
    ⟨-, settled⟩ | ⟨-, same⟩
  · rw [settled]
    refine ⟨fun _ => (inRange_of_turnover (fits_settle start _) sale.2 (by decide)).1, ?_⟩
    split <;> trivial
  · split
    · trivial
    · rename_i l' reached
      rw [same l' reached]
      refine ⟨fun _ => (inRange_of_turnover start wallet (by decide)).1, ?_⟩
      split <;> trivial

theorem sampleTrade_consistent :
    Consistent (genesis .int64 sampleGenesis) ∧
      Run.Along (step .int64 sampleVerify) (fun l utxo =>
          ∀ l', l.step .int64 sampleVerify utxo = some l' → Consistent l')
        (genesis .int64 sampleGenesis) [sampleSale, sampleReturn] := by
  have start : ∀ a, Arithmetic.int64.Fits (granted sampleGenesis a) := by
    intro a
    rw [sampleGenesis_granted]
    split_ifs <;> decide
  have plain : ∀ utxo ∈ [sampleSale, sampleReturn],
      (∀ out ∈ utxo.outs, out.spent = false) ∧ utxo.ins.Nodup := by decide
  refine (wallet_consistent_iff .int64 sampleVerify sampleGenesis _ start
    sampleTrade_inRange).mpr ⟨?_, Run.along_of_mem (fun utxo member l _ => ?_) _⟩
  · intro a
    rw [sampleGenesis, List.map_singleton, List.sum_singleton]
    exact preSpent_eq_zero _ (by decide)
  · exact offset_of_plain l (plain utxo member).1 (plain utxo member).2

theorem repeated_input_creates_value :
    (genesis .exact sampleGenesis).total = 10 ∧
      ((genesis .exact sampleGenesis).step .exact sampleVerify
        (sampleSpend 2 [{ address := [2], value := 19 }])).map total = some 19 := by
  constructor
  · decide
  · decide

theorem pre_spent_output_credited :
    ((genesis .int64 sampleGenesis).step .int64 sampleVerify
        (sampleSpend 1 [{ address := [2], value := 9, spent := true }])).map (fun l =>
      (l.wallet [2], l.unspentAt [2])) = some (9, 0) := by
  decide

end Sample

end Ledger
end ResDB.Utxo
