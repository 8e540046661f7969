import Mathlib.Algebra.Order.BigOperators.Group.List
import Mathlib.Tactic
import ResDB.Common.Crypto
import ResDB.Library.MachineInt

/-! The UTXO ledger: `TxMempool` keeps all transactions with their outputs, `Wallet` the
balances, and `Transaction` checks what clients submit. A result `none` is an abort: a failed
assertion or an index below zero. -/
namespace ResDB.Utxo

/-- How sums of values are kept: as exact integers, or in an `int64_t`, which wraps around. -/
inductive Arithmetic where
  | exact
  | int64
  deriving DecidableEq

namespace Arithmetic

def keep : Arithmetic → Int → Int
  | .exact, n => n
  | .int64, n => MachineInt.wrap 64 n

def Fits : Arithmetic → Int → Prop
  | .exact, _ => True
  | .int64, n => MachineInt.IsInt 64 n

instance : (A : Arithmetic) → (n : Int) → Decidable (A.Fits n)
  | .exact, _ => .isTrue trivial
  | .int64, n => inferInstanceAs (Decidable (MachineInt.IsInt 64 n))

theorem keep_keep_add (A : Arithmetic) (a b : Int) : A.keep (A.keep a + b) = A.keep (a + b) := by
  cases A with
  | exact => rfl
  | int64 => exact MachineInt.wrap_wrap_add 64 a b

theorem fits_keep (A : Arithmetic) (n : Int) : A.Fits (A.keep n) := by
  cases A with
  | exact => trivial
  | int64 => exact MachineInt.isInt_wrap (by decide) n

theorem Fits.keep_eq {A : Arithmetic} {n : Int} (fits : A.Fits n) : A.keep n = n := by
  cases A with
  | exact => rfl
  | int64 => exact (MachineInt.wrap_eq_self_iff (by decide)).mpr fits

theorem fits_zero (A : Arithmetic) : A.Fits 0 := by
  cases A with
  | exact => trivial
  | int64 => exact (by decide : MachineInt.IsInt 64 0)

end Arithmetic

structure UTXOIn where
  prevId : Int
  outIdx : Int
  deriving DecidableEq

structure UTXOOut where
  address : Bytes
  value : Int
  spent : Bool := false
  pubKey : Bytes := []
  deriving DecidableEq

structure UTXO where
  ins : List UTXOIn := []
  outs : List UTXOOut := []
  sig : Bytes := []
  address : Bytes := []
  deriving DecidableEq

/-- The ids are given out in ascending order from 0 on, so an id is a place in the list. -/
structure TxMempool where
  txs : List UTXO := []

namespace TxMempool
variable (m : TxMempool)

def addUTXO (utxo : UTXO) : TxMempool × Int := (⟨m.txs ++ [utxo]⟩, m.txs.length)

def find (id : Int) : Option UTXO := if 0 ≤ id then m.txs[id.toNat]? else none

/-- What the lookups share: the output, or that there is none. -/
def lookup (k : UTXOIn) : Option (Option UTXOOut) :=
  match m.find k.prevId with
  | none => some none
  | some utxo =>
      if (utxo.outs.length : Int) ≤ k.outIdx then some none
      else if k.outIdx < 0 then none
      else some utxo.outs[k.outIdx.toNat]?

def getUTXO (k : UTXOIn) (address : Bytes) : Option (Except String UTXOOut) :=
  (m.lookup k).map (fun found =>
    match found with
    | none => .error "id invalid."
    | some out =>
        if out.spent then .error "id has been spent."
        else if out.address ≠ address then .error "address invalid."
        else .ok out)

def out? (k : UTXOIn) : Option UTXOOut :=
  if 0 ≤ k.outIdx then (m.find k.prevId).bind (fun utxo => utxo.outs[k.outIdx.toNat]?) else none

def valueAt (k : UTXOIn) : Int := ((m.out? k).map (fun out => out.value)).getD 0

def mark (k : UTXOIn) : TxMempool :=
  if 0 ≤ k.prevId ∧ 0 ≤ k.outIdx then
    ⟨m.txs.modify k.prevId.toNat (fun utxo => { utxo with
      outs := utxo.outs.modify k.outIdx.toNat (fun out => { out with spent := true }) })⟩
  else m

/-- `MarkSpend`, which does not read its address. -/
def markSpend (k : UTXOIn) : Option (TxMempool × Int) :=
  (m.lookup k).map (fun found =>
    match found with
    | none => (m, -1)
    | some out => (m.mark k, out.value))

end TxMempool

/-- `Wallet`, in which every address starts with nothing. -/
abbrev Wallet := Bytes → Int

def Wallet.addCoin (A : Arithmetic) (w : Wallet) (address : Bytes) (value : Int) : Wallet :=
  Function.update w address (A.keep (w address + value))

structure Ledger where
  mempool : TxMempool := {}
  wallet : Wallet := fun _ => 0

/-- `std::to_string`. -/
def decimal (n : Int) : Bytes :=
  (if n < 0 then [45] else []) ++
    (Nat.toDigits 10 n.natAbs).map (fun c => UInt8.ofNat c.toNat)

def reserved : Bytes := [48, 48, 48, 48]

def UTXO.signedString (utxo : UTXO) : Bytes :=
  utxo.address ++ decimal (utxo.ins.map (fun k => k.prevId)).sum

namespace Ledger
variable (A : Arithmetic) (ecdsaVerifyString : Bytes → Bytes → Bytes → Bool) (l : Ledger)
  (utxo : UTXO)

/-- The first loop of `GetInput`. -/
def collect (m : TxMempool) (address : Bytes) : List UTXOIn → Option (Except String (List UTXOOut))
  | [] => some (.ok [])
  | k :: rest =>
      match m.getUTXO k address with
      | none => none
      | some (.error message) => some (.error message)
      | some (.ok out) => (collect m address rest).map (fun found => found.map (out :: ·))

/-- The public key that `GetInput` settles on: the first that is not empty. -/
def publicKey (outs : List UTXOOut) : Bytes :=
  ((outs.map (fun out => out.pubKey)).find? (fun key => key ≠ [])).getD []

def authorise (outs : List UTXOOut) : Except String (List UTXOOut) :=
  if outs.isEmpty then .error "Input invalid."
  else if utxo.sig.isEmpty then .error "Input invalid."
  else if ecdsaVerifyString utxo.signedString (publicKey outs) utxo.sig = false then
    .error "Key invalid."
  else if outs.any (fun out => out.pubKey ≠ publicKey outs) then .error "Key invalid."
  else .ok outs

def getInput : Option (Except String (List UTXOOut)) :=
  if utxo.ins = [] ∧ utxo.address = reserved then some (.ok [])
  else (collect l.mempool utxo.address utxo.ins).map (fun found =>
    found.bind (authorise ecdsaVerifyString utxo))

/-- `VerifyUTXO`, with one wrap for all its additions. -/
def verifyUTXO (inputs : List UTXOOut) : Bool :=
  0 < A.keep ((inputs.map (fun out => out.value)).sum - (utxo.outs.map (fun out => out.value)).sum)

/-- The first loop of `AddCoin`, which asserts that no value is negative. Its total wraps with
the balance it is taken from. -/
def spendAll (m : TxMempool) : List UTXOIn → Option (TxMempool × Int)
  | [] => some (m, 0)
  | k :: rest =>
      match m.markSpend k with
      | none => none
      | some (m, value) =>
          if value < 0 then none
          else (spendAll m rest).map (fun (m, total) => (m, value + total))

def credit (w : Wallet) (outs : List UTXOOut) : Wallet :=
  outs.foldl (fun w out => w.addCoin A out.address out.value) w

def addCoin : Option Ledger :=
  (spendAll l.mempool utxo.ins).map (fun (m, total) =>
    ⟨m, credit A (l.wallet.addCoin A utxo.address (-total)) utxo.outs⟩)

/-- `AddTransaction` with its return value. -/
def addTransaction : Option (Ledger × Int) :=
  match l.getInput ecdsaVerifyString utxo with
  | none => none
  | some (.error _) => some (l, -1)
  | some (.ok inputs) =>
      if verifyUTXO A utxo inputs = false then some (l, -1)
      else (l.addCoin A utxo).map (fun l =>
        let (m, id) := l.mempool.addUTXO utxo
        ({ l with mempool := m }, id))

/-- The constructor of `Transaction`. -/
def genesis (transactions : List UTXO) : Ledger :=
  transactions.foldl (fun l trans => ⟨(l.mempool.addUTXO trans).1, credit A l.wallet trans.outs⟩) {}

def step : Option Ledger := (l.addTransaction A ecdsaVerifyString utxo).map Prod.fst

end Ledger

namespace TxMempool
variable {m : TxMempool} {k : UTXOIn} {address : Bytes}

theorem lookup_cases (m : TxMempool) (k : UTXOIn) :
    (m.lookup k = none ∧ m.out? k = none) ∨ m.lookup k = some (m.out? k) := by
  unfold lookup out?
  cases m.find k.prevId with
  | none =>
      right
      split_ifs <;> rfl
  | some utxo =>
      dsimp only
      by_cases beyond : (utxo.outs.length : Int) ≤ k.outIdx
      · right
        have nonneg : 0 ≤ k.outIdx := (Int.natCast_nonneg _).trans beyond
        rw [if_pos beyond, if_pos nonneg, Option.bind_some, List.getElem?_eq_none (by omega)]
      · rw [if_neg beyond]
        by_cases negative : k.outIdx < 0
        · exact .inl ⟨if_pos negative, if_neg (not_le.mpr negative)⟩
        · right
          rw [if_neg negative, if_pos (not_lt.mp negative), Option.bind_some]

def Spendable (m : TxMempool) (address : Bytes) (k : UTXOIn) : Prop :=
  ∃ out, m.out? k = some out ∧ out.spent = false ∧ out.address = address

theorem getUTXO_eq_ok {out : UTXOOut} :
    m.getUTXO k address = some (.ok out) ↔
      m.out? k = some out ∧ out.spent = false ∧ out.address = address := by
  unfold getUTXO
  rcases m.lookup_cases k with ⟨aborts, none⟩ | found
  · rw [aborts, none]
    exact ⟨nofun, nofun⟩
  · rw [found, Option.map_some]
    cases m.out? k with
    | none => exact ⟨nofun, nofun⟩
    | some out' =>
        dsimp only
        split_ifs with spent other
        · refine ⟨nofun, ?_⟩
          rintro ⟨same, unspent, -⟩
          cases same
          rw [spent] at unspent
          cases unspent
        · refine ⟨nofun, ?_⟩
          rintro ⟨same, -, address⟩
          cases same
          exact absurd address other
        · constructor
          · intro same
            cases same
            exact ⟨rfl, Bool.eq_false_iff.mpr spent, not_not.mp other⟩
          · rintro ⟨same, -⟩
            rw [Option.some_inj.mp same]

theorem out?_eq_none (outside : ¬ (0 ≤ k.prevId ∧ 0 ≤ k.outIdx)) : m.out? k = none := by
  unfold out? find
  by_cases index : 0 ≤ k.outIdx
  · rw [if_pos index, if_neg (fun id => outside ⟨id, index⟩)]
    rfl
  · exact if_neg index

theorem out?_natCast (m : TxMempool) (id index : ℕ) :
    m.out? ⟨id, index⟩ = m.txs[id]?.bind (fun utxo => utxo.outs[index]?) := by
  simp only [out?, find, Int.natCast_nonneg, if_true, Int.toNat_natCast]

theorem out?_mark (m : TxMempool) (k j : UTXOIn) :
    (m.mark k).out? j =
      if j = k then (m.out? k).map (fun out => { out with spent := true }) else m.out? j := by
  by_cases inside : 0 ≤ k.prevId ∧ 0 ≤ k.outIdx
  · by_cases within : 0 ≤ j.prevId ∧ 0 ≤ j.outIdx
    · obtain ⟨id, index⟩ := k
      obtain ⟨id', index'⟩ := j
      lift id to ℕ using inside.1
      lift index to ℕ using inside.2
      lift id' to ℕ using within.1
      lift index' to ℕ using within.2
      rw [mark, if_pos inside]
      simp only [out?_natCast, List.getElem?_modify, Int.toNat_natCast, UTXOIn.mk.injEq,
        Nat.cast_inj]
      by_cases same : id' = id
      · subst same
        cases m.txs[id']? with
        | none => simp
        | some utxo =>
            by_cases here : index' = index
            · subst here
              simp
            · simp [here, Ne.symm here]
      · simp [same, Ne.symm same]
    · have other : j ≠ k := fun same => within (same ▸ inside)
      rw [if_neg other, out?_eq_none within, out?_eq_none within]
  · rw [mark, if_neg inside]
    split_ifs with same
    · rw [same, out?_eq_none inside]
      rfl
    · rfl

@[simp] theorem valueAt_mark (m : TxMempool) (k j : UTXOIn) :
    (m.mark k).valueAt j = m.valueAt j := by
  rw [valueAt, out?_mark, valueAt]
  split_ifs with same
  · rw [same, Option.map_map]
    rfl
  · rfl

theorem isSome_out?_mark (m : TxMempool) (k j : UTXOIn) :
    ((m.mark k).out? j).isSome = (m.out? j).isSome := by
  rw [out?_mark]
  split_ifs with same
  · rw [same, Option.isSome_map]
  · rfl

theorem length_foldl_mark (m : TxMempool) (ins : List UTXOIn) :
    (ins.foldl mark m).txs.length = m.txs.length := by
  induction ins generalizing m with
  | nil => rfl
  | cons k rest ih =>
      rw [List.foldl_cons, ih, mark]
      split_ifs
      · exact List.length_modify ..
      · rfl

theorem Spendable.out?_isSome {m : TxMempool} (spendable : m.Spendable address k) :
    (m.out? k).isSome := by
  obtain ⟨out, found, -⟩ := spendable
  exact Option.isSome_of_eq_some found

end TxMempool

namespace Ledger
open TxMempool
variable {A : Arithmetic} {ecdsaVerifyString : Bytes → Bytes → Bytes → Bool} {l : Ledger}
  {utxo : UTXO} {m : TxMempool} {address : Bytes}

theorem collect_eq_ok {ins : List UTXOIn} {outs : List UTXOOut} :
    collect m address ins = some (.ok outs) ↔
      (∀ k ∈ ins, m.Spendable address k) ∧ outs = ins.filterMap m.out? := by
  induction ins generalizing outs with
  | nil =>
      rw [collect]
      constructor
      · intro same
        cases same
        exact ⟨fun _ member => absurd member List.not_mem_nil, rfl⟩
      · rintro ⟨-, rfl⟩
        rfl
  | cons k rest ih =>
      rw [List.forall_mem_cons, collect]
      have known : m.Spendable address k → ∃ out, m.getUTXO k address = some (.ok out) :=
        fun ⟨out, found⟩ => ⟨out, getUTXO_eq_ok.mpr found⟩
      cases got : m.getUTXO k address with
      | none =>
          rw [got] at known
          exact ⟨nofun, fun ⟨⟨first, _⟩, _⟩ => absurd (known first) nofun⟩
      | some result =>
          cases result with
          | error message =>
              rw [got] at known
              exact ⟨nofun, fun ⟨⟨first, _⟩, _⟩ => absurd (known first) nofun⟩
          | ok out =>
              obtain ⟨found, first⟩ := getUTXO_eq_ok.mp got
              rw [List.filterMap_cons_some found, Option.map_eq_some_iff]
              constructor
              · rintro ⟨later, collected, same⟩
                cases later with
                | error message => cases same
                | ok tail =>
                    obtain ⟨spendable, rfl⟩ := ih.mp collected
                    cases same
                    exact ⟨⟨⟨out, found, first⟩, spendable⟩, rfl⟩
              · rintro ⟨⟨-, spendable⟩, rfl⟩
                exact ⟨_, ih.mpr ⟨spendable, rfl⟩, rfl⟩

theorem spendAll_eq {ins : List UTXOIn} (there : ∀ k ∈ ins, (m.out? k).isSome) :
    spendAll m ins = if ∀ k ∈ ins, 0 ≤ m.valueAt k then
      some (ins.foldl mark m, (ins.map m.valueAt).sum) else none := by
  induction ins generalizing m with
  | nil => rfl
  | cons k rest ih =>
      rw [List.forall_mem_cons] at there
      obtain ⟨out, found⟩ := Option.isSome_iff_exists.mp there.1
      have looked : m.lookup k = some (some out) := by
        rcases m.lookup_cases k with ⟨-, none⟩ | looked
        · rw [none] at found
          cases found
        · rw [looked, found]
      have value : m.valueAt k = out.value := by
        rw [valueAt, found]
        rfl
      have later : ∀ j ∈ rest, ((m.mark k).out? j).isSome := by
        intro j member
        rw [isSome_out?_mark]
        exact there.2 j member
      rw [spendAll, markSpend, looked]
      simp only [Option.map_some, ih later, List.forall_mem_cons, List.foldl_cons, List.map_cons,
        List.sum_cons, valueAt_mark, value]
      by_cases negative : out.value < 0
      · rw [if_pos negative, if_neg (fun both => absurd both.1 (not_le.mpr negative))]
      · rw [if_neg negative]
        by_cases rest' : ∀ j ∈ rest, 0 ≤ m.valueAt j
        · rw [if_pos rest', if_pos ⟨not_lt.mp negative, rest'⟩]
          have same : (m.mark k).valueAt = m.valueAt := funext (valueAt_mark m k)
          rw [same]
          rfl
        · rw [if_neg rest', if_neg (fun both => rest' both.2)]
          rfl

theorem publicKey_eq {outs : List UTXOOut} {key : Bytes} (filled : outs ≠ [])
    (same : ∀ out ∈ outs, out.pubKey = key) : publicKey outs = key := by
  unfold publicKey
  cases found : (outs.map (fun out => out.pubKey)).find? (fun key => key ≠ []) with
  | none =>
      obtain ⟨out, member⟩ := List.exists_mem_of_ne_nil _ filled
      have empty := List.find?_eq_none.mp found _ (List.mem_map_of_mem member)
      rw [same out member] at empty
      have bare : key = [] := by simpa using empty
      exact bare.symm
  | some first =>
      obtain ⟨out, member, rfl⟩ := List.mem_map.mp (List.mem_of_find?_eq_some found)
      exact same out member

theorem authorise_eq_ok {outs inputs : List UTXOOut} :
    authorise ecdsaVerifyString utxo outs = .ok inputs ↔
      outs ≠ [] ∧ utxo.sig ≠ [] ∧ inputs = outs ∧ ∃ key,
        ecdsaVerifyString utxo.signedString key utxo.sig = true ∧
          ∀ out ∈ outs, out.pubKey = key := by
  unfold authorise
  split_ifs with empty unsigned forged mixed
  · refine ⟨nofun, fun ⟨filled, _⟩ => absurd (List.isEmpty_iff.mp empty) filled⟩
  · refine ⟨nofun, fun ⟨_, signed, _⟩ => absurd (List.isEmpty_iff.mp unsigned) signed⟩
  · refine ⟨nofun, fun ⟨filled, _, _, key, verified, same⟩ => ?_⟩
    rw [publicKey_eq filled same, verified] at forged
    cases forged
  · refine ⟨nofun, fun ⟨filled, _, _, key, _, same⟩ => ?_⟩
    obtain ⟨out, member, other⟩ := List.any_eq_true.mp mixed
    rw [publicKey_eq filled same] at other
    exact absurd (same out member) (of_decide_eq_true other)
  · constructor
    · intro same
      cases same
      refine ⟨fun bare => empty (List.isEmpty_iff.mpr bare), fun bare =>
        unsigned (List.isEmpty_iff.mpr bare), rfl, _, Bool.eq_true_of_not_eq_false forged,
        fun out member => ?_⟩
      by_contra other
      exact mixed (List.any_eq_true.mpr ⟨out, member, decide_eq_true other⟩)
    · rintro ⟨-, -, rfl, -⟩
      rfl

structure Acceptable (A : Arithmetic) (ecdsaVerifyString : Bytes → Bytes → Bytes → Bool)
    (l : Ledger) (utxo : UTXO) : Prop where
  spendable : ∀ k ∈ utxo.ins, l.mempool.Spendable utxo.address k
  signed : (utxo.ins = [] ∧ utxo.address = reserved) ∨
    utxo.ins ≠ [] ∧ utxo.sig ≠ [] ∧ ∃ key,
      ecdsaVerifyString utxo.signedString key utxo.sig = true ∧
        ∀ k ∈ utxo.ins, ∀ out, l.mempool.out? k = some out → out.pubKey = key
  paid : 0 < A.keep ((utxo.ins.map l.mempool.valueAt).sum -
    (utxo.outs.map (fun out => out.value)).sum)
  nonneg : ∀ k ∈ utxo.ins, 0 ≤ l.mempool.valueAt k

def settle (A : Arithmetic) (l : Ledger) (utxo : UTXO) : Ledger where
  mempool := ⟨(utxo.ins.foldl mark l.mempool).txs ++ [utxo]⟩
  wallet := credit A
    (l.wallet.addCoin A utxo.address (-(utxo.ins.map l.mempool.valueAt).sum)) utxo.outs

theorem sum_filterMap_out? {ins : List UTXOIn} (there : ∀ k ∈ ins, (m.out? k).isSome) :
    ((ins.filterMap m.out?).map (fun out => out.value)).sum = (ins.map m.valueAt).sum := by
  induction ins with
  | nil => rfl
  | cons k rest ih =>
      rw [List.forall_mem_cons] at there
      obtain ⟨out, found⟩ := Option.isSome_iff_exists.mp there.1
      rw [List.filterMap_cons_some found, List.map_cons, List.map_cons, List.sum_cons,
        List.sum_cons, ih there.2, valueAt, found]
      rfl

theorem getInput_eq_ok {inputs : List UTXOOut} :
    l.getInput ecdsaVerifyString utxo = some (.ok inputs) ↔
      (∀ k ∈ utxo.ins, l.mempool.Spendable utxo.address k) ∧
        inputs = utxo.ins.filterMap l.mempool.out? ∧
        ((utxo.ins = [] ∧ utxo.address = reserved) ∨
          utxo.ins ≠ [] ∧ utxo.sig ≠ [] ∧ ∃ key,
            ecdsaVerifyString utxo.signedString key utxo.sig = true ∧
              ∀ k ∈ utxo.ins, ∀ out, l.mempool.out? k = some out → out.pubKey = key) := by
  have keys : ∀ key, (∀ out ∈ utxo.ins.filterMap l.mempool.out?, out.pubKey = key) ↔
      ∀ k ∈ utxo.ins, ∀ out, l.mempool.out? k = some out → out.pubKey = key := by
    intro key
    constructor
    · exact fun all k member out found => all out (List.mem_filterMap.mpr ⟨k, member, found⟩)
    · intro all out member
      obtain ⟨k, inside, found⟩ := List.mem_filterMap.mp member
      exact all k inside out found
  unfold getInput
  split_ifs with free
  · rw [free.1]
    constructor
    · intro same
      cases same
      exact ⟨fun _ member => absurd member List.not_mem_nil, rfl, .inl ⟨rfl, free.2⟩⟩
    · rintro ⟨-, rfl, -⟩
      rfl
  · rw [Option.map_eq_some_iff]
    constructor
    · rintro ⟨found, collected, bound⟩
      cases found with
      | error message => cases bound
      | ok outs =>
          obtain ⟨spendable, rfl⟩ := collect_eq_ok.mp collected
          obtain ⟨filled, signed, rfl, key, verified, same⟩ := authorise_eq_ok.mp bound
          refine ⟨spendable, rfl, .inr ⟨?_, signed, key, verified, (keys key).mp same⟩⟩
          intro none
          rw [none] at filled
          exact filled rfl
    · rintro ⟨spendable, rfl, first | ⟨filled, signed, key, verified, same⟩⟩
      · exact absurd first free
      · refine ⟨_, collect_eq_ok.mpr ⟨spendable, rfl⟩, authorise_eq_ok.mpr
          ⟨?_, signed, rfl, key, verified, (keys key).mpr same⟩⟩
        obtain ⟨k, member⟩ := List.exists_mem_of_ne_nil _ filled
        obtain ⟨out, found, -⟩ := spendable k member
        exact List.ne_nil_of_mem (List.mem_filterMap.mpr ⟨k, member, found⟩)

theorem addTransaction_cases (A : Arithmetic)
    (ecdsaVerifyString : Bytes → Bytes → Bytes → Bool) (l : Ledger) (utxo : UTXO) :
    (Acceptable A ecdsaVerifyString l utxo ∧ l.addTransaction A ecdsaVerifyString utxo =
      some (l.settle A utxo, (l.mempool.txs.length : Int))) ∨
    (¬ Acceptable A ecdsaVerifyString l utxo ∧
      (l.addTransaction A ecdsaVerifyString utxo = none ∨
        l.addTransaction A ecdsaVerifyString utxo = some (l, -1))) := by
  have input : Acceptable A ecdsaVerifyString l utxo → l.getInput ecdsaVerifyString utxo =
      some (.ok (utxo.ins.filterMap l.mempool.out?)) := fun acceptable =>
    getInput_eq_ok.mpr ⟨acceptable.spendable, rfl, acceptable.signed⟩
  unfold addTransaction
  cases got : l.getInput ecdsaVerifyString utxo with
  | none =>
      refine .inr ⟨fun acceptable => ?_, .inl rfl⟩
      rw [input acceptable] at got
      cases got
  | some result =>
      cases result with
      | error message =>
          refine .inr ⟨fun acceptable => ?_, .inr rfl⟩
          rw [input acceptable] at got
          cases got
      | ok inputs =>
          obtain ⟨spendable, rfl, signed⟩ := getInput_eq_ok.mp got
          have there : ∀ k ∈ utxo.ins, (l.mempool.out? k).isSome :=
            fun k member => (spendable k member).out?_isSome
          have paid : verifyUTXO A utxo (utxo.ins.filterMap l.mempool.out?) = true ↔
              0 < A.keep ((utxo.ins.map l.mempool.valueAt).sum -
                (utxo.outs.map (fun out => out.value)).sum) := by
            rw [verifyUTXO, sum_filterMap_out? there, decide_eq_true_eq]
          dsimp only
          split_ifs with short
          · refine .inr ⟨fun acceptable => ?_, .inr rfl⟩
            rw [paid.mpr acceptable.paid] at short
            cases short
          · have enough := paid.mp (Bool.eq_true_of_not_eq_false short)
            rw [addCoin, spendAll_eq there]
            split_ifs with nonneg
            · refine .inl ⟨⟨spendable, signed, enough, nonneg⟩, ?_⟩
              rw [← length_foldl_mark l.mempool utxo.ins]
              rfl
            · exact .inr ⟨fun acceptable => nonneg acceptable.nonneg, .inl rfl⟩

end Ledger
end ResDB.Utxo
