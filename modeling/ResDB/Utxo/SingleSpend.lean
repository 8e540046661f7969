import Mathlib.Tactic
import ResDB.Utxo.Authorisation

/-! Runs of the ledger: an output is spent by one transaction at most, and a call that is
refused changes nothing. The assertion of `AddCoin` is safe as long as no output of negative
value gets in. -/
namespace ResDB.Utxo

namespace TxMempool
variable {m : TxMempool} {k : UTXOIn}

def Spent (m : TxMempool) (k : UTXOIn) : Prop := ∃ out, m.out? k = some out ∧ out.spent = true

theorem Spendable.not_spent {address : Bytes} (spendable : m.Spendable address k) :
    ¬ m.Spent k := by
  rintro ⟨out, found, spent⟩
  obtain ⟨out', found', unspent, -⟩ := spendable
  cases found.symm.trans found'
  rw [spent] at unspent
  cases unspent

theorem Spent.mark (spent : m.Spent k) (j : UTXOIn) : (m.mark j).Spent k := by
  obtain ⟨out, found, flag⟩ := spent
  rw [Spent, out?_mark]
  split_ifs with same
  · rw [← same, found]
    exact ⟨_, rfl, rfl⟩
  · exact ⟨out, found, flag⟩

theorem spent_mark (there : (m.out? k).isSome) : (m.mark k).Spent k := by
  obtain ⟨out, found⟩ := Option.isSome_iff_exists.mp there
  rw [Spent, out?_mark, if_pos rfl, found]
  exact ⟨_, rfl, rfl⟩

theorem Spent.foldl (spent : m.Spent k) (ins : List UTXOIn) :
    (ins.foldl TxMempool.mark m).Spent k := by
  induction ins generalizing m with
  | nil => exact spent
  | cons j rest ih => exact ih (spent.mark j)

theorem spent_foldl {ins : List UTXOIn} (there : ∀ k ∈ ins, (m.out? k).isSome) (member : k ∈ ins) :
    (ins.foldl TxMempool.mark m).Spent k := by
  induction ins generalizing m with
  | nil => cases member
  | cons j rest ih =>
      rw [List.forall_mem_cons] at there
      cases List.mem_cons.mp member with
      | inl same =>
          subst same
          exact (spent_mark there.1).foldl rest
      | inr later =>
          refine ih (fun i inside => ?_) later
          rw [isSome_out?_mark]
          exact there.2 i inside

theorem out?_append (m : TxMempool) (utxo : UTXO) (k : UTXOIn) :
    (⟨m.txs ++ [utxo]⟩ : TxMempool).out? k =
      if k.prevId = m.txs.length ∧ 0 ≤ k.outIdx then utxo.outs[k.outIdx.toNat]? else m.out? k := by
  by_cases within : 0 ≤ k.prevId ∧ 0 ≤ k.outIdx
  · obtain ⟨id, index⟩ := k
    lift id to ℕ using within.1
    lift index to ℕ using within.2
    rw [out?_natCast, out?_natCast]
    by_cases last : id = m.txs.length
    · subst last
      simp
    · have other : ¬ ((id : Int) = (m.txs.length : Int) ∧ (0 : Int) ≤ (index : Int)) :=
        fun both => last (by exact_mod_cast both.1)
      rw [if_neg other, List.getElem?_append]
      split_ifs with below
      · rfl
      · rw [List.getElem?_eq_none (by simp; omega), List.getElem?_eq_none (by omega)]
  · have other : ¬ (k.prevId = m.txs.length ∧ 0 ≤ k.outIdx) :=
      fun both => within ⟨both.1 ▸ Int.natCast_nonneg _, both.2⟩
    rw [if_neg other, out?_eq_none within, out?_eq_none within]

theorem lookup_isSome (index : 0 ≤ k.outIdx) : (m.lookup k).isSome := by
  unfold lookup
  cases m.find k.prevId with
  | none => rfl
  | some utxo =>
      dsimp only
      rw [if_neg (not_lt.mpr index)]
      split_ifs <;> rfl

theorem out?_length (m : TxMempool) (index : Int) : m.out? ⟨m.txs.length, index⟩ = none := by
  unfold out? find
  split_ifs
  · rw [Int.toNat_natCast, List.getElem?_eq_none le_rfl]
    rfl
  · rfl
  · rfl

theorem Spent.append (spent : m.Spent k) (utxo : UTXO) :
    (⟨m.txs ++ [utxo]⟩ : TxMempool).Spent k := by
  obtain ⟨out, found, flag⟩ := spent
  have other : ¬ (k.prevId = m.txs.length ∧ 0 ≤ k.outIdx) := by
    rintro ⟨last, -⟩
    obtain ⟨id, index⟩ := k
    subst last
    rw [out?_length] at found
    cases found
  refine ⟨out, ?_, flag⟩
  rw [out?_append, if_neg other]
  exact found

end TxMempool

namespace Ledger
variable (A : Arithmetic) (ecdsaVerifyString : Bytes → Bytes → Bytes → Bool)

def results : Ledger → List UTXO → List (UTXO × Int)
  | _, [] => []
  | l, utxo :: rest =>
      match l.addTransaction A ecdsaVerifyString utxo with
      | none => []
      | some (l', ret) => (utxo, ret) :: results l' rest

def accepted (l : Ledger) (calls : List UTXO) : List (UTXO × Int) :=
  (l.results A ecdsaVerifyString calls).filter (fun call => call.2 ≠ -1)

variable {A} {ecdsaVerifyString} {l l' : Ledger} {utxo : UTXO} {k : UTXOIn}

theorem spent_settle_of_spent (spent : l.mempool.Spent k) (utxo : UTXO) :
    (l.settle A utxo).mempool.Spent k :=
  (spent.foldl utxo.ins).append utxo

theorem spent_settle (acceptable : Acceptable A ecdsaVerifyString l utxo) (member : k ∈ utxo.ins) :
    (l.settle A utxo).mempool.Spent k :=
  (TxMempool.spent_foldl (fun j inside => (acceptable.spendable j inside).out?_isSome)
    member).append utxo

theorem length_settle (A : Arithmetic) (l : Ledger) (utxo : UTXO) :
    (l.settle A utxo).mempool.txs.length = l.mempool.txs.length + 1 := by
  rw [settle, List.length_append, TxMempool.length_foldl_mark]
  rfl

theorem addTransaction_returns {ret : Int}
    (done : l.addTransaction A ecdsaVerifyString utxo = some (l', ret)) :
    (l' = l ∧ ret = -1) ∨
      Acceptable A ecdsaVerifyString l utxo ∧ l' = l.settle A utxo ∧
        ret = l.mempool.txs.length := by
  rcases l.addTransaction_cases A ecdsaVerifyString utxo with
    ⟨acceptable, settled⟩ | ⟨-, aborted | refused⟩
  · cases settled.symm.trans done
    exact .inr ⟨acceptable, rfl, rfl⟩
  · cases aborted.symm.trans done
  · cases refused.symm.trans done
    exact .inl ⟨rfl, rfl⟩

theorem natCast_ne_neg_one (n : ℕ) : (n : Int) ≠ -1 := by omega

theorem accepted_cons (A : Arithmetic) (ecdsaVerifyString : Bytes → Bytes → Bytes → Bool)
    (l : Ledger) (utxo : UTXO) (rest : List UTXO) :
    l.accepted A ecdsaVerifyString (utxo :: rest) = [] ∨
      l.accepted A ecdsaVerifyString (utxo :: rest) = l.accepted A ecdsaVerifyString rest ∨
      Acceptable A ecdsaVerifyString l utxo ∧ l.accepted A ecdsaVerifyString (utxo :: rest) =
        (utxo, (l.mempool.txs.length : Int)) ::
          (l.settle A utxo).accepted A ecdsaVerifyString rest := by
  unfold accepted
  rw [results]
  cases done : l.addTransaction A ecdsaVerifyString utxo with
  | none => exact .inl rfl
  | some result =>
      obtain ⟨l', ret⟩ := result
      rcases addTransaction_returns done with ⟨rfl, rfl⟩ | ⟨acceptable, rfl, rfl⟩
      · exact .inr (.inl (List.filter_cons_of_neg (by simp)))
      · refine .inr (.inr ⟨acceptable, List.filter_cons_of_pos ?_⟩)
        exact decide_eq_true (natCast_ne_neg_one _)

theorem accepted_disjoint (l : Ledger) (calls : List UTXO) :
    (l.accepted A ecdsaVerifyString calls).Pairwise (fun a b => ∀ k ∈ a.1.ins, k ∉ b.1.ins) ∧
      ∀ a ∈ l.accepted A ecdsaVerifyString calls, ∀ k ∈ a.1.ins, ¬ l.mempool.Spent k := by
  induction calls generalizing l with
  | nil => exact ⟨List.Pairwise.nil, fun _ member => absurd member List.not_mem_nil⟩
  | cons utxo rest ih =>
      rcases accepted_cons A ecdsaVerifyString l utxo rest with none | same | ⟨acceptable, first⟩
      · rw [none]
        exact ⟨List.Pairwise.nil, fun _ member => absurd member List.not_mem_nil⟩
      · rw [same]
        exact ih l
      · obtain ⟨pairs, fresh⟩ := ih (l.settle A utxo)
        rw [first, List.pairwise_cons, List.forall_mem_cons]
        refine ⟨⟨fun b later k member inside => ?_, pairs⟩, fun k member => ?_, ?_⟩
        · exact fresh b later k inside (spent_settle acceptable member)
        · exact (acceptable.spendable k member).not_spent
        · exact fun a later k member spent =>
            fresh a later k member (spent_settle_of_spent spent utxo)

theorem accepted_ids (l : Ledger) (calls : List UTXO) :
    (l.accepted A ecdsaVerifyString calls).map Prod.snd =
      (List.range' l.mempool.txs.length (l.accepted A ecdsaVerifyString calls).length).map
        Int.ofNat := by
  induction calls generalizing l with
  | nil => rfl
  | cons utxo rest ih =>
      rcases accepted_cons A ecdsaVerifyString l utxo rest with none | same | ⟨-, first⟩
      · rw [none]
        rfl
      · rw [same]
        exact ih l
      · rw [first, List.map_cons, ih, length_settle, List.length_cons, List.range'_succ,
          List.map_cons]
        rfl

theorem step_spent (taken : l.step A ecdsaVerifyString utxo = some l')
    (spent : l.mempool.Spent k) : l'.mempool.Spent k := by
  obtain ⟨⟨_, ret⟩, done, rfl⟩ := Option.map_eq_some_iff.mp taken
  rcases addTransaction_returns done with ⟨rfl, -⟩ | ⟨-, rfl, -⟩
  · exact spent
  · exact spent_settle_of_spent spent utxo

/-- Over any calls: no place is an input of two accepted transactions, the accepted ones get
consecutive ids, what is spent stays spent, and a call that returns -1 has changed nothing. -/
theorem outputs_spent_once (A : Arithmetic)
    (ecdsaVerifyString : Bytes → Bytes → Bytes → Bool) (transactions calls : List UTXO) :
    ((genesis A transactions).accepted A ecdsaVerifyString calls).Pairwise
        (fun a b => ∀ k ∈ a.1.ins, k ∉ b.1.ins) ∧
      ((genesis A transactions).accepted A ecdsaVerifyString calls).map Prod.snd =
        (List.range' (genesis A transactions).mempool.txs.length
          ((genesis A transactions).accepted A ecdsaVerifyString calls).length).map Int.ofNat ∧
      (∀ earlier later l l', earlier ++ later <+: calls →
        Run.exec (step A ecdsaVerifyString) (genesis A transactions) earlier = some l →
        Run.exec (step A ecdsaVerifyString) l later = some l' →
        ∀ k, l.mempool.Spent k → l'.mempool.Spent k) ∧
      ∀ earlier utxo l l', earlier ++ [utxo] <+: calls →
        Run.exec (step A ecdsaVerifyString) (genesis A transactions) earlier = some l →
        l.addTransaction A ecdsaVerifyString utxo = some (l', -1) → l' = l := by
  refine ⟨(accepted_disjoint _ calls).1, accepted_ids _ calls, ?_, ?_⟩
  · intro earlier later l l' _ _ ran k spent
    exact Run.exec_invariant_always (fun l utxo l' (before : l.mempool.Spent k) taken =>
      step_spent taken before) spent ran
  · intro earlier utxo l l' _ _ done
    rcases addTransaction_returns done with ⟨same, -⟩ | ⟨-, -, id⟩
    · exact same
    · exact absurd id.symm (natCast_ne_neg_one _)

/-! ### The assertion of `AddCoin` -/

theorem collect_isSome {m : TxMempool} (address : Bytes) {ins : List UTXOIn}
    (indices : ∀ k ∈ ins, 0 ≤ k.outIdx) : (collect m address ins).isSome := by
  induction ins with
  | nil => rfl
  | cons k rest ih =>
      rw [List.forall_mem_cons] at indices
      have known : (m.getUTXO k address).isSome := by
        rw [TxMempool.getUTXO, Option.isSome_map]
        exact TxMempool.lookup_isSome indices.1
      obtain ⟨result, got⟩ := Option.isSome_iff_exists.mp known
      rw [collect, got]
      cases result with
      | error message => rfl
      | ok out =>
          rw [Option.isSome_map]
          exact ih indices.2

variable (ecdsaVerifyString) in
theorem getInput_isSome (l : Ledger) (indices : ∀ k ∈ utxo.ins, 0 ≤ k.outIdx) :
    (l.getInput ecdsaVerifyString utxo).isSome := by
  unfold getInput
  split_ifs
  · rfl
  · rw [Option.isSome_map]
    exact collect_isSome utxo.address indices

variable (ecdsaVerifyString) in
theorem addTransaction_isSome (nonneg : ∀ k, 0 ≤ l.mempool.valueAt k)
    (indices : ∀ k ∈ utxo.ins, 0 ≤ k.outIdx) :
    (l.addTransaction A ecdsaVerifyString utxo).isSome := by
  obtain ⟨result, got⟩ := Option.isSome_iff_exists.mp
    (getInput_isSome ecdsaVerifyString l indices)
  unfold addTransaction
  rw [got]
  cases result with
  | error message => rfl
  | ok inputs =>
      have there : ∀ k ∈ utxo.ins, (l.mempool.out? k).isSome :=
        fun k member => ((getInput_eq_ok.mp got).1 k member).out?_isSome
      dsimp only
      split_ifs
      · rfl
      · rw [addCoin, spendAll_eq there, if_pos (fun k _ => nonneg k)]
        rfl

theorem valueAt_append {m : TxMempool} (nonneg : ∀ k, 0 ≤ m.valueAt k)
    (outs : ∀ out ∈ utxo.outs, 0 ≤ out.value) (k : UTXOIn) :
    0 ≤ (⟨m.txs ++ [utxo]⟩ : TxMempool).valueAt k := by
  rw [TxMempool.valueAt, TxMempool.out?_append]
  split_ifs
  · cases found : utxo.outs[k.outIdx.toNat]? with
    | none => exact le_rfl
    | some out => exact outs out (List.mem_of_getElem? found)
  · exact nonneg k

theorem valueAt_foldl_mark (m : TxMempool) (ins : List UTXOIn) :
    (ins.foldl TxMempool.mark m).valueAt = m.valueAt := by
  induction ins generalizing m with
  | nil => rfl
  | cons k rest ih =>
      rw [List.foldl_cons, ih]
      funext j
      exact TxMempool.valueAt_mark m k j

theorem genesis_nonneg {transactions : List UTXO}
    (outs : ∀ utxo ∈ transactions, ∀ out ∈ utxo.outs, 0 ≤ out.value) (k : UTXOIn) :
    0 ≤ (genesis A transactions).mempool.valueAt k := by
  induction transactions using List.reverseRecOn generalizing k with
  | nil =>
      have none : (genesis A []).mempool.valueAt k = 0 := by
        simp [genesis, TxMempool.valueAt, TxMempool.out?, TxMempool.find]
      exact none.ge
  | append_singleton rest utxo ih =>
      rw [genesis, List.foldl_concat]
      exact valueAt_append (ih (fun u member => outs u (List.mem_append_left _ member)))
        (outs utxo (by simp)) k

/-- From a genesis without negative outputs the assertion holds at every call, as long as the
inputs have indices and no transaction that is accepted brings a negative output. -/
theorem assertion_never_fires {transactions calls : List UTXO}
    (outs : ∀ utxo ∈ transactions, ∀ out ∈ utxo.outs, 0 ≤ out.value)
    (along : Run.Along (step A ecdsaVerifyString) (fun l utxo =>
        (∀ k ∈ utxo.ins, 0 ≤ k.outIdx) ∧
          (Acceptable A ecdsaVerifyString l utxo → ∀ out ∈ utxo.outs, 0 ≤ out.value))
      (genesis A transactions) calls) :
    (Run.exec (step A ecdsaVerifyString) (genesis A transactions) calls).isSome := by
  have start : ∀ k, 0 ≤ (genesis A transactions).mempool.valueAt k := genesis_nonneg outs
  revert start along
  generalize genesis A transactions = l
  intro along start
  induction calls generalizing l with
  | nil => rfl
  | cons utxo rest ih =>
      obtain ⟨⟨l', ret⟩, done⟩ := Option.isSome_iff_exists.mp
        (addTransaction_isSome ecdsaVerifyString start along.1.1)
      have first : l.step A ecdsaVerifyString utxo = some l' := by rw [step, done, Option.map_some]
      rw [Run.exec_cons_of_step rest first]
      refine ih l' (along.tail first) ?_
      rcases addTransaction_returns done with ⟨rfl, -⟩ | ⟨acceptable, rfl, -⟩
      · exact start
      · refine valueAt_append ?_ (along.1.2 acceptable)
        rw [valueAt_foldl_mark]
        exact start

theorem sampleTrade_returns :
    ((genesis .int64 sampleGenesis).results .int64 sampleVerify [sampleSale, sampleReturn]).map
        Prod.snd = [1, 2] ∧
    (Run.exec (step .int64 sampleVerify) (genesis .int64 sampleGenesis)
      [sampleSale, sampleReturn]).isSome := by
  refine ⟨by decide +kernel,
    assertion_never_fires (by decide) (Run.along_of_mem (fun utxo member l => ?_) _)⟩
  have plain : ∀ utxo ∈ [sampleSale, sampleReturn],
      (∀ k ∈ utxo.ins, 0 ≤ k.outIdx) ∧ ∀ out ∈ utxo.outs, 0 ≤ out.value := by decide
  exact ⟨(plain utxo member).1, fun _ => (plain utxo member).2⟩

/-- The owner makes of the output of value 10 one of value -5 and one of value 12. -/
def sampleSplit : UTXO :=
  sampleSpend 1 [{ address := [1], value := -5, pubKey := [7] },
    { address := [1], value := 12, pubKey := [7] }]

def sampleJoin : UTXO :=
  let unsigned : UTXO :=
    { ins := [⟨1, 0⟩, ⟨1, 1⟩], outs := [{ address := [2], value := 1 }], address := [1] }
  { unsigned with sig := [7] ++ unsigned.signedString }

theorem negative_output_aborts :
    ((genesis .int64 sampleGenesis).results .int64 sampleVerify [sampleSplit]).map Prod.snd = [1] ∧
      (Run.exec (step .int64 sampleVerify) (genesis .int64 sampleGenesis)
        [sampleSplit]).isSome = true ∧
      Run.exec (step .int64 sampleVerify) (genesis .int64 sampleGenesis)
        [sampleSplit, sampleJoin] = none := by
  refine ⟨by decide +kernel, by decide +kernel, ?_⟩
  exact Option.isNone_iff_eq_none.mp (by decide +kernel)

end Ledger
end ResDB.Utxo
