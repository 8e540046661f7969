import Mathlib.Tactic
import ResDB.Utxo.Balances

/-! Who can spend an output. The signature of a transaction is for its address and the sum of
the ids of its inputs. It says nothing about the outputs, so whoever sees a signature can use
it for a transaction of their own. -/
namespace ResDB.Utxo.Ledger
variable {A : Arithmetic} {ecdsaVerifyString : Bytes → Bytes → Bytes → Bool} {l : Ledger}
  {utxo : UTXO}

/-- The holder of the key has signed for these transactions only, and nobody else can. -/
def SignedOnly (ecdsaVerifyString : Bytes → Bytes → Bytes → Bool) (key : Bytes)
    (signed : Finset UTXO) : Prop :=
  ∀ message sig, ecdsaVerifyString message key sig = true →
    ∃ t ∈ signed, message = t.signedString

def Spends (l : Ledger) (key : Bytes) (utxo : UTXO) : Prop :=
  ∃ k ∈ utxo.ins, ∃ out, l.mempool.out? k = some out ∧ out.pubKey = key

/-- The transaction, if it is accepted and spends an output with the key, is one of those that
the holder has signed for. -/
def Authorised (A : Arithmetic) (ecdsaVerifyString : Bytes → Bytes → Bytes → Bool) (key : Bytes)
    (signed : Finset UTXO) (l : Ledger) (utxo : UTXO) : Prop :=
  ∀ l' id, l.addTransaction A ecdsaVerifyString utxo = some (l', id) → 0 ≤ id →
    Spends l key utxo → ∃ t ∈ signed, t.ins = utxo.ins ∧ t.outs = utxo.outs

/-- A signature that is no good: no transaction that it fits can be accepted. -/
def Useless (A : Arithmetic) (ecdsaVerifyString : Bytes → Bytes → Bytes → Bool) (key : Bytes)
    (l : Ledger) (t : UTXO) : Prop :=
  ∀ utxo : UTXO, utxo.signedString = t.signedString → Acceptable A ecdsaVerifyString l utxo →
    ¬ Spends l key utxo

theorem acceptable_of_accepted {l' : Ledger} {id : Int}
    (done : l.addTransaction A ecdsaVerifyString utxo = some (l', id)) (accepted : 0 ≤ id) :
    Acceptable A ecdsaVerifyString l utxo := by
  rcases l.addTransaction_cases A ecdsaVerifyString utxo with
    ⟨acceptable, -⟩ | ⟨-, aborted | refused⟩
  · exact acceptable
  · rw [aborted] at done
    cases done
  · rw [refused] at done
    cases done
    exact absurd accepted (by decide)

theorem Acceptable.verified {key : Bytes} (acceptable : Acceptable A ecdsaVerifyString l utxo)
    (spends : Spends l key utxo) : ecdsaVerifyString utxo.signedString key utxo.sig = true := by
  obtain ⟨k, member, out, found, rfl⟩ := spends
  rcases acceptable.signed with ⟨none, -⟩ | ⟨-, -, key, verified, same⟩
  · rw [none] at member
    exact absurd member List.not_mem_nil
  · rw [same k member out found]
    exact verified

theorem Acceptable.redirect {outs : List UTXOOut}
    (acceptable : Acceptable A ecdsaVerifyString l utxo)
    (same : (outs.map (fun out => out.value)).sum = (utxo.outs.map (fun out => out.value)).sum) :
    Acceptable A ecdsaVerifyString l { utxo with outs := outs } where
  spendable := acceptable.spendable
  signed := acceptable.signed
  paid := by
    rw [same]
    exact acceptable.paid
  nonneg := acceptable.nonneg

theorem exists_other_outs (signed : Finset UTXO) (outs : List UTXOOut) :
    ∃ others : List UTXOOut, (others.map (fun out => out.value)).sum =
        (outs.map (fun out => out.value)).sum ∧ ∀ t ∈ signed, t.outs ≠ others := by
  obtain ⟨bound, above⟩ := (signed.image (fun t => t.outs.length)).exists_nat_subset_range
  refine ⟨outs ++ List.replicate bound { address := [], value := 0 }, by simp, ?_⟩
  intro t member same
  have short := Finset.mem_range.mp (above (Finset.mem_image_of_mem _ member))
  rw [same, List.length_append, List.length_replicate] at short
  omega

theorem forall_authorised_iff {key : Bytes} {signed : Finset UTXO}
    (only : SignedOnly ecdsaVerifyString key signed) (l : Ledger) :
    (∀ utxo, Authorised A ecdsaVerifyString key signed l utxo) ↔
      ∀ t ∈ signed, Useless A ecdsaVerifyString key l t := by
  constructor
  · intro authorised t member utxo same acceptable spends
    obtain ⟨others, value, fresh⟩ := exists_other_outs signed utxo.outs
    have redirected : Acceptable A ecdsaVerifyString l { utxo with outs := others } :=
      acceptable.redirect value
    rcases l.addTransaction_cases A ecdsaVerifyString { utxo with outs := others } with
      ⟨-, done⟩ | ⟨unacceptable, -⟩
    · obtain ⟨t', member', -, outs⟩ := authorised _ _ _ done (Int.natCast_nonneg _) spends
      exact fresh t' member' outs
    · exact unacceptable redirected
  · intro useless utxo l' id done accepted spends
    have acceptable := acceptable_of_accepted done accepted
    obtain ⟨t, member, same⟩ := only _ _ (acceptable.verified spends)
    exact absurd spends (useless t member utxo same acceptable)

/-- The holder's word binds, in a ledger and over all calls from a genesis on, if and only if it
is worthless: no signature that was given can be used for any transaction. -/
theorem authorised_iff_useless (A : Arithmetic) {key : Bytes} {signed : Finset UTXO}
    (only : SignedOnly ecdsaVerifyString key signed) :
    (∀ l, (∀ utxo, Authorised A ecdsaVerifyString key signed l utxo) ↔
      ∀ t ∈ signed, Useless A ecdsaVerifyString key l t) ∧
    ∀ transactions,
      (∀ calls, Run.Along (step A ecdsaVerifyString) (Authorised A ecdsaVerifyString key signed)
        (genesis A transactions) calls) ↔
      ∀ calls l, Run.exec (step A ecdsaVerifyString) (genesis A transactions) calls = some l →
        ∀ t ∈ signed, Useless A ecdsaVerifyString key l t := by
  refine ⟨forall_authorised_iff only, fun transactions => ?_⟩
  rw [Run.forall_along_iff]
  exact forall₃_congr (fun _ l _ => forall_authorised_iff only l)

section Sample

/-- The owner of the sample output pays it to address `[2]`. -/
def sampleOrder : UTXO := sampleSpend 1 [{ address := [2], value := 9 }]

/-- Under the owner's key `[7]` only the signature of that transaction verifies. -/
def sampleSigner (message key sig : Bytes) : Bool :=
  sampleVerify message key sig ∧ (key = [7] → message = sampleOrder.signedString)

theorem sampleSigner_only : SignedOnly sampleSigner [7] {sampleOrder} := by
  intro message sig verified
  exact ⟨sampleOrder, Finset.mem_singleton_self _, (of_decide_eq_true verified).2 rfl⟩

theorem mem_of_out? {m : TxMempool} {k : UTXOIn} {out : UTXOOut} (found : m.out? k = some out) :
    ∃ utxo ∈ m.txs, out ∈ utxo.outs := by
  unfold TxMempool.out? TxMempool.find at found
  split_ifs at found
  · obtain ⟨utxo, placed, listed⟩ := Option.bind_eq_some_iff.mp found
    exact ⟨utxo, List.mem_of_getElem? placed, List.mem_of_getElem? listed⟩
  · cases found

/-- Once the transaction is settled its signature is used up. -/
theorem settled_order_authorised : SignedOnly sampleSigner [7] {sampleOrder} ∧
    ∀ utxo, Authorised .int64 sampleSigner [7] {sampleOrder}
      ((genesis .int64 sampleGenesis).settle .int64 sampleOrder) utxo := by
  refine ⟨sampleSigner_only, ((authorised_iff_useless .int64 sampleSigner_only).1 _).mpr ?_⟩
  rintro t - utxo - acceptable ⟨k, member, out, found, key⟩
  obtain ⟨out', found', unspent, -⟩ := acceptable.spendable k member
  rw [found] at found'
  cases found'
  obtain ⟨trans, inside, listed⟩ := mem_of_out? found
  have gone : ∀ trans ∈ ((genesis .int64 sampleGenesis).settle .int64 sampleOrder).mempool.txs,
      ∀ out ∈ trans.outs, out.spent = false → out.pubKey ≠ [7] := by decide
  exact gone trans inside out listed unspent key

/-- The same transaction with the output to another address. -/
def sampleTheft : UTXO := { sampleOrder with outs := [{ address := [9], value := 9 }] }

theorem signed_order_redirected : SignedOnly sampleSigner [7] {sampleOrder} ∧
    ((genesis .int64 sampleGenesis).mempool.out? ⟨0, 0⟩).map (fun out => out.pubKey) = some [7] ∧
    ((genesis .int64 sampleGenesis).addTransaction .int64 sampleSigner sampleTheft).map (fun out =>
      (out.2, out.1.wallet [9])) = some (1, 9) ∧
    sampleTheft.outs ≠ sampleOrder.outs := by
  refine ⟨sampleSigner_only, ?_, ?_, ?_⟩
  · decide
  · decide
  · decide

end Sample

end ResDB.Utxo.Ledger
