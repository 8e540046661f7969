import Mathlib.Tactic
import ResDB.SlotHs1.Protocol

/-! `cert_count_` of slotted HotStuff-1. Every vote that is let in adds to it, whatever it is
for and whoever has sent it, and only a new certificate resets it. At `2f + 1` the collector
refuses all further votes, and so it stays for ever. -/
namespace ResDB.SlotHs1
open HotStuff

/-- The collector over many calls, with the certificates it has formed so far. -/
structure Collector where
  votes : Votes := {}
  formed : List QC := []

namespace Collector

def receive (crypto : Crypto) (f : ℕ) (c : Collector) (cert : Certificate) : Collector :=
  { votes := (countVote crypto f c.votes cert).1
    formed := c.formed ++ (countVote crypto f c.votes cert).2.toList }

def run (crypto : Crypto) (f : ℕ) (certs : List Certificate) : Collector :=
  certs.foldl (receive crypto f) {}

end Collector

section Calls
variable {crypto : Crypto} {f : ℕ} {votes : Votes} {cert : Certificate}

theorem countVote_cases (f : ℕ) (votes : Votes)
    (valid : crypto.verifyMessage cert.hash cert.sign = true) :
    ((2 * f + 1 ≤ votes.certCount ∨ isStale votes.minView votes.minSlot cert = true) ∧
        countVote crypto f votes cert = (votes, none)) ∨
      votes.certCount < 2 * f + 1 ∧ isStale votes.minView votes.minSlot cert = false ∧
        (((votes.receive.insert cert) cert.view cert.hash).length ≠ 2 * f + 1 ∧
            countVote crypto f votes cert =
              ({ votes with
                  receive := votes.receive.insert cert, certCount := votes.certCount + 1 },
                none) ∨
          ((votes.receive.insert cert) cert.view cert.hash).length = 2 * f + 1 ∧
            countVote crypto f votes cert =
              ({ receive := votes.receive.insert cert
                 minView := asUInt64 cert.view
                 minSlot := asUInt64 cert.slot
                 certCount := 0 }, some (formQC (votes.receive.insert cert) cert))) := by
  simp only [countVote, valid, Bool.not_true, Bool.false_eq_true, if_false]
  split_ifs with shut full
  · exact .inl ⟨shut, rfl⟩
  · rw [not_or, not_le, Bool.not_eq_true] at shut
    exact .inr ⟨shut.1, shut.2, .inr ⟨full, rfl⟩⟩
  · rw [not_or, not_le, Bool.not_eq_true] at shut
    exact .inr ⟨shut.1, shut.2, .inl ⟨full, rfl⟩⟩

theorem countVote_shut (shut : 2 * f + 1 ≤ votes.certCount) :
    countVote crypto f votes cert = (votes, none) := by
  rw [countVote, if_pos (.inl shut)]

end Calls

namespace Collector
variable {crypto : Crypto} {f : ℕ} {c : Collector} {cert : Certificate}
  {view slot : Int} {hash : Bytes}

theorem run_concat (certs : List Certificate) (cert : Certificate) :
    run crypto f (certs ++ [cert]) = (run crypto f certs).receive crypto f cert :=
  List.foldl_concat ..

theorem run_append_of_shut {certs : List Certificate} (rest : List Certificate)
    (shut : 2 * f + 1 ≤ (run crypto f certs).votes.certCount) :
    run crypto f (certs ++ rest) = run crypto f certs := by
  induction rest using List.reverseRecOn with
  | nil => rw [List.append_nil]
  | append_singleton rest cert ih =>
      rw [← List.append_assoc, run_concat, ih, receive, countVote_shut shut, Option.toList_none,
        List.append_nil]

theorem unsigned_le_floor {certs : List Certificate}
    (valid : ∀ cert ∈ certs, crypto.verifyMessage cert.hash cert.sign = true) :
    ∀ qc ∈ (run crypto f certs).formed, unsignedPosition qc ≤ (run crypto f certs).votes.floor := by
  induction certs using List.reverseRecOn with
  | nil => exact fun qc member => absurd member List.not_mem_nil
  | append_singleton certs cert ih =>
      intro qc member
      have old := ih (fun x inside => valid x (List.mem_append_left _ inside))
      rw [run_concat] at member ⊢
      rcases countVote_cases f (run crypto f certs).votes (valid cert (by simp)) with
        ⟨-, same⟩ | ⟨-, current, ⟨-, same⟩ | ⟨-, same⟩⟩
      · simp only [receive, same, Option.toList_none, List.append_nil] at member ⊢
        exact old qc member
      · simp only [receive, same, Option.toList_none, List.append_nil] at member ⊢
        exact old qc member
      · simp only [receive, same, Option.toList_some] at member ⊢
        have lower := isStale_eq_false_iff.mp current
        rcases List.mem_append.mp member with former | new
        · exact (old qc former).trans lower.le
        · rw [List.mem_singleton.mp new]
          exact le_rfl

end Collector

/-- During the run a vote of the replica for the block arrives after `before`, above the
floor. -/
structure Delivered (crypto : Crypto) (f : ℕ) (certs : List Certificate) (view slot : Int)
    (hash : Bytes) (signer : Int) (before : List Certificate) (cert : Certificate) : Prop where
  arrives : before ++ [cert] <+: certs
  voter : cert.signer = signer
  ofView : cert.view = view
  ofSlot : cert.slot = slot
  ofHash : cert.hash = hash
  above : (Collector.run crypto f before).votes.floor <
    toLex (asUInt64 cert.view, asUInt64 cert.slot)

def Collector.Certified (c : Collector) (view slot : Int) (hash : Bytes) : Prop :=
  ∃ qc ∈ c.formed, qc.view = view ∧ qc.slot = slot ∧ qc.hash = hash

namespace Collector
variable {crypto : Crypto} {f : ℕ} {cert : Certificate} {view slot : Int} {hash : Bytes}

theorem receive_pending {c : Collector}
    (valid : crypto.verifyMessage cert.hash cert.sign = true)
    (single : cert.view = view → cert.hash = hash → cert.slot = slot)
    (few : (c.votes.receive view hash).length < 2 * f + 1) :
    (c.receive crypto f cert).Certified view slot hash ∨
      ((c.receive crypto f cert).votes.receive view hash).length < 2 * f + 1 ∧
        (∀ x ∈ c.votes.receive view hash, x ∈ (c.receive crypto f cert).votes.receive view hash) ∧
        (cert.view = view → cert.hash = hash → c.votes.certCount < 2 * f + 1 →
          isStale c.votes.minView c.votes.minSlot cert = false →
          ∃ x ∈ (c.receive crypto f cert).votes.receive view hash, x.signer = cert.signer) := by
  rcases countVote_cases f c.votes valid with
    ⟨shut, same⟩ | ⟨-, -, result⟩
  · right
    simp only [receive, same]
    refine ⟨few, fun x stored => stored, ?_⟩
    intro _ _ room current
    rcases shut with full | stale
    · omega
    · rw [current] at stale
      cases stale
  · by_cases own : view = cert.view ∧ hash = cert.hash
    · obtain ⟨rfl, rfl⟩ := own
      have inserted : (c.votes.receive.insert cert) cert.view cert.hash =
          insertSigner (c.votes.receive cert.view cert.hash) cert := by
        simp [VoteStore.insert]
      rcases result with ⟨short, same⟩ | ⟨-, same⟩
      · right
        have grown := length_insertSigner_le (c.votes.receive cert.view cert.hash) cert
        rw [inserted] at short
        simp only [receive, same, inserted]
        refine ⟨by omega, fun x stored => mem_insertSigner_of_mem stored, ?_⟩
        exact fun _ _ _ _ => exists_signer_insertSigner _ cert
      · left
        refine ⟨formQC (c.votes.receive.insert cert) cert, ?_, rfl, single rfl rfl, rfl⟩
        simp [receive, same]
    · have kept : (c.votes.receive.insert cert) view hash = c.votes.receive view hash := if_neg own
      right
      have other : ∀ {p : Prop}, cert.view = view → cert.hash = hash → p :=
        fun sameView sameHash => absurd ⟨sameView.symm, sameHash.symm⟩ own
      rcases result with ⟨-, same⟩ | ⟨-, same⟩
      · simp only [receive, same, kept]
        exact ⟨few, fun x stored => stored, fun sameView sameHash => other sameView sameHash⟩
      · simp only [receive, same, kept]
        exact ⟨few, fun x stored => stored, fun sameView sameHash => other sameView sameHash⟩

theorem Certified.receive {c : Collector} (certified : c.Certified view slot hash)
    (cert : Certificate) : (c.receive crypto f cert).Certified view slot hash := by
  obtain ⟨qc, member, names⟩ := certified
  exact ⟨qc, List.mem_append_left _ member, names⟩

theorem pending_run {certs : List Certificate}
    (valid : ∀ cert ∈ certs, crypto.verifyMessage cert.hash cert.sign = true)
    (single : ∀ cert ∈ certs, cert.view = view → cert.hash = hash → cert.slot = slot) :
    (run crypto f certs).Certified view slot hash ∨
      ((run crypto f certs).votes.receive view hash).length < 2 * f + 1 ∧
        ∀ signer before cert, Delivered crypto f certs view slot hash signer before cert →
          (run crypto f before).votes.certCount < 2 * f + 1 →
          ∃ x ∈ (run crypto f certs).votes.receive view hash, x.signer = signer := by
  induction certs using List.reverseRecOn with
  | nil =>
      refine .inr ⟨Nat.succ_pos _, ?_⟩
      intro signer before cert delivered
      exact absurd delivered.arrives (by simp)
  | append_singleton certs last ih =>
      rw [run_concat]
      rcases ih (fun x inside => valid x (List.mem_append_left _ inside))
        (fun x inside => single x (List.mem_append_left _ inside)) with certified | ⟨few, held⟩
      · exact .inl (certified.receive last)
      rcases receive_pending (valid last (by simp)) (single last (by simp)) few with
        certified | ⟨few', kept, added⟩
      · exact .inl certified
      refine .inr ⟨few', ?_⟩
      intro signer before cert delivered room
      rcases List.prefix_concat_iff.mp delivered.arrives with now | earlier
      · obtain ⟨rfl, same⟩ := List.append_inj' now rfl
        cases same
        obtain ⟨-, rfl, ofView, -, ofHash, above⟩ := delivered
        exact added ofView ofHash room (isStale_eq_false_iff.mpr above)
      · obtain ⟨x, stored, named⟩ :=
          held signer before cert { delivered with arrives := earlier } room
        exact ⟨x, kept x stored, named⟩

end Collector

/-- A block for which `2f + 1` replicas' votes are delivered above the floor gets its
certificate exactly when each of these votes finds fewer than `2f + 1` votes let in since the
last certificate. -/
theorem quorum_certified_iff (crypto : Crypto) (f : ℕ) (certs : List Certificate)
    (valid : ∀ cert ∈ certs, crypto.verifyMessage cert.hash cert.sign = true)
    (view slot : Int) (hash : Bytes)
    (single : ∀ cert ∈ certs, cert.view = view → cert.hash = hash → cert.slot = slot)
    (signers : Finset Int) (quorum : signers.card = 2 * f + 1)
    (before : Int → List Certificate) (cert : Int → Certificate)
    (delivered : ∀ i ∈ signers,
      Delivered crypto f certs view slot hash i (before i) (cert i)) :
    (Collector.run crypto f certs).Certified view slot hash ↔
      ∀ i ∈ signers, (Collector.run crypto f (before i)).votes.certCount < 2 * f + 1 := by
  constructor
  · rintro ⟨qc, member, sameView, sameSlot, -⟩ i inside
    by_contra shut
    obtain ⟨⟨rest, rfl⟩, -, ofView, ofSlot, -, above⟩ := delivered i inside
    -- a shut collector forms nothing more, and what it had formed is not below the floor
    rw [List.append_assoc, Collector.run_append_of_shut _ (Nat.le_of_not_lt shut)] at member
    have below := Collector.unsigned_le_floor
      (fun x early => valid x (by simp [early])) qc member
    rw [unsignedPosition, sameView, sameSlot, ← ofView, ← ofSlot] at below
    exact absurd below (not_le.mpr above)
  · intro room
    rcases Collector.pending_run valid single with certified | ⟨few, held⟩
    · exact certified
    · have stored : signers ⊆ (((Collector.run crypto f certs).votes.receive view hash).map
          Certificate.signer).toFinset := by
        intro i inside
        obtain ⟨x, found, named⟩ := held i _ _ (delivered i inside) (room i inside)
        rw [List.mem_toFinset]
        exact List.mem_map.mpr ⟨x, found, named⟩
      have size := (Finset.card_le_card stored).trans (List.toFinset_card_le _)
      rw [List.length_map] at size
      omega

/-- A vote that its own signer signs, for slot 0 of view 1. -/
def voteOf (signer : Int) : Certificate :=
  { hash := [7], view := 1, signer := signer, sign := Crypto.sample.signMessage signer [7] }

theorem three_votes_certified :
    (Collector.run Crypto.sample 1 (([1, 2, 3] : List Int).map voteOf)).Certified 1 0 [7] := by
  refine (quorum_certified_iff Crypto.sample 1 _ (by decide) 1 0 [7] (by decide) {1, 2, 3} rfl
    (fun i => (([1, 2, 3] : List Int).map voteOf).take (i.toNat - 1)) voteOf ?_).mpr ?_
  · intro i inside
    fin_cases inside <;> exact ⟨by decide, rfl, rfl, rfl, rfl, by decide⟩
  · decide

/-- Replica 1 sends its vote twice, and the vote of replica 3 is refused. -/
theorem repeated_vote_blocks_quorum :
    (∀ cert ∈ ([1, 1, 2, 3] : List Int).map voteOf,
      Crypto.sample.verifyMessage cert.hash cert.sign = true) ∧
    (∀ i ∈ ({1, 2, 3} : Finset Int), ∃ before cert,
      Delivered Crypto.sample 1 (([1, 1, 2, 3] : List Int).map voteOf) 1 0 [7] i before cert) ∧
    ¬(Collector.run Crypto.sample 1 (([1, 1, 2, 3] : List Int).map voteOf)).Certified 1 0 [7] := by
  refine ⟨by decide, ?_, ?_⟩
  · intro i inside
    refine ⟨(([1, 1, 2, 3] : List Int).map voteOf).take i.toNat, voteOf i, ?_⟩
    fin_cases inside <;> exact ⟨by decide, rfl, rfl, rfl, rfl, by decide⟩
  · show ¬∃ qc ∈ (Collector.run Crypto.sample 1 (([1, 1, 2, 3] : List Int).map voteOf)).formed,
      qc.view = 1 ∧ qc.slot = 0 ∧ qc.hash = [7]
    decide

end ResDB.SlotHs1
