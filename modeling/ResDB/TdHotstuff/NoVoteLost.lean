import Mathlib.Tactic
import ResDB.TdHotstuff.VoteCount

/-! Which votes `ReceiveCertificate` loses. A position above every certificate formed so far
passes the two early filters unless it is the very first one, another certificate has left the
same key in `qc_done_`, or a negative view or slot has pushed the unsigned floor past it. The
votes that pass are kept until they have made their certificate. -/
namespace ResDB.TdHotstuff
open WeightedQuorum HotStuff

/-- What the filters ask of a position beyond being above all the certificates formed: it is
not the initial floor, no certificate shares its key, and none has set the floor to a negative
number read as an unsigned one. -/
structure Open (formed : List QC) (view slot : Int) : Prop where
  started : ¬(view = 0 ∧ slot = 0)
  unmarked : ∀ qc ∈ formed, Votes.doneKey qc.view qc.slot ≠ Votes.doneKey view slot
  natural : ∀ qc ∈ formed, 0 ≤ qc.view ∧ (qc.view = view → 0 ≤ qc.slot)

/-- During the run the vote `cert` of a replica for the block arrives after `before`, above
every certificate formed till then. -/
structure Delivered (crypto : Crypto) (weights : List ℕ) (certs : List Certificate)
    (view slot : Int) (hash : Bytes) (signer : Int) (before : List Certificate)
    (cert : Certificate) : Prop where
  arrives : before ++ [cert] <+: certs
  voter : cert.signer = signer
  ofView : cert.view = view
  ofSlot : cert.slot = slot
  ofHash : cert.hash = hash
  above : ∀ qc ∈ (Collector.run crypto weights before).formed, qc.position < cert.position

structure Collector.Marked (c : Collector) : Prop where
  floor : c.votes.floor = (c.formed.getLast?.map unsignedPosition).getD (toLex (0, 0))
  ascending : ∀ qc ∈ c.formed, unsignedPosition qc ≤ c.votes.floor
  done : ∀ key ∈ c.votes.qcDone, ∃ qc ∈ c.formed, Votes.doneKey qc.view qc.slot = key
  kept : ∀ qc ∈ c.formed, Votes.doneKey qc.view qc.slot ∈ c.votes.qcDone ∨
    ∃ later ∈ c.formed, Votes.doneKey qc.view qc.slot < (later.view - 2) * 100000

namespace Collector
variable {crypto : Crypto} {weights : List ℕ} {c : Collector} {cert : Certificate}
  {view slot : Int} {hash : Bytes}

theorem Marked.empty : Marked {} where
  floor := rfl
  ascending _ member := absurd member List.not_mem_nil
  done _ member := absurd member (Finset.notMem_empty _)
  kept _ member := absurd member List.not_mem_nil

theorem mem_close_qcDone {votes : Votes} {key : Int} :
    key ∈ (votes.close cert).qcDone ↔
      (key = Votes.doneKey cert.view cert.slot ∨ key ∈ votes.qcDone) ∧
        ¬(2 < cert.view ∧ key < (cert.view - 2) * 100000) := by
  simp only [Votes.close]
  split_ifs with late
  · simp only [Finset.mem_filter, Finset.mem_insert, late, true_and]
  · simp only [Finset.mem_insert, late, false_and, not_false_eq_true, and_true]

theorem Marked.forming (marked : c.Marked) (ok : admits crypto weights c.votes cert = true)
    {qc : QC} (view : qc.view = cert.view) (slot : qc.slot = cert.slot) {w : ℕ} :
    Marked { votes := (c.votes.add cert w).close cert, formed := c.formed ++ [qc] } where
  floor := by
    simp only [List.getLast?_concat, Option.map_some, Option.getD_some, unsignedPosition, view,
      slot]
    rfl
  ascending q member := by
    have lower := floor_lt_of_admits ok
    rcases List.mem_append.mp member with old | new
    · exact (marked.ascending q old).trans lower.le
    · rw [List.mem_singleton.mp new, unsignedPosition, view, slot]
      exact le_rfl
  done key member := by
    simp only [List.mem_append, List.mem_singleton]
    rcases (mem_close_qcDone.mp member).1 with rfl | old
    · exact ⟨qc, .inr rfl, by rw [view, slot]⟩
    · obtain ⟨q, inside, same⟩ := marked.done key old
      exact ⟨q, .inl inside, same⟩
  kept q member := by
    simp only [mem_close_qcDone, List.mem_append, List.mem_singleton]
    by_cases erased : 2 < cert.view ∧ Votes.doneKey q.view q.slot < (cert.view - 2) * 100000
    · exact .inr ⟨qc, .inr rfl, by rw [view]; exact erased.2⟩
    · rcases List.mem_append.mp member with old | new
      · rcases marked.kept q old with inside | ⟨later, formed, below⟩
        · exact .inl ⟨.inr inside, erased⟩
        · exact .inr ⟨later, .inl formed, below⟩
      · rw [List.mem_singleton.mp new, view, slot] at erased ⊢
        exact .inl ⟨.inl rfl, erased⟩

theorem Marked.receive (marked : c.Marked) (cert : Certificate) :
    (c.receive crypto weights cert).Marked := by
  rcases countVote_cases crypto weights c.votes cert with same | ⟨ok, counted | ⟨-, formed⟩⟩
  · simp only [Collector.receive, same, Option.toList_none, List.append_nil]
    exact marked
  · simp only [Collector.receive, counted, Option.toList_none, List.append_nil]
    exact ⟨marked.floor, marked.ascending, marked.done, marked.kept⟩
  · simp only [Collector.receive, formed, Option.toList_some]
    exact marked.forming ok rfl rfl

theorem marked_run (crypto : Crypto) (weights : List ℕ) (certs : List Certificate) :
    (run crypto weights certs).Marked :=
  List.foldlRecOn certs _ Marked.empty (fun _ marked cert _ => marked.receive cert)

theorem Marked.passes (marked : c.Marked) (posView : 0 ≤ cert.view) (posSlot : 0 ≤ cert.slot)
    (above : ∀ qc ∈ c.formed, qc.position < cert.position)
    (clear : Open c.formed cert.view cert.slot) :
    isStale c.votes.minView c.votes.minSlot cert = false ∧
      Votes.doneKey cert.view cert.slot ∉ c.votes.qcDone := by
  constructor
  · rw [isStale_eq_false_iff, asUInt64_of_nonneg posView, asUInt64_of_nonneg posSlot]
    show c.votes.floor < _
    rw [marked.floor]
    cases last : c.formed.getLast? with
    | none =>
        have started := clear.started
        refine position_lt.mpr ?_
        omega
    | some qc =>
        have member := List.mem_of_getLast? last
        obtain ⟨natural, sameView⟩ := clear.natural qc member
        have lower := position_lt.mp (above qc member)
        refine position_lt.mpr ?_
        rw [asUInt64_of_nonneg natural]
        rcases lower with below | ⟨same, below⟩
        · exact .inl below
        · rw [asUInt64_of_nonneg (sameView same)]
          exact .inr ⟨same, below⟩
  · intro marked'
    obtain ⟨qc, member, same⟩ := marked.done _ marked'
    exact clear.unmarked qc member same

/-! ### Votes that passed -/

def Holds (c : Collector) (view : Int) (hash : Bytes) (signer : Int) : Prop :=
  ∃ x ∈ c.votes.receive view hash, x.signer = signer

def Certified (c : Collector) (view : Int) (hash : Bytes) : Prop :=
  ∃ qc ∈ c.formed, qc.view = view ∧ qc.hash = hash

theorem formed_receive {qc : QC} (member : qc ∈ c.formed) (cert : Certificate) :
    qc ∈ (c.receive crypto weights cert).formed :=
  List.mem_append_left _ member

theorem formed_mono {earlier later : List Certificate} {qc : QC} (before : earlier <+: later)
    (member : qc ∈ (run crypto weights earlier).formed) :
    qc ∈ (run crypto weights later).formed := by
  obtain ⟨rest, rfl⟩ := before
  induction rest using List.reverseRecOn with
  | nil => rwa [List.append_nil]
  | append_singleton rest cert ih =>
      rw [← List.append_assoc, run_concat]
      exact formed_receive ih cert

theorem Holds.receive {signer : Int} (holds : c.Holds view hash signer) (cert : Certificate)
    (low : ∀ qc ∈ (c.receive crypto weights cert).formed, qc.view ≤ view) :
    (c.receive crypto weights cert).Holds view hash signer := by
  obtain ⟨x, stored, named⟩ := holds
  refine ⟨x, ?_, named⟩
  have added : x ∈ (c.votes.add cert (weightAt weights cert.signer)).receive view hash := by
    simp only [Votes.add, VoteStore.insert]
    split_ifs
    · exact mem_insertSigner_of_mem stored
    · exact stored
  rcases countVote_cases crypto weights c.votes cert with same | ⟨-, counted | ⟨-, formed⟩⟩
  · simpa only [Collector.receive, same] using stored
  · simpa only [Collector.receive, counted] using added
  · have below := low (formQC (c.votes.add cert (weightAt weights cert.signer)).receive cert)
      (by simp [Collector.receive, formed])
    have kept : ¬(2 < cert.view ∧ view = cert.view - 2) := by
      have own : cert.view ≤ view := below
      omega
    simpa only [Collector.receive, formed, Votes.close, if_neg kept] using added

theorem Exact.holds_or_certified (exact : Exact crypto weights c)
    (known : cert.signer ∈ replicas weights.length)
    (valid : crypto.verifyMessage cert.hash cert.sign = true)
    (passes : isStale c.votes.minView c.votes.minSlot cert = false ∧
      Votes.doneKey cert.view cert.slot ∉ c.votes.qcDone) :
    (c.receive crypto weights cert).Holds cert.view cert.hash cert.signer ∨
      c.Certified cert.view cert.hash := by
  cases ok : admits crypto weights c.votes cert with
  | true =>
      refine .inl ⟨cert, ?_, rfl⟩
      show cert ∈ (countVote crypto weights c.votes cert).1.receive cert.view cert.hash
      rw [(countVote_of_admits ok).1]
      exact (insertSigner_perm (admits_iff.mp ok).2.2.2.2.2).mem_iff.mpr List.mem_cons_self
  | false =>
      by_cases full : weightThreshold weights ≤ c.votes.receivedWeight cert.view cert.hash
      · exact .inr (exact.reached _ _ full)
      · left
        by_contra missing
        refine Bool.false_ne_true (ok.symm.trans (admits_iff.mpr
          ⟨known, passes.1, passes.2, valid, Nat.lt_of_not_le full, ?_⟩))
        intro x stored same
        refine missing ⟨x, ?_, same⟩
        simpa only [Collector.receive, countVote_of_not_admits ok] using stored

theorem holds_or_certified_run (posView : 0 ≤ view) (posSlot : 0 ≤ slot)
    {certs : List Certificate}
    (valid : ∀ cert ∈ certs, crypto.verifyMessage cert.hash cert.sign = true)
    (low : ∀ qc ∈ (run crypto weights certs).formed, qc.view ≤ view)
    {signer : Int} (known : signer ∈ replicas weights.length) {before : List Certificate}
    (delivered : Delivered crypto weights certs view slot hash signer before cert)
    (clear : Open (run crypto weights before).formed view slot) :
    (run crypto weights certs).Holds view hash signer ∨
      (run crypto weights certs).Certified view hash := by
  induction certs using List.reverseRecOn with
  | nil => exact absurd delivered.arrives (by simp)
  | append_singleton certs last ih =>
      rw [run_concat] at low ⊢
      rcases List.prefix_concat_iff.mp delivered.arrives with now | earlier
      · obtain ⟨rfl, same⟩ := List.append_inj' now rfl
        cases same
        obtain ⟨-, rfl, rfl, rfl, rfl, above⟩ := delivered
        have passes := (marked_run crypto weights before).passes posView posSlot above clear
        rcases (exact_run crypto weights before).holds_or_certified known
          (valid cert (by simp)) passes with held | ⟨qc, member, names⟩
        · exact .inl held
        · exact .inr ⟨qc, formed_receive member cert, names⟩
      · rcases ih (fun x member => valid x (List.mem_append_left _ member))
          (fun qc member => low qc (formed_receive member last))
          { delivered with arrives := earlier } with held | ⟨qc, member, names⟩
        · exact .inl (held.receive last low)
        · exact .inr ⟨qc, formed_receive member last, names⟩

theorem Exact.certified (exact : Exact crypto weights c) {signers : Finset Int}
    (heavy : weightThreshold weights ≤ weight (weightAt weights) signers)
    (held : ∀ i ∈ signers, i ∈ replicas weights.length →
      c.Holds view hash i ∨ c.Certified view hash) : c.Certified view hash := by
  by_contra missing
  have stored : ∀ i ∈ signers, weightAt weights i ≠ 0 →
      i ∈ ((c.votes.receive view hash).map Certificate.signer).toFinset := by
    intro i member counts
    have known : i ∈ replicas weights.length := by
      rw [mem_replicas]
      by_contra unknown
      exact counts (if_neg unknown)
    rcases held i member known with ⟨x, inside, named⟩ | certified
    · rw [List.mem_toFinset]
      exact List.mem_map.mpr ⟨x, inside, named⟩
    · exact absurd certified missing
  refine missing (exact.reached view hash ?_)
  calc weightThreshold weights
      ≤ weight (weightAt weights) signers := heavy
    _ ≤ weight (weightAt weights) ((c.votes.receive view hash).map Certificate.signer).toFinset :=
        Finset.sum_le_sum_of_ne_zero stored
    _ = c.votes.receivedWeight view hash := (exact.tallied.weight_signers view hash).symm

/-! ### Votes that are dropped -/

theorem formed_source {certs : List Certificate} :
    ∀ qc ∈ (run crypto weights certs).formed,
      ∃ cert ∈ certs, qc.view = cert.view ∧ qc.slot = cert.slot := by
  induction certs using List.reverseRecOn with
  | nil => exact fun qc member => absurd member List.not_mem_nil
  | append_singleton certs last ih =>
      intro qc member
      rw [run_concat, Collector.receive, List.mem_append, Option.mem_toList] at member
      rcases member with old | new
      · obtain ⟨cert, inside, fields⟩ := ih qc old
        exact ⟨cert, List.mem_append_left _ inside, fields⟩
      · obtain ⟨-, sameView, sameSlot, -, -⟩ := countVote_fields (Prod.ext rfl new)
        exact ⟨last, by simp, sameView, sameSlot⟩

theorem Marked.open_of_passes (marked : c.Marked)
    (posView : 0 ≤ cert.view) (posSlot : 0 ≤ cert.slot)
    (bounded : cert.view < 2 ^ 31 ∧ cert.slot < 2 ^ 31)
    (range : ∀ qc ∈ c.formed, -2 ^ 31 ≤ qc.view ∧ -2 ^ 31 ≤ qc.slot)
    (above : ∀ qc ∈ c.formed, qc.position < cert.position)
    (ok : admits crypto weights c.votes cert = true) : Open c.formed cert.view cert.slot := by
  have lower := floor_lt_of_admits ok
  rw [asUInt64_of_nonneg posView, asUInt64_of_nonneg posSlot] at lower
  have under : ∀ qc ∈ c.formed, asUInt64 qc.view < cert.view ∨
      asUInt64 qc.view = cert.view ∧ asUInt64 qc.slot < cert.slot := by
    intro qc member
    exact position_lt.mp ((marked.ascending qc member).trans_lt lower)
  have natural : ∀ qc ∈ c.formed, 0 ≤ qc.view ∧ (qc.view = cert.view → 0 ≤ qc.slot) := by
    intro qc member
    have position := under qc member
    have low := range qc member
    unfold asUInt64 at position
    split_ifs at position <;> omega
  refine ⟨?_, ?_, natural⟩
  · rintro ⟨zeroView, zeroSlot⟩
    rw [marked.floor] at lower
    cases last : c.formed.getLast? with
    | none =>
        rw [last] at lower
        have first := position_lt.mp lower
        omega
    | some qc =>
        have member := List.mem_of_getLast? last
        have position := position_lt.mp (above qc member)
        have sign := natural qc member
        omega
  · intro qc member same
    rcases marked.kept qc member with done | ⟨later, formed, erased⟩
    · rw [same] at done
      exact (admits_iff.mp ok).2.2.1 done
    · -- a key is erased only once a view two above it has its certificate
      have position := position_lt.mp (above later formed)
      rw [same, Votes.doneKey] at erased
      omega

end Collector

namespace Delivered
variable {crypto : Crypto} {weights : List ℕ} {certs : List Certificate} {view slot : Int}
  {hash : Bytes} {i j : Int} {before before' : List Certificate} {cert cert' : Certificate}

theorem upTo (earlier : Delivered crypto weights certs view slot hash j before' cert')
    (later : Delivered crypto weights certs view slot hash i before cert)
    (order : before'.length ≤ before.length) :
    Delivered crypto weights (before ++ [cert]) view slot hash j before' cert' := by
  have shorter : (before' ++ [cert']).length ≤ (before ++ [cert]).length := by simpa using order
  exact { earlier with
    arrives := List.prefix_of_prefix_length_le earlier.arrives later.arrives shorter }

theorem formed_view_le (delivered : Delivered crypto weights certs view slot hash i before cert) :
    ∀ qc ∈ (Collector.run crypto weights (before ++ [cert])).formed, qc.view ≤ view := by
  intro qc member
  rw [Collector.run_concat, Collector.receive, List.mem_append, Option.mem_toList] at member
  rcases member with old | new
  · have position := position_lt.mp (delivered.above qc old)
    rw [delivered.ofView] at position
    omega
  · rw [(countVote_fields (Prod.ext rfl new)).2.1, delivered.ofView]

theorem countVote_of_not_open
    (delivered : Delivered crypto weights certs view slot hash i before cert)
    (posView : 0 ≤ view) (posSlot : 0 ≤ slot)
    (range : ∀ cert ∈ certs, (-2 ^ 31 ≤ cert.view ∧ cert.view < 2 ^ 31) ∧
      -2 ^ 31 ≤ cert.slot ∧ cert.slot < 2 ^ 31)
    (closed : ¬Open (Collector.run crypto weights before).formed view slot) :
    countVote crypto weights (Collector.run crypto weights before).votes cert =
      ((Collector.run crypto weights before).votes, none) := by
  have prior : before <+: certs := (List.prefix_append _ _).trans delivered.arrives
  have own : cert ∈ certs := delivered.arrives.subset (by simp)
  apply countVote_of_not_admits
  rw [Bool.eq_false_iff]
  intro ok
  obtain ⟨-, -, rfl, rfl, -, above⟩ := delivered
  refine closed ((Collector.marked_run crypto weights before).open_of_passes posView posSlot
    ⟨(range cert own).1.2, (range cert own).2.2⟩ ?_ above ok)
  intro qc member
  obtain ⟨x, inside, sameView, sameSlot⟩ := Collector.formed_source qc member
  rw [sameView, sameSlot]
  exact ⟨(range x (prior.subset inside)).1.1, (range x (prior.subset inside)).2.1⟩

end Delivered

/-- Votes of the threshold's weight for one view, slot and hash, each delivered above all the
certificates formed so far and at an open position, have made a certificate for the view and
hash by the time the last of them is delivered, whatever else arrives. A vote delivered at a
position that is not open is dropped. -/
theorem open_quorum_certified (crypto : Crypto) (weights : List ℕ) (certs : List Certificate)
    (valid : ∀ cert ∈ certs, crypto.verifyMessage cert.hash cert.sign = true)
    (view slot : Int) (hash : Bytes) (posView : 0 ≤ view) (posSlot : 0 ≤ slot) :
    (∀ signers : Finset Int, weightThreshold weights ≤ weight (weightAt weights) signers →
      (∀ i ∈ signers, ∃ before cert,
        Delivered crypto weights certs view slot hash i before cert ∧
          Open (Collector.run crypto weights before).formed view slot) →
      (Collector.run crypto weights certs).Certified view hash) ∧
    ((∀ cert ∈ certs, (-2 ^ 31 ≤ cert.view ∧ cert.view < 2 ^ 31) ∧
        -2 ^ 31 ≤ cert.slot ∧ cert.slot < 2 ^ 31) →
      ∀ i before cert, Delivered crypto weights certs view slot hash i before cert →
        ¬Open (Collector.run crypto weights before).formed view slot →
        countVote crypto weights (Collector.run crypto weights before).votes cert =
          ((Collector.run crypto weights before).votes, none)) := by
  constructor
  · intro signers heavy delivered
    have : Nonempty Certificate := ⟨{}⟩
    choose! before cert arrives clear using delivered
    have some : signers.Nonempty := by
      rw [Finset.nonempty_iff_ne_empty]
      rintro rfl
      exact absurd heavy (by simp [weight, weightThreshold])
    -- the run up to the last of the deliveries has them all, and nothing of a later view
    obtain ⟨i, inside, latest⟩ := signers.exists_max_image (fun i => (before i).length) some
    have last := arrives i inside
    have upToValid : ∀ x ∈ before i ++ [cert i], crypto.verifyMessage x.hash x.sign = true :=
      fun x member => valid x (last.arrives.subset member)
    have held : ∀ j ∈ signers, j ∈ replicas weights.length →
        (Collector.run crypto weights (before i ++ [cert i])).Holds view hash j ∨
          (Collector.run crypto weights (before i ++ [cert i])).Certified view hash :=
      fun j member known => Collector.holds_or_certified_run posView posSlot upToValid
        last.formed_view_le known ((arrives j member).upTo last (latest j member)) (clear j member)
    obtain ⟨qc, member, names⟩ :=
      (Collector.exact_run crypto weights (before i ++ [cert i])).certified heavy held
    exact ⟨qc, Collector.formed_mono last.arrives member, names⟩
  · intro range i before cert delivered closed
    exact delivered.countVote_of_not_open posView posSlot range closed

def voteAt (view slot : Int) (hash : Bytes) (signer : Int) : Certificate :=
  { hash := hash, view := view, slot := slot, signer := signer
    sign := Crypto.sample.signMessage signer hash }

theorem three_open_votes_certified :
    (Collector.run Crypto.sample (buildWeights 4)
      (([1, 2, 3] : List Int).map (voteAt 1 0 [1]))).Certified 1 [1] := by
  refine (open_quorum_certified Crypto.sample (buildWeights 4) _ (by decide) 1 0 [1]
    (by decide) (by decide)).1 {1, 2, 3} (by decide) ?_
  intro i member
  refine
    ⟨([1, 2, 3] : List Int).map (voteAt 1 0 [1]) |>.take (i.toNat - 1), voteAt 1 0 [1] i, ?_, ?_⟩
  · fin_cases member <;> exact ⟨by decide, rfl, rfl, rfl, rfl, by decide⟩
  · fin_cases member <;> exact ⟨by decide, by decide, by decide⟩

/-- A certificate at slot 100000 of view 1 has the key of slot 0 of view 2. -/
def collidingVotes : List Certificate :=
  ([1, 2, 3] : List Int).map (voteAt 1 100000 [1]) ++ ([1, 2, 3] : List Int).map (voteAt 2 0 [2])

/-- The votes for slot 0 of view 2 are all dropped. -/
theorem shared_key_loses_votes :
    (∀ cert ∈ collidingVotes, Crypto.sample.verifyMessage cert.hash cert.sign = true) ∧
      weightThreshold (buildWeights 4) ≤ weight (weightAt (buildWeights 4)) {1, 2, 3} ∧
      (∀ i ∈ ({1, 2, 3} : Finset Int), ∃ before cert,
        Delivered Crypto.sample (buildWeights 4) collidingVotes 2 0 [2] i before cert) ∧
      ¬(Collector.run Crypto.sample (buildWeights 4) collidingVotes).Certified 2 [2] := by
  refine ⟨by decide, by decide, ?_, ?_⟩
  · intro i member
    refine ⟨collidingVotes.take (i.toNat + 2), voteAt 2 0 [2] i, ?_⟩
    fin_cases member <;> exact ⟨by decide, rfl, rfl, rfl, rfl, by decide⟩
  · show ¬∃ qc ∈ (Collector.run Crypto.sample (buildWeights 4) collidingVotes).formed,
      qc.view = 2 ∧ qc.hash = [2]
    decide

end ResDB.TdHotstuff
