import Mathlib.Tactic
import ResDB.Pbft.Agreement

/-! When a VIEW-CHANGE message of an honest replica is valid at another one. Its reports are:
the proofs that a collector keeps are signed PREPAREs of a quorum for its own number. But a
number may find the collector of another one in its place, and the receiver checks the
signatures of its own stable checkpoint in place of those in the message. -/
namespace ResDB.Pbft
open Deployment (sampleDeployment)

/-- What a collector holds to report, with view changes enabled. -/
structure Certified (D : Deployment) (c : Collector) : Prop where
  proofs : ∀ proof ∈ c.preparedProof, proof.request.seq = c.seq ∧
    D.crypto.verifyMessage (D.codec.request proof.request) proof.signature = true
  counted : c.status.rank ≤ Status.readyPrepare.rank → ∀ hash, ∀ i ∈ c.senders .prepare hash,
    ∃ proof ∈ c.preparedProof, proof.request.hash = hash ∧ proof.request.senderId = i
  full : Status.readyCommit.rank ≤ c.status.rank → D.quorum ≤ c.preparedProof.length

namespace Certified
variable {D : Deployment} {c c' : Collector} {info : RequestInfo}

theorem fresh (D : Deployment) (seq : ℕ) : Certified D { seq := seq } where
  proofs := fun _ member => absurd member List.not_mem_nil
  counted := fun _ _ _ member => absurd member (Finset.notMem_empty _)
  full := fun past => absurd past (show ¬ (2 : ℕ) ≤ 0 by decide)

theorem proofs_of_tallied (certified : Certified D c) (tallied : Collector.Tallied c info c')
    (seq : c.seq = info.request.seq)
    (signed : D.crypto.verifyMessage (D.codec.request info.request) info.signature = true) :
    ∀ proof ∈ c'.preparedProof, proof.request.seq = c'.seq ∧
      D.crypto.verifyMessage (D.codec.request proof.request) proof.signature = true := by
  intro proof member
  rw [tallied.seq]
  rcases tallied.proofs with same | ⟨-, more⟩
  · exact certified.proofs proof (same ▸ member)
  · rw [more, List.mem_append, List.mem_singleton] at member
    cases member with
    | inl old => exact certified.proofs proof old
    | inr new =>
        subst new
        exact ⟨seq.symm, signed⟩

theorem counted_of_tallied (certified : Certified D c) (tallied : Collector.Tallied c info c')
    (early : c.status.rank ≤ Status.readyPrepare.rank)
    (kept : info.request.type = .prepare → info ∈ c'.preparedProof) :
    ∀ hash, ∀ i ∈ c'.senders .prepare hash,
      ∃ proof ∈ c'.preparedProof, proof.request.hash = hash ∧ proof.request.senderId = i := by
  intro hash i member
  rw [tallied.senders, Collector.mem_addSender] at member
  rcases member with old | ⟨type, rfl, rfl, -⟩
  · obtain ⟨proof, inside, rest⟩ := certified.counted early hash i old
    refine ⟨proof, ?_, rest⟩
    rcases tallied.proofs with same | ⟨-, more⟩
    · rwa [same]
    · rw [more]
      exact List.mem_append_left _ inside
  · exact ⟨info, kept type.symm, rfl, rfl⟩

theorem length_settled (prepare : info.request.type = .prepare)
    (counted : ∀ i ∈ c.senders .prepare info.request.hash, ∃ proof ∈ c.preparedProof,
      proof.request.hash = info.request.hash ∧ proof.request.senderId = i) :
    c.received info ≤
      (c.preparedProof.filter (fun proof => proof.request.hash = info.request.hash)).length := by
  set kept := c.preparedProof.filter (fun proof => proof.request.hash = info.request.hash)
  have named : c.senders .prepare info.request.hash ⊆
      (kept.map (fun proof => proof.request.senderId)).toFinset := by
    intro i member
    obtain ⟨proof, inside, hash, sender⟩ := counted i member
    rw [List.mem_toFinset, List.mem_map]
    exact ⟨proof, List.mem_filter.mpr ⟨inside, decide_eq_true hash⟩, sender⟩
  calc c.received info = (c.senders .prepare info.request.hash).card := by
        rw [Collector.received, prepare]
    _ ≤ (kept.map (fun proof => proof.request.senderId)).toFinset.card :=
        Finset.card_le_card named
    _ ≤ (kept.map (fun proof => proof.request.senderId)).length := List.toFinset_card_le _
    _ = kept.length := List.length_map _

theorem added {result : Collector × AddResult} (on : D.enableViewchange = true)
    (certified : Certified D c)
    (signed : D.crypto.verifyMessage (D.codec.request info.request) info.signature = true)
    (add : Collector.Added D.quorum D.enableViewchange c info result) : Certified D result.1 := by
  cases add with
  | rejected => exact certified
  | ignored _ => exact certified
  | aside _ _ => exact ⟨certified.proofs, certified.counted, certified.full⟩
  | @main status changed _ _ next =>
      rcases next with same | ⟨fresh, ready⟩
      · subst same
        exact ⟨certified.proofs, certified.counted, certified.full⟩
      · subst ready
        refine ⟨certified.proofs, fun _ => certified.counted ?_, fun past => ?_⟩
        · rw [fresh]
          decide
        · exact absurd past (show ¬ (2 : ℕ) ≤ 1 by decide)
  | counted tallied seq kept =>
      refine ⟨certified.proofs_of_tallied tallied seq signed, fun early => ?_, fun past => ?_⟩
      · rw [tallied.status] at early
        exact certified.counted_of_tallied tallied early (fun sort => kept sort on)
      · rw [tallied.status] at past
        have old := certified.full past
        rcases tallied.proofs with same | ⟨early, -⟩
        · rwa [same]
        · exact absurd (past.trans early) (by decide)
  | prepared _ _ _ _ _ off =>
      rw [on] at off
      cases off
  | @settled c' tallied seq prepare ready full proof =>
      have early : c.status.rank ≤ Status.readyPrepare.rank := (congrArg Status.rank ready).le
      refine ⟨fun kept member => ?_, fun before => ?_, fun _ => ?_⟩
      · exact certified.proofs_of_tallied tallied seq signed kept (List.mem_filter.mp member).1
      · exact absurd before (show ¬ (2 : ℕ) ≤ 1 by decide)
      · exact full.trans (length_settled prepare
          (certified.counted_of_tallied tallied early (fun _ => proof) _))
  | @executed c' tallied seq commits ready full =>
      have past : Status.readyCommit.rank ≤ c.status.rank := (congrArg Status.rank ready).ge
      have same : c'.preparedProof = c.preparedProof := by
        rcases tallied.proofs with same | ⟨early, -⟩
        · exact same
        · exact absurd (past.trans early) (by decide)
      refine ⟨?_, fun before => ?_, fun _ => ?_⟩
      · rw [Collector.commit_preparedProof, Collector.commit_seq]
        have kept := certified.proofs_of_tallied tallied seq signed
        exact kept
      · rw [Collector.commit_status] at before
        exact absurd before (by decide)
      · rw [Collector.commit_preparedProof]
        exact same.symm ▸ certified.full past

end Certified

structure SameVotes (m m' : CheckPointManager) : Prop where
  votes : m'.votes = m.votes
  stableCkpt : m'.stableCkpt = m.stableCkpt
  currentStableSeq : m'.currentStableSeq = m.currentStableSeq

namespace SameVotes
variable {D : Deployment} {m m' m'' : CheckPointManager}

theorem refl (m : CheckPointManager) : SameVotes m m := ⟨rfl, rfl, rfl⟩

theorem trans (first : SameVotes m m') (second : SameVotes m' m'') : SameVotes m m'' where
  votes := second.votes.trans first.votes
  stableCkpt := second.stableCkpt.trans first.stableCkpt
  currentStableSeq := second.currentStableSeq.trans first.currentStableSeq

theorem transfer (r : Replica) (votes : CheckPointVotes)
    (reply : Int → ℕ → ℕ → Option (List Request)) :
    SameVotes r.ckpt (D.transfer r votes reply).ckpt := by
  have committable : SameVotes r.ckpt
      (if D.minCheckpointReceiveNum ≤ votes.senders.card then
        { r.ckpt with committableSeq := votes.seq } else r.ckpt) := by
    split_ifs
    · exact ⟨rfl, rfl, rfl⟩
    · exact .refl _
  unfold Deployment.transfer
  cases D.fetched r votes reply with
  | none => exact committable
  | some requests => exact ⟨committable.votes, committable.stableCkpt, committable.currentStableSeq⟩

theorem digest (id : Int) (request : Request) : SameVotes m (m.digest D id request).1 := by
  unfold CheckPointManager.digest
  dsimp only
  split_ifs
  · exact ⟨rfl, rfl, rfl⟩
  · exact ⟨rfl, rfl, rfl⟩
  · exact ⟨rfl, rfl, rfl⟩

end SameVotes

theorem updateStable_ckpt {D : Deployment} {r r' : Replica}
    {reply : Int → ℕ → ℕ → Option (List Request)}
    (done : D.updateStableCheckPointStatus r reply = some r') :
    ∃ m, SameVotes r.ckpt m ∧ SameVotes (m.installStable D) r'.ckpt := by
  have folded : ∀ (list : List ((ℕ ×ₗ List ℕ) × CheckPointVotes)) (r : Replica),
      SameVotes r.ckpt (list.foldl (fun r entry => D.transfer r entry.2 reply) r).ckpt := by
    intro list
    induction list with
    | nil => exact fun r => .refl r.ckpt
    | cons entry rest ih => exact fun r => (SameVotes.transfer r entry.2 reply).trans (ih _)
  unfold Deployment.updateStableCheckPointStatus at done
  split_ifs at done
  cases done
  exact ⟨_, folded _ r, ⟨rfl, rfl, rfl⟩⟩

theorem updateCheckPoint_ckpt {D : Deployment} {r r' : Replica} {id : Int}
    {sent : List CheckPointData} (done : D.updateCheckPointStatus r id = some (r', sent)) :
    SameVotes r.ckpt r'.ckpt := by
  unfold Deployment.updateCheckPointStatus at done
  split at done
  · cases done
  · rename_i request _
    dsimp only at done
    split_ifs at done
    · cases done
      exact ⟨rfl, rfl, rfl⟩
    · cases done
      have same := SameVotes.digest (D := D) (m := { r.ckpt with taken := r.ckpt.taken + 1 })
        id request
      exact ⟨same.votes, same.stableCkpt, same.currentStableSeq⟩

/-- All votes of a checkpoint are signatures of its hash, also those that made one stable. -/
structure Vouched (crypto : Crypto) (m : CheckPointManager) : Prop where
  keyed : ∀ entry ∈ m.votes.entries, entry.1 = CheckPointManager.key entry.2.seq entry.2.hash
  votes : ∀ entry ∈ m.votes.entries, ∀ sign ∈ entry.2.signatures,
    crypto.verifyMessage entry.2.hash sign = true
  stable : ∀ sign ∈ m.stableCkpt.signatures, crypto.verifyMessage m.stableCkpt.hash sign = true

theorem key_injective {seq seq' : ℕ} {hash hash' : Bytes}
    (same : CheckPointManager.key seq hash = CheckPointManager.key seq' hash') :
    seq = seq' ∧ hash = hash' := by
  have pairs : (seq, hash.map UInt8.toNat) = (seq', hash'.map UInt8.toNat) :=
    toLex.injective same
  obtain ⟨number, bytes⟩ := Prod.mk.injEq .. ▸ pairs
  exact ⟨number, List.map_injective_iff.mpr (fun _ _ => UInt8.toNat_inj.mp) bytes⟩

namespace Vouched
variable {D : Deployment} {m : CheckPointManager}

theorem initial (crypto : Crypto) : Vouched crypto {} where
  keyed := fun _ member => absurd member List.not_mem_nil
  votes := fun _ member => absurd member List.not_mem_nil
  stable := fun _ member => absurd member List.not_mem_nil

theorem of_same {m' : CheckPointManager} (vouched : Vouched D.crypto m) (same : SameVotes m m') :
    Vouched D.crypto m' where
  keyed := by
    rw [same.votes]
    exact vouched.keyed
  votes := by
    rw [same.votes]
    exact vouched.votes
  stable := by
    rw [same.stableCkpt]
    exact vouched.stable

theorem votesFor_spec (vouched : Vouched D.crypto m) (seq : ℕ) (hash : Bytes) :
    (m.votesFor seq hash).seq = seq ∧ (m.votesFor seq hash).hash = hash ∧
      ∀ sign ∈ (m.votesFor seq hash).signatures, D.crypto.verifyMessage hash sign = true := by
  unfold CheckPointManager.votesFor
  cases found : m.votes.entries.find? (fun entry => entry.1 = CheckPointManager.key seq hash) with
  | none => exact ⟨rfl, rfl, fun _ member => absurd member List.not_mem_nil⟩
  | some entry =>
      have member := List.mem_of_find?_eq_some found
      have key : entry.1 = CheckPointManager.key seq hash := by
        simpa using List.find?_some found
      obtain ⟨number, bytes⟩ := key_injective ((vouched.keyed entry member).symm.trans key)
      refine ⟨number, bytes, fun sign inside => ?_⟩
      rw [← bytes]
      exact vouched.votes entry member sign inside

theorem addVote (vouched : Vouched D.crypto m) (sender : Int) (data : CheckPointData)
    (signed : D.crypto.verifyMessage data.hash data.hashSignature = true) :
    Vouched D.crypto (m.addVote sender data) := by
  obtain ⟨number, bytes, valid⟩ := vouched.votesFor_spec data.seq data.hash
  have added : ((m.votesFor data.seq data.hash).add sender data.hashSignature).seq = data.seq ∧
      ((m.votesFor data.seq data.hash).add sender data.hashSignature).hash = data.hash ∧
      ∀ sign ∈ ((m.votesFor data.seq data.hash).add sender data.hashSignature).signatures,
        D.crypto.verifyMessage data.hash sign = true := by
    unfold CheckPointVotes.add
    split_ifs
    · exact ⟨number, bytes, valid⟩
    · refine ⟨number, bytes, fun sign member => ?_⟩
      cases List.mem_append.mp member with
      | inl old => exact valid sign old
      | inr new =>
          rw [List.mem_singleton.mp new]
          exact signed
  have entries : ∀ entry ∈ (m.addVote sender data).votes.entries, entry.1 = CheckPointManager.key
      entry.2.seq entry.2.hash ∧ ∀ sign ∈ entry.2.signatures,
        D.crypto.verifyMessage entry.2.hash sign = true := by
    intro entry member
    rcases (SortedMap.mem_set _ _ _ _).mp member with new | ⟨old, -⟩
    · subst new
      dsimp only
      rw [added.1, added.2.1]
      exact ⟨rfl, added.2.2⟩
    · exact ⟨vouched.keyed entry old, vouched.votes entry old⟩
  exact ⟨fun entry member => (entries entry member).1, fun entry member =>
    (entries entry member).2, vouched.stable⟩

theorem processCheckPoint (vouched : Vouched D.crypto m) (sender : Int) (data : CheckPointData) :
    Vouched D.crypto (m.processCheckPoint D sender (some data)).1 := by
  unfold CheckPointManager.processCheckPoint
  dsimp only
  split_ifs with off unsigned
  · exact vouched
  · exact vouched
  · exact vouched.addVote sender data (Bool.not_eq_false _ ▸ unsigned)

theorem installStable (vouched : Vouched D.crypto m) : Vouched D.crypto (m.installStable D) := by
  unfold CheckPointManager.installStable
  split
  · exact vouched
  · rename_i votes found
    split_ifs
    · have member : votes ∈ m.votes.entries.map Prod.snd :=
        List.mem_reverse.mp (List.mem_of_find?_eq_some found)
      obtain ⟨entry, inside, rfl⟩ := List.mem_map.mp member
      refine ⟨?_, ?_, vouched.votes entry inside⟩
      · exact fun entry kept => vouched.keyed entry (List.mem_filter.mp kept).1
      · exact fun entry kept => vouched.votes entry (List.mem_filter.mp kept).1
    · exact vouched

end Vouched

namespace System
variable {D : Deployment} {byz : Finset Int} {s s' : System} {a : Action}

inductive CkptMove (D : Deployment) (m m' : CheckPointManager) : Prop where
  | same (same : SameVotes m m')
  | voted (sender : Int) (data : CheckPointData)
      (moved : m' = (m.processCheckPoint D sender (some data)).1)
  | stabilised {mid : CheckPointManager} (before : SameVotes m mid)
      (after : SameVotes (mid.installStable D) m')

theorem effect_ckpt (effect : Effect D byz s a s') (j : Int) :
    CkptMove D (s.replica j).ckpt (s'.replica j).ckpt := by
  cases effect_move effect j with
  | idle same => exact .same (same.ckpt ▸ .refl _)
  | collected taken member valid reached => exact .same (reached.ckpt ▸ .refl _)
  | voted sender data moved =>
      rw [moved]
      exact .voted sender data rfl
  | stored moved =>
      rw [moved]
      exact .same (.refl _)
  | entered taken checks data redone => exact .same (redone.ckpt ▸ .refl _)
  | executed taken done =>
      obtain ⟨e, next, same⟩ := Option.map_eq_some_iff.mp done
      rw [← same]
      exact .same (.refl _)
  | digested done => exact .same (updateCheckPoint_ckpt done)
  | stabilised taken done =>
      obtain ⟨mid, before, after⟩ := updateStable_ckpt done
      exact .stabilised before after

/-- What every replica can report, and what it accepts of reports. -/
structure Reporting (D : Deployment) (s : System) : Prop where
  resting : s.Resting
  certified : D.enableViewchange = true → ∀ id index, Certified D ((s.replica id).pool index)
  vouched : ∀ id, Vouched D.crypto (s.replica id).ckpt

theorem Reporting.step (effect : Effect D byz s a s') (reporting : Reporting D s) :
    Reporting D s' where
  resting := effect_resting effect reporting.resting
  certified := fun on => effect_collectors effect (Certified.fresh D)
    (fun _ _ _ signed add before => before.added on signed add) (reporting.certified on)
  vouched := by
    intro id
    have before := reporting.vouched id
    cases effect_ckpt effect id with
    | same same => exact before.of_same same
    | voted sender data moved => exact moved ▸ before.processCheckPoint sender data
    | stabilised first last => exact (before.of_same first).installStable.of_same last

theorem run_reporting {as : List Action} (ran : Run.exec (step D byz) {} as = some s) :
    Reporting D s := by
  refine Run.exec_invariant_always (fun s a s' (inv : Reporting D s) taken => ?_) ?_ ran
  · exact inv.step (step_effect inv.resting taken)
  · exact ⟨initial_resting, fun _ _ index => Certified.fresh D index,
      fun _ => Vouched.initial D.crypto⟩

/-- The receiver has a stable checkpoint with signatures of a quorum; or it has none, and the
message has none. -/
def Vouches (D : Deployment) (r : Replica) (stable : StableCheckPoint) : Prop :=
  D.quorum ≤ (r.ckpt.stableCkpt.signatures.map (fun sign => sign.nodeId)).toFinset.card ∨
    stable.seq = 0 ∧ r.ckpt.stableCkpt.signatures = []

instance (D : Deployment) (r : Replica) (stable : StableCheckPoint) :
    Decidable (Vouches D r stable) := inferInstanceAs (Decidable (_ ∨ _ ∧ _))

def reported (r : Replica) : List ℕ :=
  intLoop (toInt32 (r.ckpt.stableCkpt.seq + 1)) (toInt32 r.highestPreparedSeq)

/-- The collectors that a replica reports on are those of the numbers it reports. -/
def InPlace (D : Deployment) (r : Replica) : Prop :=
  ∀ seq ∈ reported r, r.ckpt.stableCkpt.seq < seq →
    Status.readyCommit.rank ≤ (D.collector r seq).status.rank → (D.collector r seq).seq = seq

instance (D : Deployment) (r : Replica) : Decidable (InPlace D r) :=
  inferInstanceAs (Decidable (∀ _ ∈ _, _ → _ → _))

theorem isValidCheckpointProof_iff {r : Replica} (vouched : Vouched D.crypto r.ckpt)
    (stable : StableCheckPoint) :
    D.isValidCheckpointProof r stable = true ↔ Vouches D r stable := by
  have signed : r.ckpt.stableCkpt.signatures.all (fun sign =>
      D.crypto.verifyMessage r.ckpt.stableCkpt.hash sign) = true :=
    List.all_eq_true.mpr vouched.stable
  unfold Deployment.isValidCheckpointProof Vouches
  simp only [signed, true_and, decide_eq_true_eq, Finset.card_eq_zero,
    List.toFinset_eq_empty_iff, List.map_eq_nil_iff]

theorem quorum_pos (D : Deployment) : 0 < D.quorum :=
  Nat.one_pos.trans_le (le_max_right _ _)

theorem isValidProof_all_iff {c : Collector} (certified : Certified D c)
    (past : Status.readyCommit.rank ≤ c.status.rank) (seq : ℕ) :
    (D.quorum ≤ c.preparedProof.length ∧ c.preparedProof.all (D.isValidProof seq) = true) ↔
      c.seq = seq := by
  have full := certified.full past
  constructor
  · rintro ⟨-, valid⟩
    obtain ⟨proof, member⟩ := List.exists_mem_of_length_pos
      ((quorum_pos D).trans_le full)
    have number := (of_decide_eq_true (List.all_eq_true.mp valid proof member)).1
    exact (certified.proofs proof member).1.symm.trans number
  · intro same
    refine ⟨full, List.all_eq_true.mpr (fun proof member => decide_eq_true ?_)⟩
    obtain ⟨number, signed⟩ := certified.proofs proof member
    exact ⟨number.trans same, signed⟩

/-- The message that an honest replica announces the next view with is valid at another one,
for any states that they reach, if and only if the receiver's own stable checkpoint has the
signatures of a quorum (or neither has a checkpoint) and no collector that the sender reports
on is that of another number. -/
theorem view_change_valid_iff (on : D.enableViewchange = true) {as as' : List Action}
    (ran : Run.exec (step D byz) {} as = some s)
    (ran' : Run.exec (step D byz) {} as' = some s') (i j : Int)
    (lower : (s'.replica j).view <
      (D.sendViewChangeMsg (Deployment.startViewChange (s.replica i))).viewNumber) :
    D.isValidViewChangeMsg (s'.replica j)
        (D.sendViewChangeMsg (Deployment.startViewChange (s.replica i))) = true ↔
      Vouches D (s'.replica j) (s.replica i).ckpt.stableCkpt ∧ InPlace D (s.replica i) := by
  have certified := (run_reporting ran).certified on i
  have vouched := (run_reporting ran').vouched j
  have valid : D.isValidViewChangeMsg (s'.replica j)
      (D.sendViewChangeMsg (Deployment.startViewChange (s.replica i))) = true ↔
      Vouches D (s'.replica j) (s.replica i).ckpt.stableCkpt ∧
        ((reported (s.replica i)).filterMap (D.reportPrepared (s.replica i))).all (fun entry =>
          entry.seq ≤ (s.replica i).ckpt.stableCkpt.seq ∨
            D.quorum ≤ entry.proof.length ∧ entry.proof.all (D.isValidProof entry.seq)) = true := by
    rw [Deployment.isValidViewChangeMsg, decide_eq_true_eq, ← isValidCheckpointProof_iff vouched]
    exact ⟨fun all => all.2, fun both => ⟨lower, both⟩⟩
  rw [valid]
  refine and_congr_right (fun _ => ?_)
  rw [List.all_eq_true]
  constructor
  · intro sound seq listed above past
    have entry : (⟨seq, (D.collector (s.replica i) seq).preparedProof⟩ : PreparedMessage) ∈
        (reported (s.replica i)).filterMap (D.reportPrepared (s.replica i)) :=
      List.mem_filterMap.mpr ⟨seq, listed, if_pos past⟩
    have checks := (of_decide_eq_true (sound _ entry)).resolve_left (not_le.mpr above)
    exact (isValidProof_all_iff (certified _) past seq).mp checks
  · intro inPlace entry member
    obtain ⟨seq, listed, report⟩ := List.mem_filterMap.mp member
    rw [Deployment.reportPrepared, Option.ite_none_right_eq_some] at report
    obtain ⟨past, same⟩ := report
    cases same
    refine decide_eq_true (or_iff_not_imp_left.mpr (fun above => ?_))
    exact (isValidProof_all_iff (certified _) past seq).mpr
      (inPlace seq listed (not_le.mp above) past)

section Sample

/-- Replica 1 reports the request it has prepared to replica 4, which knows nothing of it. -/
theorem view_change_valid_sample : ∃ s,
    Run.exec (step sampleDeployment ∅) {} (sampleAgreement sampleDeployment 1) = some s ∧
      (sampleDeployment.sendViewChangeMsg
        (Deployment.startViewChange (s.replica 1))).preparedMsg.length = 1 ∧
      sampleDeployment.isValidViewChangeMsg (({} : System).replica 4)
        (sampleDeployment.sendViewChangeMsg (Deployment.startViewChange (s.replica 1))) = true := by
  obtain ⟨s, ran, facts⟩ := (Option.any_eq_true _ _).mp
    (show (Run.exec (step sampleDeployment ∅) {} (sampleAgreement sampleDeployment 1)).any (fun s =>
      decide ((sampleDeployment.sendViewChangeMsg
          (Deployment.startViewChange (s.replica 1))).preparedMsg.length = 1 ∧
        1 < (sampleDeployment.sendViewChangeMsg
          (Deployment.startViewChange (s.replica 1))).viewNumber ∧
        Vouches sampleDeployment {} (s.replica 1).ckpt.stableCkpt ∧
        InPlace sampleDeployment (s.replica 1))) = true by decide +kernel)
  obtain ⟨one, lower, vouches, inPlace⟩ := of_decide_eq_true facts
  have start : Run.exec (step sampleDeployment ∅) {} [] = some {} := rfl
  exact ⟨s, ran, one, (view_change_valid_iff rfl ran start 1 4 lower).mpr
    ⟨vouches, inPlace⟩⟩

def sampleCheckpointing : Deployment := { sampleDeployment with checkpointWaterMark := 1 }

def sampleStable : List Action :=
  let hash := CheckPointManager.getHash Crypto.sample [] [1]
  sampleAgreement sampleCheckpointing 1 ++
    [1, 2, 3].flatMap (fun id => [Action.order id, .execute id, .digest id]) ++
    [1, 2, 3].map (fun id => Action.deliver 1
      (.checkpoint id ⟨1, hash, Crypto.sample.signMessage id hash⟩)) ++
    [Action.stabilise 1 (fun _ _ _ => none)]

theorem stable_view_change_refused :
    (Run.exec (step sampleCheckpointing ∅) {} sampleStable).map (fun s =>
      ((s.replica 1).ckpt.stableCkpt.seq, (s.replica 4).view,
        (sampleCheckpointing.sendViewChangeMsg
          (Deployment.startViewChange (s.replica 1))).viewNumber,
        sampleCheckpointing.isValidViewChangeMsg (s.replica 4)
          (sampleCheckpointing.sendViewChangeMsg (Deployment.startViewChange (s.replica 1))))) =
      some (1, 1, 2, false) := by
  decide +kernel

end Sample

end System
end ResDB.Pbft
