import Mathlib.Tactic
import ResDB.Library.Backing
import ResDB.Pbft.Reports

/-! What stands behind a stable checkpoint. A replica counts the senders that messages name,
and keeps the signatures that come with them; nothing ties the one to the other. And when it
is asked for the proof of a checkpoint, it looks at the proof of its own. -/
namespace ResDB.Pbft
open Deployment (sampleDeployment)

/-- The nodes whose valid signatures of its hash a checkpoint carries. -/
def StableCheckPoint.signers (crypto : Crypto) (c : StableCheckPoint) : Finset Int :=
  Backing.backers (fun sign => sign.nodeId) (crypto.verifyMessage c.hash) c.signatures

/-- The checkpoint is proved by what it carries. The initial one needs no signatures. -/
def StableCheckPoint.Proven (D : Deployment) (c : StableCheckPoint) : Prop :=
  D.quorum ≤ (c.signers D.crypto).card ∨ c.seq = 0 ∧ c.signatures = []

instance (D : Deployment) (c : StableCheckPoint) : Decidable (c.Proven D) :=
  inferInstanceAs (Decidable (_ ∨ _ ∧ _))

/-- What moves the executor and the checkpoints of a replica. The `origin` of a message is
the node that sent it, whatever sender the message names; `commit` is a request that a
collector is done with. -/
inductive CheckpointEvent where
  | message (origin sender : Int) (data : Option CheckPointData)
  | round (reply : Int → ℕ → ℕ → Option (List Request))
  | commit (request : Request)
  | order
  | execute
  | digest

/-- A thread that has to wait leaves everything as it is. -/
def Replica.checkpointStep (D : Deployment) (id : Int) (r : Replica) : CheckpointEvent → Replica
  | .message _ sender data => { r with ckpt := (r.ckpt.processCheckPoint D sender data).1 }
  | .round reply => (D.updateStableCheckPointStatus r reply).getD r
  | .commit request => { r with executor := r.executor.commit request }
  | .order => { r with executor := r.executor.order.getD r.executor }
  | .execute => (D.executeNext r).getD r
  | .digest => ((D.updateCheckPointStatus r id).map Prod.fst).getD r

def checkpointRun (D : Deployment) (id : Int) (events : List CheckpointEvent) : Replica :=
  events.foldl (Replica.checkpointStep D id) {}

namespace CheckpointEvent

/-- The nodes that announced a checkpoint of a sequence number. -/
def announcers (events : List CheckpointEvent) (seq : ℕ) : Finset Int :=
  (events.filterMap (fun
    | .message origin _ (some data) => if data.seq = seq then some origin else none
    | _ => none)).toFinset

/-- The origin sends the message under its own id and has signed the hash itself. -/
def Own : CheckpointEvent → Prop
  | .message origin sender (some data) => sender = origin ∧ data.hashSignature.nodeId = origin
  | _ => True

instance : (e : CheckpointEvent) → Decidable e.Own
  | .message _ _ (some _) => inferInstanceAs (Decidable (_ ∧ _))
  | .message _ _ none => .isTrue trivial
  | .round _ => .isTrue trivial
  | .commit _ => .isTrue trivial
  | .order => .isTrue trivial
  | .execute => .isTrue trivial
  | .digest => .isTrue trivial

theorem announcers_mono {events more : List CheckpointEvent} {seq : ℕ} :
    announcers events seq ⊆ announcers (events ++ more) seq := by
  intro i member
  rw [announcers, List.filterMap_append, List.toFinset_append]
  exact Finset.mem_union_left _ member

theorem mem_announcers_concat (events : List CheckpointEvent) (origin sender : Int)
    (data : CheckPointData) :
    origin ∈ announcers (events ++ [.message origin sender (some data)]) data.seq := by
  rw [announcers, List.filterMap_append, List.toFinset_append]
  refine Finset.mem_union_right _ ?_
  simp

end CheckpointEvent

/-- Everything an event can do to the checkpoints of a replica. -/
inductive CheckpointEffect (D : Deployment) (m : CheckPointManager) :
    CheckpointEvent → CheckPointManager → Prop where
  | same {e : CheckpointEvent} {m' : CheckPointManager} (same : SameVotes m m') :
      CheckpointEffect D m e m'
  | voted {origin sender : Int} {data : CheckPointData}
      (signed : D.crypto.verifyMessage data.hash data.hashSignature = true) :
      CheckpointEffect D m (.message origin sender (some data)) (m.addVote sender data)
  | stabilised {e : CheckpointEvent} {mid m' : CheckPointManager} (before : SameVotes m mid)
      (after : SameVotes (mid.installStable D) m') : CheckpointEffect D m e m'

section Effect
variable {D : Deployment} {id : Int}

theorem checkpointStep_effect (r : Replica) (e : CheckpointEvent) :
    CheckpointEffect D r.ckpt e (r.checkpointStep D id e).ckpt := by
  cases e with
  | message origin sender data =>
      cases data with
      | none => exact .same (.refl _)
      | some data =>
          simp only [Replica.checkpointStep, CheckPointManager.processCheckPoint]
          split_ifs with off unsigned
          · exact .same (.refl _)
          · exact .same (.refl _)
          · exact .voted (Bool.not_eq_false _ ▸ unsigned)
  | round reply =>
      cases done : D.updateStableCheckPointStatus r reply with
      | none =>
          rw [Replica.checkpointStep, done]
          exact .same (.refl _)
      | some r' =>
          obtain ⟨mid, before, after⟩ := updateStable_ckpt done
          rw [Replica.checkpointStep, done]
          exact .stabilised before after
  | commit request => exact .same (.refl _)
  | order => exact .same (.refl _)
  | execute =>
      cases done : D.executeNext r with
      | none =>
          rw [Replica.checkpointStep, done]
          exact .same (.refl _)
      | some r' =>
          obtain ⟨e, next, rfl⟩ := Option.map_eq_some_iff.mp done
          rw [Replica.checkpointStep, done]
          exact .same (.refl _)
  | digest =>
      cases done : D.updateCheckPointStatus r id with
      | none =>
          rw [Replica.checkpointStep, done]
          exact .same (.refl _)
      | some out =>
          rw [Replica.checkpointStep, done]
          exact .same (updateCheckPoint_ckpt done)

theorem Vouched.effect {m m' : CheckPointManager} {e : CheckpointEvent}
    (vouched : Vouched D.crypto m) (effect : CheckpointEffect D m e m') :
    Vouched D.crypto m' := by
  cases effect with
  | same same => exact vouched.of_same same
  | voted signed => exact vouched.addVote _ _ signed
  | stabilised before after => exact (vouched.of_same before).installStable.of_same after

theorem checkpointRun_concat (events : List CheckpointEvent) (e : CheckpointEvent) :
    checkpointRun D id (events ++ [e]) = (checkpointRun D id events).checkpointStep D id e :=
  List.foldl_concat ..

theorem checkpointRun_vouched (events : List CheckpointEvent) :
    Vouched D.crypto (checkpointRun D id events).ckpt := by
  induction events using List.reverseRecOn with
  | nil => exact Vouched.initial D.crypto
  | append_singleton events e ih =>
      rw [checkpointRun_concat]
      exact ih.effect (checkpointStep_effect _ e)

end Effect

theorem signers_of_own {D : Deployment} {m : CheckPointManager} {c : StableCheckPoint}
    (vouched : Vouched D.crypto m) (hash : c.hash = m.stableCkpt.hash)
    (signatures : c.signatures = m.stableCkpt.signatures) :
    c.signers D.crypto = (m.stableCkpt.signatures.map (fun sign => sign.nodeId)).toFinset := by
  have signed : m.stableCkpt.signatures.filter (D.crypto.verifyMessage m.stableCkpt.hash) =
      m.stableCkpt.signatures := List.filter_eq_self.mpr vouched.stable
  rw [StableCheckPoint.signers, Backing.backers, hash, signatures, signed]

/-- Whatever a replica has received, a checkpoint that it accepts is proved by what it carries
if it carries the hash and the signatures of the replica's own stable one. But the replica
accepts every checkpoint as soon as it accepts one with a number above 0. -/
theorem own_checkpoint_proof_sound (D : Deployment) (id : Int) (events : List CheckpointEvent)
    (c : StableCheckPoint)
    (hash : c.hash = (checkpointRun D id events).ckpt.stableCkpt.hash)
    (signatures : c.signatures = (checkpointRun D id events).ckpt.stableCkpt.signatures) :
    (D.isValidCheckpointProof (checkpointRun D id events) c = true → c.Proven D) ∧
      ∀ other : StableCheckPoint, 0 < other.seq →
        D.isValidCheckpointProof (checkpointRun D id events) other = true →
        ∀ any, D.isValidCheckpointProof (checkpointRun D id events) any = true := by
  have vouched : Vouched D.crypto (checkpointRun D id events).ckpt := checkpointRun_vouched events
  simp only [System.isValidCheckpointProof_iff vouched]
  constructor
  · rintro (quorum | ⟨first, none⟩)
    · exact .inl (signers_of_own vouched hash signatures ▸ quorum)
    · exact .inr ⟨first, signatures.trans none⟩
  · rintro other positive (quorum | ⟨first, -⟩) any
    · exact .inl quorum
    · exact absurd first positive.ne'

def sampleAnnounce (origin : Int) (signer : Int) : CheckpointEvent :=
  .message origin origin (some ⟨5, [1], Crypto.sample.signMessage signer [1]⟩)

/-- Three nodes announce the checkpoint 5 as they should, and it becomes stable. -/
def sampleStable : List CheckpointEvent :=
  [sampleAnnounce 1 1, sampleAnnounce 2 2, sampleAnnounce 3 3, .round (fun _ _ _ => none)]

theorem sampleStable_proven :
    (checkpointRun sampleDeployment 1 sampleStable).ckpt.stableCkpt.seq = 5 ∧
      (checkpointRun sampleDeployment 1 sampleStable).ckpt.stableCkpt.Proven sampleDeployment := by
  refine ⟨by decide +kernel, ?_⟩
  exact (own_checkpoint_proof_sound sampleDeployment 1 sampleStable _ rfl rfl).1 (by decide +kernel)

def forgedCheckpoint : StableCheckPoint where
  seq := 1000
  hash := [9]

theorem forged_checkpoint_accepted :
    (∀ e ∈ sampleStable, e.Own) ∧
      (checkpointRun sampleDeployment 1 sampleStable).ckpt.stableCkpt.seq = 5 ∧
      sampleDeployment.isValidCheckpointProof (checkpointRun sampleDeployment 1 sampleStable)
        forgedCheckpoint = true ∧
      ¬ forgedCheckpoint.Proven sampleDeployment := by
  decide +kernel

/-- The senders of the votes are nodes that have signed the hash and announced the number. -/
structure Attributed (D : Deployment) (events : List CheckpointEvent) (m : CheckPointManager) :
    Prop where
  votes : ∀ entry ∈ m.votes.entries, entry.2.senders ⊆
    StableCheckPoint.signers D.crypto ⟨entry.2.seq, entry.2.hash, entry.2.signatures⟩ ∩
      CheckpointEvent.announcers events entry.2.seq
  stable : 0 < m.stableCkpt.seq → D.quorum ≤ (m.stableCkpt.signers D.crypto ∩
    CheckpointEvent.announcers events m.stableCkpt.seq).card

namespace Attributed
variable {D : Deployment} {events : List CheckpointEvent} {m m' : CheckPointManager}

theorem of_same (attributed : Attributed D events m) (same : SameVotes m m') :
    Attributed D events m' where
  votes := same.votes ▸ attributed.votes
  stable := same.stableCkpt ▸ attributed.stable

theorem mono (attributed : Attributed D events m) (e : CheckpointEvent) :
    Attributed D (events ++ [e]) m where
  votes := fun entry member => (attributed.votes entry member).trans
    (Finset.inter_subset_inter_left CheckpointEvent.announcers_mono)
  stable := fun positive => (attributed.stable positive).trans
    (Finset.card_le_card (Finset.inter_subset_inter_left CheckpointEvent.announcers_mono))

theorem votesFor (attributed : Attributed D events m) (vouched : Vouched D.crypto m) (seq : ℕ)
    (hash : Bytes) :
    (m.votesFor seq hash).senders ⊆
      StableCheckPoint.signers D.crypto ⟨seq, hash, (m.votesFor seq hash).signatures⟩ ∩
        CheckpointEvent.announcers events seq := by
  obtain ⟨number, bytes, -⟩ := vouched.votesFor_spec seq hash
  revert number bytes
  unfold CheckPointManager.votesFor
  cases found : m.votes.entries.find? (fun entry => entry.1 = CheckPointManager.key seq hash) with
  | none => exact fun _ _ => Finset.empty_subset _
  | some entry =>
      intro number bytes
      have known := attributed.votes entry (List.mem_of_find?_eq_some found)
      simp only [Option.map_some, Option.getD_some] at number bytes ⊢
      rwa [number, bytes] at known

theorem addVote (attributed : Attributed D events m) (vouched : Vouched D.crypto m) {origin : Int}
    {data : CheckPointData} (own : data.hashSignature.nodeId = origin)
    (signed : D.crypto.verifyMessage data.hash data.hashSignature = true) :
    Attributed D (events ++ [.message origin origin (some data)]) (m.addVote origin data) := by
  have later := attributed.mono (.message origin origin (some data))
  have before := later.votesFor vouched data.seq data.hash
  obtain ⟨number, bytes, -⟩ := vouched.votesFor_spec data.seq data.hash
  refine ⟨fun entry member => ?_, later.stable⟩
  rcases (SortedMap.mem_set _ _ _ _).mp member with new | ⟨old, -⟩
  · subst new
    dsimp only
    unfold CheckPointVotes.add
    split_ifs with counted
    · rwa [number, bytes]
    · simp only [number, bytes, StableCheckPoint.signers, Backing.backers_concat, if_pos signed,
        own]
      refine Finset.insert_subset ?_ (before.trans ?_)
      · exact Finset.mem_inter.mpr ⟨Finset.mem_insert_self _ _,
          CheckpointEvent.mem_announcers_concat _ _ _ _⟩
      · exact Finset.inter_subset_inter_right (Finset.subset_insert _ _)
  · exact later.votes entry old

theorem installStable (attributed : Attributed D events m) :
    Attributed D events (m.installStable D) := by
  unfold CheckPointManager.installStable
  split
  · exact attributed
  · rename_i votes found
    split_ifs
    · have member : votes ∈ m.votes.entries.map Prod.snd :=
        List.mem_reverse.mp (List.mem_of_find?_eq_some found)
      obtain ⟨entry, inside, rfl⟩ := List.mem_map.mp member
      have enough : D.quorum ≤ entry.2.senders.card := by simpa using List.find?_some found
      refine ⟨fun entry kept => attributed.votes entry (List.mem_filter.mp kept).1, fun _ => ?_⟩
      exact enough.trans (Finset.card_le_card (attributed.votes entry inside))
    · exact attributed

end Attributed

theorem installStable_rises (D : Deployment) (m : CheckPointManager) :
    m.currentStableSeq ≤ (m.installStable D).currentStableSeq := by
  unfold CheckPointManager.installStable
  split
  · exact le_rfl
  · split_ifs with higher
    · exact higher.le
    · exact le_rfl

theorem CheckpointEffect.rises {D : Deployment} {m m' : CheckPointManager} {e : CheckpointEvent}
    (effect : CheckpointEffect D m e m') : m.currentStableSeq ≤ m'.currentStableSeq := by
  cases effect with
  | same same => exact same.currentStableSeq.ge
  | voted signed => exact le_rfl
  | stabilised before after =>
      rw [after.currentStableSeq, ← before.currentStableSeq]
      exact installStable_rises D _

theorem Attributed.effect {D : Deployment} {events : List CheckpointEvent}
    {m m' : CheckPointManager} {e : CheckpointEvent} (attributed : Attributed D events m)
    (vouched : Vouched D.crypto m) (own : e.Own) (effect : CheckpointEffect D m e m') :
    Attributed D (events ++ [e]) m' := by
  cases effect with
  | same same => exact (attributed.mono e).of_same same
  | voted signed =>
      obtain ⟨rfl, signer⟩ := own
      exact attributed.addVote vouched signer signed
  | stabilised before after =>
      exact ((attributed.mono e).of_same before).installStable.of_same after

theorem checkpointRun_attributed {D : Deployment} {id : Int} {events : List CheckpointEvent}
    (own : ∀ e ∈ events, e.Own) : Attributed D events (checkpointRun D id events).ckpt := by
  induction events using List.reverseRecOn with
  | nil =>
      exact ⟨fun _ member => absurd member List.not_mem_nil,
        fun positive => absurd positive (lt_irrefl 0)⟩
  | append_singleton events e ih =>
      have before := ih (fun e member => own e (List.mem_append_left _ member))
      rw [checkpointRun_concat]
      exact before.effect (checkpointRun_vouched events) (own e (by simp))
        (checkpointStep_effect _ e)

/-- The number of the stable checkpoint never decreases. If every message is sent by a node
under its own id and with its own signature, as the honest ones are, then in every state on
the way a quorum of nodes has signed the stable checkpoint and announced its number. -/
theorem stable_checkpoint_backed (D : Deployment) (id : Int) (events : List CheckpointEvent) :
    Run.Rises (Replica.checkpointStep D id) {} (fun r => r.ckpt.currentStableSeq) events ∧
      ((∀ e ∈ events, e.Own) → ∀ made, made <+: events →
        0 < (checkpointRun D id made).ckpt.stableCkpt.seq →
        D.quorum ≤ ((checkpointRun D id made).ckpt.stableCkpt.signers D.crypto ∩
          CheckpointEvent.announcers made (checkpointRun D id made).ckpt.stableCkpt.seq).card) := by
  refine ⟨Run.rises_iff_steps.mpr (fun _ e _ =>
    (checkpointStep_effect _ e).rises), ?_⟩
  intro own made inside positive
  exact (checkpointRun_attributed (fun e member => own e (inside.subset member))).stable positive

theorem sampleStable_backed :
    0 < (checkpointRun sampleDeployment 1 sampleStable).ckpt.stableCkpt.seq ∧
      sampleDeployment.quorum ≤
        ((checkpointRun sampleDeployment 1 sampleStable).ckpt.stableCkpt.signers .sample ∩
          CheckpointEvent.announcers sampleStable
            (checkpointRun sampleDeployment 1 sampleStable).ckpt.stableCkpt.seq).card := by
  have positive : 0 < (checkpointRun sampleDeployment 1 sampleStable).ckpt.stableCkpt.seq := by
    decide +kernel
  exact ⟨positive, (stable_checkpoint_backed sampleDeployment 1 sampleStable).2
    (by decide +kernel) sampleStable (List.prefix_refl _) positive⟩

/-- Node 4 sends the signature of node 1 under its own id. -/
def sampleCopied : List CheckpointEvent :=
  [sampleAnnounce 1 1, sampleAnnounce 2 2, sampleAnnounce 4 1, .round (fun _ _ _ => none)]

/-- Node 4 sends the three signatures of the checkpoint 5 once more, for the number 10 and
under the ids of the nodes that made them. -/
def sampleRenumbered : List CheckpointEvent :=
  [sampleAnnounce 1 1, sampleAnnounce 2 2, sampleAnnounce 3 3] ++
    ([1, 2, 3].map (fun i => .message 4 i (some ⟨10, [1], Crypto.sample.signMessage i [1]⟩))) ++
    [.round (fun _ _ _ => none)]

/-- One Byzantine node of four makes a checkpoint stable that two nodes have signed, or one
that nobody else has announced. -/
theorem unbacked_checkpoint_stable :
    (checkpointRun sampleDeployment 1 sampleCopied).ckpt.stableCkpt.seq = 5 ∧
      (checkpointRun sampleDeployment 1 sampleCopied).ckpt.stableCkpt.signers .sample = {1, 2} ∧
      (checkpointRun sampleDeployment 1 sampleRenumbered).ckpt.stableCkpt.seq = 10 ∧
      CheckpointEvent.announcers sampleRenumbered 10 = {4} ∧ sampleDeployment.quorum = 3 := by
  decide +kernel

end ResDB.Pbft
