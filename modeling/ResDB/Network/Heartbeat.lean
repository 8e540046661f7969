import Mathlib.Tactic
import ResDB.Common.Crypto
import ResDB.Library.Run
import ResDB.Library.SortedMap

/-! How the nodes come to know each other's keys. A node starts with its own key. Heartbeats carry
all keys that a node has, each with the certificate of the administrator, and `AddPublicKey` takes
in those whose certificate is valid. The other modules have one table of keys for all nodes; here
each node has its own, and the tables are shown to be parts of that one. -/
namespace ResDB.Network

inductive KeyType where
  | replica
  | client
  deriving DecidableEq

structure CertificateKeyInfo where
  key : KeyInfo
  nodeId : Int
  type : KeyType := .replica
  ip : Bytes := []
  port : Int := 0
  deriving DecidableEq

structure CertificateKey where
  publicKeyInfo : CertificateKeyInfo
  certificate : SignatureInfo
  deriving DecidableEq

structure HeartBeatInfo where
  publicKeys : List CertificateKey := []
  primary : ℕ := 0
  version : ℕ := 0
  deriving DecidableEq

/-- A message of type `TYPE_HEART_BEAT`, signed or not. -/
structure Beat where
  regionId : ℕ
  info : HeartBeatInfo
  signature : Option SignatureInfo := none
  deriving DecidableEq

structure ReplicaInfo where
  id : Int
  ip : Bytes
  port : Int
  deriving DecidableEq

structure NodeConfig where
  own : CertificateKey
  selfRegionId : ℕ
  minDataReceiveNum : ℕ

/-- What a node keeps: `keys_` of its verifier, `clients_`, `is_ready_` and the primary and view of
its `SystemInfo`. -/
structure Node where
  keys : SortedMap Int CertificateKey := ∅
  clients : List ReplicaInfo := []
  isReady : Bool := false
  primary : ℕ := 1
  currentView : ℕ := 1

/-- The key of the administrator and the serialisations that are signed. -/
structure Directory where
  crypto : Crypto
  adminPublicKey : KeyInfo
  keyInfo : CertificateKeyInfo → Bytes
  beat : ℕ → HeartBeatInfo → Bytes

namespace Directory
variable (D : Directory)

def verifyKey (key : CertificateKey) : Bool :=
  D.crypto.verifyWithKey (D.keyInfo key.publicKeyInfo) D.adminPublicKey key.certificate.signature

end Directory

namespace Node
variable (D : Directory) (cfg : NodeConfig) (node : Node)

def publicKey (id : Int) : Option KeyInfo := (node.keys.find id).map (fun k => k.publicKeyInfo.key)

/-- The primitives with the keys that this node has, so that `verifyMessage` is its
`VerifyMessage`. -/
def crypto : Crypto := { D.crypto with keys := node.publicKey }

/-- `AddPublicKey`, whether or not a certificate is asked for. -/
def addPublicKey (key : CertificateKey) (needVerify : Bool) : Bool × Node :=
  if needVerify && !D.verifyKey key then (false, node)
  else (true, { node with keys := node.keys.set key.publicKeyInfo.nodeId key })

def start : Node := (addPublicKey D {} cfg.own false).2

def replicaExisted (info : ReplicaInfo) (replicas : List ReplicaInfo) : Bool :=
  replicas.any (fun r => r.id = info.id)

def addNewClient (info : ReplicaInfo) : Node := { node with clients := node.clients ++ [info] }

/-- One turn of the loop over the keys of a heartbeat, with the replicas counted so far. -/
def takeKey (regionId : ℕ) (state : Node × ℕ) (key : CertificateKey) : Node × ℕ :=
  match state.1.addPublicKey D key true with
  | (false, _) => state
  | (true, node) =>
      if regionId ≠ cfg.selfRegionId then (node, state.2)
      else
        let info : ReplicaInfo :=
          ⟨key.publicKeyInfo.nodeId, key.publicKeyInfo.ip, key.publicKeyInfo.port⟩
        if info.ip.isEmpty then (node, state.2)
        else
          match key.publicKeyInfo.type with
          | .replica => (node, state.2 + 1)
          | .client =>
              if replicaExisted info node.clients then (node, state.2)
              else (node.addNewClient info, state.2)

/-- `SetPrimary` of PBFT. -/
def setPrimary (primary version : ℕ) : Node :=
  if node.currentView < version then { node with currentView := version, primary := primary }
  else node

def told (beat : Beat) : Node :=
  if beat.regionId = cfg.selfRegionId ∧ cfg.own.publicKeyInfo.type = .client then
    node.setPrimary beat.info.primary beat.info.version
  else node

/-- The end of `ProcessHeartBeat`, with the number of replicas in the heartbeat. -/
def getReady (replicaNum : ℕ) : Node :=
  if !node.isReady && cfg.minDataReceiveNum ≤ replicaNum then { node with isReady := true }
  else node

def processHeartBeat (beat : Beat) : Node :=
  let taken := beat.info.publicKeys.foldl (takeKey D cfg beat.regionId) (node.told cfg beat, 0)
  taken.1.getReady cfg taken.2

/-- `Process` for a heartbeat: a signature that is there has to be valid. -/
def process (beat : Beat) : Node :=
  match beat.signature with
  | none => node.processHeartBeat D cfg beat
  | some signature =>
      if (node.crypto D).verifyMessage (D.beat beat.regionId beat.info) signature then
        node.processHeartBeat D cfg beat
      else node

def heartBeat : Beat where
  regionId := cfg.selfRegionId
  info :=
    match cfg.own.publicKeyInfo.type with
    | .replica => ⟨node.keys.entries.map Prod.snd, node.primary, node.currentView⟩
    | .client => ⟨node.keys.entries.map Prod.snd, 0, 0⟩

end Node

structure Beating where
  nodes : ℕ → Node
  network : List Beat := []

inductive BeatAction where
  | heartBeat (node : ℕ)
  | inject (beat : Beat)
  | deliver (place node : ℕ)

namespace Beating
variable (D : Directory) (cfg : ℕ → NodeConfig)

def start : Beating where
  nodes i := Node.start D (cfg i)

/-- A heartbeat may be delivered at any time, again and again or never, and anybody may send one
with anything in it. -/
def step (s : Beating) : BeatAction → Option Beating
  | .heartBeat i => some { s with network := s.network ++ [(s.nodes i).heartBeat (cfg i)] }
  | .inject beat => some { s with network := s.network ++ [beat] }
  | .deliver place i => s.network[place]?.map (fun beat =>
      { s with nodes := Function.update s.nodes i ((s.nodes i).process D (cfg i) beat) })

end Beating

/-- The certificate is valid, and the key is the one that the administrator gave it for. -/
def Directory.Certified (D : Directory) (key : CertificateKey) : Prop :=
  D.verifyKey key = true ∧ D.crypto.keys key.publicKeyInfo.nodeId = some key.publicKeyInfo.key

/-- Nobody has a certificate of the administrator for another key than the one it was given for. -/
def Directory.Unforged (D : Directory) : BeatAction → Prop
  | .heartBeat _ | .deliver _ _ => True
  | .inject beat => ∀ key ∈ beat.info.publicKeys, D.verifyKey key = true → D.Certified key

namespace Node
variable {D : Directory} {cfg : NodeConfig} {node : Node}

def absorb (D : Directory) (keys : SortedMap Int CertificateKey) (key : CertificateKey) :
    SortedMap Int CertificateKey :=
  if D.verifyKey key then keys.set key.publicKeyInfo.nodeId key else keys

theorem takeKey_keys (D : Directory) (cfg : NodeConfig) (regionId : ℕ) (state : Node × ℕ)
    (key : CertificateKey) :
    (takeKey D cfg regionId state key).1.keys = absorb D state.1.keys key := by
  rw [takeKey, addPublicKey, absorb]
  cases valid : D.verifyKey key with
  | false => rfl
  | true =>
      simp only [Bool.true_and, Bool.not_true, Bool.false_eq_true, if_false, if_true]
      repeat' split
      all_goals rfl

theorem told_keys (cfg : NodeConfig) (node : Node) (beat : Beat) :
    (node.told cfg beat).keys = node.keys := by
  rw [told, setPrimary]
  repeat' split
  all_goals rfl

theorem processHeartBeat_keys (D : Directory) (cfg : NodeConfig) (node : Node) (beat : Beat) :
    (node.processHeartBeat D cfg beat).keys =
      beat.info.publicKeys.foldl (absorb D) node.keys := by
  have taken : (beat.info.publicKeys.foldl (takeKey D cfg beat.regionId)
      (node.told cfg beat, 0)).1.keys =
        beat.info.publicKeys.foldl (absorb D) (node.told cfg beat).keys :=
    (List.foldl_hom (fun state : Node × ℕ => state.1.keys)
      (fun state key => (takeKey_keys D cfg beat.regionId state key).symm)).symm
  rw [← told_keys cfg node beat, ← taken, processHeartBeat, getReady]
  split <;> rfl

theorem process_keys (D : Directory) (cfg : NodeConfig) (node : Node) (beat : Beat) :
    (node.process D cfg beat).keys = node.keys ∨
      (node.process D cfg beat).keys = beat.info.publicKeys.foldl (absorb D) node.keys := by
  rw [process]
  split
  · exact .inr (processHeartBeat_keys D cfg node beat)
  · split
    · exact .inr (processHeartBeat_keys D cfg node beat)
    · exact .inl rfl

def Trusted (D : Directory) (keys : SortedMap Int CertificateKey) : Prop :=
  ∀ e ∈ keys.entries, e.1 = e.2.publicKeyInfo.nodeId ∧ D.Certified e.2

def Knows (keys : SortedMap Int CertificateKey) (id : Int) : Prop := (keys.find id).isSome

theorem trusted_absorb {keys : SortedMap Int CertificateKey} {key : CertificateKey}
    (trusted : Trusted D keys) (honest : D.verifyKey key = true → D.Certified key) :
    Trusted D (absorb D keys key) := by
  rw [absorb]
  split
  · next valid =>
      intro e member
      rcases (keys.mem_set _ key e).mp member with rfl | ⟨old, -⟩
      · exact ⟨rfl, honest valid⟩
      · exact trusted e old
  · exact trusted

theorem knows_absorb {keys : SortedMap Int CertificateKey} {key : CertificateKey} {id : Int}
    (knows : Knows keys id) : Knows (absorb D keys key) id := by
  rw [absorb]
  split
  · rw [Knows, SortedMap.find_set]
    split
    · rfl
    · exact knows
  · exact knows

theorem trusted_process {beat : Beat} (trusted : Trusted D node.keys)
    (honest : ∀ key ∈ beat.info.publicKeys, D.verifyKey key = true → D.Certified key) :
    Trusted D (node.process D cfg beat).keys := by
  rcases process_keys D cfg node beat with same | taken
  · rwa [same]
  · rw [taken]
    exact List.foldlRecOn _ _ trusted
      (fun keys kept key member => trusted_absorb kept (honest key member))

theorem knows_process {beat : Beat} {id : Int} (knows : Knows node.keys id) :
    Knows (node.process D cfg beat).keys id := by
  rcases process_keys D cfg node beat with same | taken
  · rwa [same]
  · rw [taken]
    exact List.foldlRecOn (motive := fun keys => Knows keys id) _ _ knows
      (fun _ kept _ _ => knows_absorb kept)

theorem knows_process_of_mem {beat : Beat} {key : CertificateKey} (plain : beat.signature = none)
    (member : key ∈ beat.info.publicKeys) (valid : D.verifyKey key = true) :
    Knows (node.process D cfg beat).keys key.publicKeyInfo.nodeId := by
  rw [process, plain]
  dsimp only
  rw [processHeartBeat_keys]
  obtain ⟨before, after, split⟩ := List.append_of_mem member
  rw [split, List.foldl_append, List.foldl_cons]
  refine List.foldlRecOn (motive := fun keys => Knows keys key.publicKeyInfo.nodeId) _ _ ?_
    (fun _ kept _ _ => knows_absorb kept)
  rw [absorb, if_pos valid, Knows, SortedMap.find_set, if_pos rfl]
  rfl

theorem publicKeys_heartBeat (cfg : NodeConfig) (node : Node) :
    (node.heartBeat cfg).info.publicKeys = node.keys.entries.map Prod.snd := by
  rw [heartBeat]
  dsimp only
  split <;> rfl

theorem Trusted.publicKey {id : Int} {key : KeyInfo} (trusted : Trusted D node.keys)
    (found : node.publicKey id = some key) : D.crypto.keys id = some key := by
  obtain ⟨entry, there, rfl⟩ := Option.map_eq_some_iff.mp found
  obtain ⟨same, -, issued⟩ := trusted _ ((node.keys.find_eq_some_iff).mp there)
  rw [← same] at issued
  exact issued

theorem Trusted.verifyMessage {message : Bytes} {signature : SignatureInfo}
    (trusted : Trusted D node.keys) (knows : Knows node.keys signature.nodeId) :
    (node.crypto D).verifyMessage message signature = D.crypto.verifyMessage message signature := by
  obtain ⟨entry, found⟩ := Option.isSome_iff_exists.mp knows
  have mine : node.publicKey signature.nodeId = some entry.publicKeyInfo.key := by
    rw [Node.publicKey, found]
    rfl
  rw [Crypto.verifyMessage, Crypto.verifyMessage, trusted.publicKey mine,
    show (node.crypto D).keys signature.nodeId = some entry.publicKeyInfo.key from mine]
  rfl

theorem verifyMessage_unknown {message : Bytes} {signature : SignatureInfo}
    (unknown : ¬ Knows node.keys signature.nodeId) :
    (node.crypto D).verifyMessage message signature = false := by
  have none : node.publicKey signature.nodeId = none := by
    rw [Node.publicKey, Option.not_isSome_iff_eq_none.mp unknown]
    rfl
  rw [Crypto.verifyMessage,
    show (node.crypto D).keys signature.nodeId = Option.none from none]
  split <;> rfl

end Node

namespace Beating
variable {D : Directory} {cfg : ℕ → NodeConfig} {s s' : Beating}

/-- All tables are parts of that of the administrator, and no heartbeat forges a certificate. -/
structure Sound (D : Directory) (s : Beating) : Prop where
  nodes : ∀ i, Node.Trusted D (s.nodes i).keys
  network : ∀ beat ∈ s.network, ∀ key ∈ beat.info.publicKeys,
    D.verifyKey key = true → D.Certified key

theorem sound_start (own : ∀ i, D.Certified (cfg i).own) : Sound D (start D cfg) := by
  refine ⟨fun i e member => ?_, fun beat member => absurd member List.not_mem_nil⟩
  have entry : e = ((cfg i).own.publicKeyInfo.nodeId, (cfg i).own) := by
    rcases (SortedMap.mem_set ∅ _ _ e).mp member with here | ⟨old, -⟩
    · exact here
    · cases old
  rw [entry]
  exact ⟨rfl, own i⟩

theorem Sound.send (sound : Sound D s) {beat : Beat}
    (honest : ∀ key ∈ beat.info.publicKeys, D.verifyKey key = true → D.Certified key) :
    Sound D { s with network := s.network ++ [beat] } := by
  refine ⟨sound.nodes, fun other member => ?_⟩
  rcases List.mem_append.mp member with old | new
  · exact sound.network other old
  · cases List.mem_singleton.mp new
    exact honest

theorem Sound.step (sound : Sound D s) {a : BeatAction} (unforged : D.Unforged a)
    (taken : s.step D cfg a = some s') : Sound D s' := by
  cases a with
  | heartBeat i =>
      cases taken
      refine sound.send (fun key carried _ => ?_)
      rw [Node.publicKeys_heartBeat] at carried
      obtain ⟨e, inside, rfl⟩ := List.mem_map.mp carried
      exact (sound.nodes i e inside).2
  | inject beat =>
      cases taken
      exact sound.send unforged
  | deliver place i =>
      obtain ⟨beat, found, rfl⟩ := Option.map_eq_some_iff.mp taken
      refine ⟨fun j => ?_, sound.network⟩
      by_cases here : j = i
      · subst here
        dsimp only
        rw [Function.update_self]
        exact Node.trusted_process (sound.nodes j)
          (sound.network beat (List.mem_of_getElem? found))
      · dsimp only
        rw [Function.update_of_ne here]
        exact sound.nodes j

/-- Nothing known is forgotten, and what was sent stays where it is. -/
structure Grows (s s' : Beating) : Prop where
  knows : ∀ i id, Node.Knows (s.nodes i).keys id → Node.Knows (s'.nodes i).keys id
  network : ∀ (place : ℕ) (beat : Beat), s.network[place]? = some beat →
    s'.network[place]? = some beat

theorem grows_step {a : BeatAction} (taken : s.step D cfg a = some s') : Grows s s' := by
  have kept : ∀ (more : List Beat) (place : ℕ) beat, s.network[place]? = some beat →
      (s.network ++ more)[place]? = some beat := by
    intro more place beat found
    obtain ⟨inside, -⟩ := List.getElem?_eq_some_iff.mp found
    rw [List.getElem?_append_left inside]
    exact found
  cases a with
  | heartBeat i | inject beat =>
      cases taken
      exact ⟨fun _ _ knows => knows, kept _⟩
  | deliver place i =>
      obtain ⟨beat, found, rfl⟩ := Option.map_eq_some_iff.mp taken
      refine ⟨fun j id knows => ?_, fun _ _ there => there⟩
      by_cases here : j = i
      · subst here
        dsimp only
        rw [Function.update_self]
        exact Node.knows_process knows
      · dsimp only
        rw [Function.update_of_ne here]
        exact knows

theorem Grows.trans {t : Beating} (first : Grows s s') (second : Grows s' t) : Grows s t where
  knows i id known := second.knows i id (first.knows i id known)
  network place beat found := second.network place beat (first.network place beat found)

theorem grows_of_run {actions : List BeatAction}
    (ran : Run.exec (Beating.step D cfg) s actions = some s') : Grows s s' :=
  Run.exec_invariant_always
    (fun _ _ _ (grown : Grows s _) taken => grown.trans (grows_step taken))
    ⟨fun _ _ knows => knows, fun _ _ found => found⟩ ran

/-- Whoever sends which heartbeats in whatever order: a node that knows the signer decides about a
signature as the administrator's table does, and a node that does not know the signer refuses; and
once a heartbeat of a node has been delivered, however late, the receiver knows all that the sender
knew when it sent it. -/
theorem key_tables_refine_issued {before after : List BeatAction} {t : Beating}
    (own : ∀ i, D.Certified (cfg i).own)
    (unforged : ∀ a ∈ before ++ after, D.Unforged a)
    (ran : Run.exec (Beating.step D cfg) (start D cfg) before = some s)
    (sender : ℕ) (later : Run.exec (Beating.step D cfg) s (.heartBeat sender :: after) = some t) :
    (∀ i message signature, Node.Knows (t.nodes i).keys signature.nodeId →
      ((t.nodes i).crypto D).verifyMessage message signature =
        D.crypto.verifyMessage message signature) ∧
    (∀ i message signature, ¬ Node.Knows (t.nodes i).keys signature.nodeId →
      ((t.nodes i).crypto D).verifyMessage message signature = false) ∧
    ∀ receiver, ∃ t', t.step D cfg (.deliver s.network.length receiver) = some t' ∧
      ∀ id, Node.Knows (s.nodes sender).keys id → Node.Knows (t'.nodes receiver).keys id := by
  have keep : ∀ r (a : BeatAction) r', Sound D r → D.Unforged a → r.step D cfg a = some r' →
      Sound D r' := fun _ _ _ sound honest taken => sound.step honest taken
  have first : Sound D s := Run.exec_invariant_of_forall keep (sound_start own)
    (fun a member => unforged a (List.mem_append_left _ member)) ran
  have sound : Sound D t := by
    refine Run.exec_invariant_of_forall keep first (fun a member => ?_) later
    rcases List.mem_cons.mp member with rfl | rest
    · trivial
    · exact unforged a (List.mem_append_right _ rest)
  refine ⟨fun i message signature knows => (sound.nodes i).verifyMessage knows,
    fun i message signature unknown => Node.verifyMessage_unknown unknown, fun receiver => ?_⟩
  obtain ⟨mid, sent, rest⟩ := Run.exec_cons_some later
  cases sent
  have there : t.network[s.network.length]? = some ((s.nodes sender).heartBeat (cfg sender)) := by
    refine (grows_of_run rest).network _ _ ?_
    exact List.getElem?_concat_length
  refine ⟨_, by rw [Beating.step, there]; rfl, fun id knows => ?_⟩
  obtain ⟨key, found⟩ := Option.isSome_iff_exists.mp knows
  have entry := (SortedMap.find_eq_some_iff _).mp found
  obtain ⟨same, valid, -⟩ := first.nodes sender _ entry
  dsimp only
  rw [Function.update_self, show id = key.publicKeyInfo.nodeId from same]
  refine Node.knows_process_of_mem rfl ?_ valid
  rw [Node.publicKeys_heartBeat]
  exact List.mem_map_of_mem entry

/-- The administrator's key is 9, and a certificate is that byte before the key. -/
def sampleDirectory : Directory where
  crypto := Crypto.sample
  adminPublicKey := ⟨[9], .ed25519⟩
  keyInfo info := info.key.key
  beat _ info := info.publicKeys.flatMap (fun k => k.publicKeyInfo.key.key)

def sampleNode (i : ℕ) : NodeConfig where
  own := ⟨{ key := ⟨[UInt8.ofNat i], .ed25519⟩, nodeId := i, ip := [1] },
    { signature := [9, UInt8.ofNat i] }⟩
  selfRegionId := 1
  minDataReceiveNum := 3

def forgedBeat : Beat where
  regionId := 1
  info := { publicKeys := [⟨{ key := ⟨[7], .ed25519⟩, nodeId := 1 }, { signature := [7, 7] }⟩] }

theorem key_tables_refine_issued_sample : ∃ s t t',
    Run.exec (Beating.step sampleDirectory sampleNode) (start sampleDirectory sampleNode)
      [.inject forgedBeat, .deliver 0 2] = some s ∧
    Run.exec (Beating.step sampleDirectory sampleNode) s [.heartBeat 1, .deliver 0 1] = some t ∧
    t.step sampleDirectory sampleNode (.deliver 1 2) = some t' ∧
    Node.Knows (t'.nodes 2).keys 1 := by
  have own : ∀ i, sampleDirectory.Certified (sampleNode i).own := by
    intro i
    exact ⟨by simp [Directory.verifyKey, Crypto.verifyWithKey, sampleDirectory, sampleNode,
      Crypto.sample], by simp [sampleDirectory, sampleNode, Crypto.sample]⟩
  have unforged : ∀ a ∈ [.inject forgedBeat, .deliver 0 2] ++ [.deliver 0 1],
      sampleDirectory.Unforged a := by
    intro a member
    rcases List.mem_cons.mp member with rfl | other
    · intro key inside valid
      cases List.mem_singleton.mp inside
      exact absurd valid (by decide)
    · rcases List.mem_cons.mp other with rfl | last
      · trivial
      · cases List.mem_singleton.mp last
        trivial
  obtain ⟨t', delivered, knows⟩ := (key_tables_refine_issued own unforged rfl 1 rfl).2.2 2
  exact ⟨_, _, t', rfl, rfl, delivered, knows 1 rfl⟩

end Beating
end ResDB.Network
