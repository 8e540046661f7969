import Mathlib.Tactic
import ResDB.Library.Run
import ResDB.HotStuff.ViewReplica

/-! All replicas of a protocol without slots with the messages between them. As with the
slotted protocols a message stays in the network once it is sent, and Byzantine replicas
send what they like, short of forging the signature of an honest one. -/
namespace ResDB.HotStuff

/-- `broadcasts` and `voted` are history: the proposals made by `AsyncSend`, and the votes
cast by the replicas that run the code. -/
structure ViewSystem where
  replica : Int → ViewReplica := fun _ => {}
  network : List Envelope := []
  broadcasts : List Proposal := []
  voted : List (Int × Proposal) := []

inductive ViewAction where
  | transaction (id : Int) (now : ℕ) (txn : Transaction)
  | send (id : Int) (now : ℕ)
  | deliver (e : Envelope)
  | inject (e : Envelope)

namespace ViewSystem
variable (P : ViewProtocol)

def Honest (byz : Finset Int) (id : Int) : Prop := 1 ≤ id ∧ id ≤ P.totalNum ∧ id ∉ byz

instance (byz : Finset Int) (id : Int) : Decidable (Honest P byz id) :=
  inferInstanceAs (Decidable (_ ∧ _ ∧ _))

/-- The replica has signed the hash, which it does only when it votes. -/
def Signed (s : ViewSystem) (id : Int) (hash : Bytes) : Prop :=
  ∃ vote ∈ s.voted, vote.1 = id ∧ vote.2.hash = hash

instance (s : ViewSystem) (id : Int) (hash : Bytes) : Decidable (s.Signed id hash) :=
  inferInstanceAs (Decidable (∃ vote ∈ s.voted, _))

/-- A signature that verifies under an honest replica's key was made by that replica. -/
def Genuine (byz : Finset Int) (s : ViewSystem) (hash : Bytes) (sign : SignatureInfo) : Prop :=
  P.crypto.verifyMessage hash sign = true → Honest P byz sign.nodeId →
    s.Signed sign.nodeId hash

instance (byz : Finset Int) (s : ViewSystem) (hash : Bytes) (sign : SignatureInfo) :
    Decidable (s.Genuine P byz hash sign) :=
  inferInstanceAs (Decidable (_ → _ → _))

def GenuineQC (byz : Finset Int) (s : ViewSystem) (qc : QC) : Prop :=
  ∀ sign ∈ qc.signatures, s.Genuine P byz qc.hash sign

instance (byz : Finset Int) (s : ViewSystem) (qc : QC) : Decidable (s.GenuineQC P byz qc) :=
  inferInstanceAs (Decidable (∀ sign ∈ qc.signatures, _))

def Unforged (byz : Finset Int) (s : ViewSystem) : Message → Prop
  | .newProposal p => s.GenuineQC P byz p.header.qc
  | .vote cert => s.Genuine P byz cert.hash cert.sign

instance (byz : Finset Int) (s : ViewSystem) : (m : Message) → Decidable (s.Unforged P byz m)
  | .newProposal p => inferInstanceAs (Decidable (s.GenuineQC P byz p.header.qc))
  | .vote cert => inferInstanceAs (Decidable (s.Genuine P byz cert.hash cert.sign))

def set (s : ViewSystem) (id : Int) (r : ViewReplica) : ViewSystem :=
  { s with replica := Function.update s.replica id r }

def deliver (s : ViewSystem) (e : Envelope) : ViewSystem :=
  match e.message with
  | .newProposal p =>
      let (r, votes) := P.receiveProposal e.nodeId (s.replica e.nodeId) p
      { s.set e.nodeId r with
        network := s.network ++ votes
        voted := s.voted ++
          if P.verify (s.replica e.nodeId).manager p then [(e.nodeId, p)] else [] }
  | .vote cert => s.set e.nodeId (P.receiveCertificate e.nodeId (s.replica e.nodeId) cert)

def step (byz : Finset Int) (s : ViewSystem) : ViewAction → Option ViewSystem
  | .transaction id now txn =>
      if Honest P byz id then some (s.set id ((s.replica id).receiveTransaction id now txn))
      else none
  | .send id now =>
      if Honest P byz id then
        match P.asyncSend id (s.replica id) now with
        | none => none
        | some (r, made, sent) =>
            some { s.set id r with
              network := s.network ++ sent
              broadcasts := s.broadcasts ++ made }
      else none
  | .deliver e => if Honest P byz e.nodeId ∧ e ∈ s.network then some (s.deliver P e) else none
  | .inject e =>
      if byz.Nonempty ∧ s.Unforged P byz e.message then
        some { s with network := s.network ++ [e] }
      else none

@[simp] theorem set_replica_self (s : ViewSystem) (id : Int) (r : ViewReplica) :
    (s.set id r).replica id = r := by
  simp only [set, Function.update_self]

theorem set_replica_ne (s : ViewSystem) {id j : Int} (r : ViewReplica) (other : j ≠ id) :
    (s.set id r).replica j = s.replica j := by
  simp only [set, Function.update_of_ne other]

theorem set_forall (Q : Int → ViewReplica → Prop) (s : ViewSystem) {id : Int} {r : ViewReplica}
    (new : Q id r) (others : ∀ j, Q j (s.replica j)) (j : Int) :
    Q j ((s.set id r).replica j) := by
  by_cases here : j = id
  · rw [here, set_replica_self]
    exact new
  · rw [set_replica_ne s r here]
    exact others j

variable {P}

/-- Everything a step can do, when no replica crashes or attacks. -/
inductive Effect (P : ViewProtocol) (byz : Finset Int) (s : ViewSystem) :
    ViewAction → ViewSystem → Prop where
  | transaction {id : Int} {now : ℕ} {txn : Transaction} (honest : Honest P byz id) :
      Effect P byz s (.transaction id now txn)
        (s.set id ((s.replica id).receiveTransaction id now txn))
  | send {id : Int} {now : ℕ} {txn : Transaction} {rest : List Transaction}
      (honest : Honest P byz id) (ready : P.Ready id (s.replica id) = true) :
      Effect P byz s (.send id now)
        { s.set id { s.replica id with txns := rest, hasSent := true } with
          network := s.network ++
            P.broadcast (P.generateProposal id (s.replica id).manager [txn] now)
          broadcasts := s.broadcasts ++
            [P.generateProposal id (s.replica id).manager [txn] now] }
  | refused {id : Int} {p : Proposal} (refuse : P.verify (s.replica id).manager p = false) :
      Effect P byz s (.deliver ⟨id, .newProposal p⟩) (s.set id (P.noteProposal id (s.replica id) p))
  | accepted {id : Int} {p : Proposal} (honest : Honest P byz id)
      (member : ⟨id, .newProposal p⟩ ∈ s.network)
      (accept : P.verify (s.replica id).manager p = true) :
      Effect P byz s (.deliver ⟨id, .newProposal p⟩)
        { s.set id (P.accepting id (s.replica id) p) with
          network := s.network ++
            [⟨P.nextLeader p.header.view, .vote (P.generateCertificate id p)⟩]
          voted := s.voted ++ [(id, p)] }
  | vote {id : Int} {cert : Certificate} {r : ViewReplica} (honest : Honest P byz id)
      (member : ⟨id, .vote cert⟩ ∈ s.network)
      (voted : ViewProtocol.Voted P id (s.replica id) cert r) :
      Effect P byz s (.deliver ⟨id, .vote cert⟩) (s.set id r)
  | inject {e : Envelope} (faulty : byz.Nonempty) (unforged : s.Unforged P byz e.message) :
      Effect P byz s (.inject e) { s with network := s.network ++ [e] }

theorem step_effect (calm : P.Calm) {byz : Finset Int} {s s' : ViewSystem} {a : ViewAction}
    (taken : s.step P byz a = some s') : Effect P byz s a s' := by
  cases a with
  | transaction id now txn =>
      rw [step, Option.ite_none_right_eq_some] at taken
      obtain ⟨honest, done⟩ := taken
      cases done
      exact .transaction honest
  | send id now =>
      rw [step, Option.ite_none_right_eq_some] at taken
      obtain ⟨honest, done⟩ := taken
      split at done
      · cases done
      · rename_i iteration
        cases done
        obtain ⟨ready, txn, rest, rfl, rfl, rfl⟩ := ViewProtocol.asyncSend_some calm iteration
        exact .send honest ready
  | deliver e =>
      rw [step, Option.ite_none_right_eq_some] at taken
      obtain ⟨⟨honest, member⟩, done⟩ := taken
      cases done
      obtain ⟨id, message⟩ := e
      cases message with
      | newProposal p =>
          cases verdict : P.verify (s.replica id).manager p with
          | false =>
              simp only [deliver, ViewProtocol.receiveProposal_refused verdict, verdict,
                Bool.false_eq_true, if_false, List.append_nil]
              exact .refused verdict
          | true =>
              simp only [deliver, ViewProtocol.receiveProposal_accepted calm verdict, verdict,
                if_true]
              exact .accepted honest member verdict
      | vote cert => exact .vote honest member (ViewProtocol.receiveCertificate_voted id _ cert)
  | inject e =>
      rw [step, Option.ite_none_right_eq_some] at taken
      obtain ⟨⟨faulty, unforged⟩, done⟩ := taken
      cases done
      exact .inject faulty unforged

open ViewProtocol (Accepted SameBlocks)

structure Accepts (P : ViewProtocol) (byz : Finset Int) (s : ViewSystem) (id : Int) (p : Proposal)
    (s' : ViewSystem) : Prop where
  honest : Honest P byz id
  member : ⟨id, .newProposal p⟩ ∈ s.network
  accept : P.verify (s.replica id).manager p = true
  voted : s'.voted = s.voted ++ [(id, p)]
  broadcasts : s'.broadcasts = s.broadcasts
  others : ∀ j, j ≠ id → s'.replica j = s.replica j
  own : Accepted P (s.replica id) p (s'.replica id)

structure Quiet (s s' : ViewSystem) : Prop where
  voted : s'.voted = s.voted
  replica : ∀ j, SameBlocks (s.replica j) (s'.replica j)

theorem set_sameBlocks {s : ViewSystem} {id : Int} {r : ViewReplica}
    (same : SameBlocks (s.replica id) r) (j : Int) :
    SameBlocks (s.replica j) ((s.set id r).replica j) :=
  set_forall (fun j r => SameBlocks (s.replica j) r) s same (fun _ => ⟨rfl, rfl, rfl⟩) j

theorem step_accepts_or_keeps (calm : P.Calm) {byz : Finset Int} {s s' : ViewSystem}
    {a : ViewAction} (taken : s.step P byz a = some s') :
    (∃ id p, a = .deliver ⟨id, .newProposal p⟩ ∧ Accepts P byz s id p s') ∨ Quiet s s' := by
  cases step_effect calm taken with
  | transaction honest => exact .inr ⟨rfl, set_sameBlocks ⟨rfl, rfl, rfl⟩⟩
  | send honest ready => exact .inr ⟨rfl, set_sameBlocks ⟨rfl, rfl, rfl⟩⟩
  | @refused id p refuse =>
      obtain ⟨arrived, noted⟩ := ViewProtocol.noteProposal_eq (P := P) id (s.replica id) p
      rw [noted]
      exact .inr ⟨rfl, set_sameBlocks ⟨rfl, rfl, rfl⟩⟩
  | @accepted id p honest member accept =>
      refine .inl ⟨id, p, rfl, honest, member, accept, rfl, rfl, ?_, ?_⟩
      · intro j other
        exact set_replica_ne s _ other
      · change Accepted P (s.replica id) p ((s.set id _).replica id)
        rw [set_replica_self]
        exact ViewProtocol.accepting_accepted calm id (s.replica id) p
  | vote honest member voted => exact .inr ⟨rfl, set_sameBlocks (voted.sameBlocks calm)⟩
  | inject faulty unforged => exact .inr ⟨rfl, fun _ => ⟨rfl, rfl, rfl⟩⟩

end ViewSystem
end ResDB.HotStuff
