import Mathlib.Tactic
import ResDB.Library.Run
import ResDB.HotStuff.SlotReplica

/-! All replicas of a slotted protocol with the messages between them. A message
stays in the network once it is sent, so it may arrive late, more than once, out of order
or never. A set of Byzantine replicas sends what it likes, short of forging the signature of
an honest one. -/
namespace ResDB.HotStuff

/-- The last three fields are history: the proposals made by `AsyncSend`, the votes cast
by the replicas that run the code, and the certificates `ReceiveCertificate` formed. -/
structure System (P : SlotProtocol) where
  replica : Int → Replica P
  network : List Envelope := []
  broadcasts : List Proposal := []
  voted : List (Int × Proposal) := []
  formed : List QC := []

inductive Action where
  | transaction (id : Int) (now : ℕ) (txn : Transaction)
  | send (id : Int) (isFinal : Bool) (now : ℕ)
  | deliver (e : Envelope)
  | inject (e : Envelope)

def SlotProtocol.initial (P : SlotProtocol) : System P := { replica := P.start }

def SlotProtocol.collector (P : SlotProtocol) (p : Proposal) : Int :=
  if p.header.isFinal then P.nextLeader p.header.view else p.sender

def SlotProtocol.accepting (P : SlotProtocol) (r : Replica P) (p : Proposal) : Replica P :=
  { r with
    manager := (r.manager.addProposal p).1
    commitQ := r.commitQ ++
      ((r.manager.getProposal p.header.prehash).map (P.stampPrimary p)).toList }

namespace System
variable {P : SlotProtocol}

def Honest (P : SlotProtocol) (byz : Finset Int) (id : Int) : Prop :=
  1 ≤ id ∧ id ≤ P.totalNum ∧ id ∉ byz

instance (byz : Finset Int) (id : Int) : Decidable (Honest P byz id) :=
  inferInstanceAs (Decidable (_ ∧ _ ∧ _))

/-- The honest replica has signed the hash, which it does only when it votes. -/
def Signed (s : System P) (id : Int) (hash : Bytes) : Prop :=
  ∃ vote ∈ s.voted, vote.1 = id ∧ vote.2.hash = hash

instance (s : System P) (id : Int) (hash : Bytes) : Decidable (s.Signed id hash) :=
  inferInstanceAs (Decidable (∃ vote ∈ s.voted, _))

/-- A signature that verifies under an honest replica's key was made by that replica. -/
def Genuine (byz : Finset Int) (s : System P) (hash : Bytes) (sign : SignatureInfo) : Prop :=
  P.crypto.verifyMessage hash sign = true → Honest P byz sign.nodeId →
    s.Signed sign.nodeId hash

instance (byz : Finset Int) (s : System P) (hash : Bytes) (sign : SignatureInfo) :
    Decidable (s.Genuine byz hash sign) :=
  inferInstanceAs (Decidable (_ → _ → _))

def Unforged (byz : Finset Int) (s : System P) : Message → Prop
  | .newProposal p => ∀ sign ∈ p.header.qc.signatures, s.Genuine byz p.header.qc.hash sign
  | .vote cert => s.Genuine byz cert.hash cert.sign

instance (byz : Finset Int) (s : System P) : (m : Message) → Decidable (s.Unforged byz m)
  | .newProposal p => inferInstanceAs (Decidable (∀ sign ∈ p.header.qc.signatures, _))
  | .vote cert => inferInstanceAs (Decidable (s.Genuine byz cert.hash cert.sign))

def set (s : System P) (id : Int) (r : Replica P) : System P :=
  { s with replica := Function.update s.replica id r }

def deliver (s : System P) (e : Envelope) : System P :=
  match e.message with
  | .newProposal p =>
      match P.receiveProposal e.nodeId (s.replica e.nodeId) p with
      | none => s
      | some (r, vote) =>
          { s.set e.nodeId r with
            network := s.network ++ [vote]
            voted := s.voted ++ [(e.nodeId, p)] }
  | .vote cert =>
      let (r, qc) := P.receiveCertificate e.nodeId (s.replica e.nodeId) cert
      { s.set e.nodeId r with formed := s.formed ++ qc.toList }

def step (byz : Finset Int) (s : System P) : Action → Option (System P)
  | .transaction id now txn =>
      if Honest P byz id then some (s.set id (P.receiveTransaction id now (s.replica id) txn))
      else none
  | .send id isFinal now =>
      if Honest P byz id then
        match P.asyncSend id (s.replica id) isFinal now with
        | none => none
        | some (r, made, sent) =>
            some { s.set id r with
              network := s.network ++ sent
              broadcasts := s.broadcasts ++ made }
      else none
  | .deliver e => if Honest P byz e.nodeId ∧ e ∈ s.network then some (s.deliver e) else none
  | .inject e =>
      if byz.Nonempty ∧ s.Unforged byz e.message then
        some { s with network := s.network ++ [e] }
      else none

@[simp] theorem set_replica_self (s : System P) (id : Int) (r : Replica P) :
    (s.set id r).replica id = r := by
  simp only [set, Function.update_self]

theorem set_replica_ne (s : System P) {id j : Int} (r : Replica P) (other : j ≠ id) :
    (s.set id r).replica j = s.replica j := by
  simp only [set, Function.update_of_ne other]

theorem set_same {β : Type*} (f : Replica P → β) (s : System P) {id : Int} {r : Replica P}
    (same : f r = f (s.replica id)) (j : Int) : f ((s.set id r).replica j) = f (s.replica j) := by
  by_cases here : j = id
  · rw [here, set_replica_self, same]
  · rw [set_replica_ne s r here]

theorem set_forall (Q : Replica P → Prop) (s : System P) {id : Int} {r : Replica P} (new : Q r)
    (others : ∀ j, Q (s.replica j)) (j : Int) : Q ((s.set id r).replica j) := by
  by_cases here : j = id
  · rw [here, set_replica_self]
    exact new
  · rw [set_replica_ne s r here]
    exact others j

inductive Effect (byz : Finset Int) (s : System P) : Action → System P → Prop where
  | transaction {id : Int} {now : ℕ} {txn : Transaction} (honest : Honest P byz id) :
      Effect byz s (.transaction id now txn)
        (s.set id (P.receiveTransaction id now (s.replica id) txn))
  | send {id : Int} {isFinal : Bool} {now : ℕ} {r : Replica P} {made : List Proposal}
      {sent : List Envelope} (honest : Honest P byz id)
      (iteration : P.asyncSend id (s.replica id) isFinal now = some (r, made, sent)) :
      Effect byz s (.send id isFinal now)
        { s.set id r with network := s.network ++ sent, broadcasts := s.broadcasts ++ made }
  | refused {id : Int} {p : Proposal} (refuse : P.verify (s.replica id).manager p = false) :
      Effect byz s (.deliver ⟨id, .newProposal p⟩) s
  | accepted {id : Int} {p : Proposal} (honest : Honest P byz id)
      (member : ⟨id, .newProposal p⟩ ∈ s.network)
      (accept : P.verify (s.replica id).manager p = true) :
      Effect byz s (.deliver ⟨id, .newProposal p⟩)
        { s.set id (P.accepting (s.replica id) p) with
          network := s.network ++ [⟨P.collector p, .vote (P.generateCertificate id p)⟩]
          voted := s.voted ++ [(id, p)] }
  | counted {id : Int} {cert : Certificate} {votes : P.Votes} (honest : Honest P byz id)
      (member : ⟨id, .vote cert⟩ ∈ s.network)
      (waiting : P.countVote (s.replica id).votes cert = (votes, none)) :
      Effect byz s (.deliver ⟨id, .vote cert⟩) (s.set id { s.replica id with votes := votes })
  | formed {id : Int} {cert : Certificate} {votes : P.Votes} {qc : QC}
      (honest : Honest P byz id) (member : ⟨id, .vote cert⟩ ∈ s.network)
      (closed : P.countVote (s.replica id).votes cert = (votes, some qc)) :
      Effect byz s (.deliver ⟨id, .vote cert⟩)
        { s.set id { s.replica id with
            votes := votes
            manager := P.addQC id (s.replica id).manager qc
            ready := true } with
          formed := s.formed ++ [qc] }
  | inject {e : Envelope} (faulty : byz.Nonempty) (unforged : s.Unforged byz e.message) :
      Effect byz s (.inject e) { s with network := s.network ++ [e] }

theorem deliver_refused (s : System P) {id : Int} {p : Proposal}
    (refuse : P.verify (s.replica id).manager p = false) :
    s.deliver ⟨id, .newProposal p⟩ = s := by
  simp only [deliver, SlotProtocol.receiveProposal, refuse, Bool.not_false, if_true]

theorem deliver_accepted (s : System P) {id : Int} {p : Proposal}
    (accept : P.verify (s.replica id).manager p = true) :
    s.deliver ⟨id, .newProposal p⟩ =
      { s.set id (P.accepting (s.replica id) p) with
        network := s.network ++ [⟨P.collector p, .vote (P.generateCertificate id p)⟩]
        voted := s.voted ++ [(id, p)] } := by
  obtain ⟨⟨r, vote⟩, received⟩ :=
    Option.isSome_iff_exists.mp (SlotProtocol.receiveProposal_of_verify id accept)
  obtain ⟨-, rfl, rfl⟩ := SlotProtocol.receiveProposal_some received
  simp only [deliver, received]
  rfl

theorem deliver_counted (s : System P) {id : Int} {cert : Certificate} {votes : P.Votes}
    (waiting : P.countVote (s.replica id).votes cert = (votes, none)) :
    s.deliver ⟨id, .vote cert⟩ = s.set id { s.replica id with votes := votes } := by
  simp only [deliver, SlotProtocol.receiveCertificate_none waiting, Option.toList_none,
    List.append_nil]
  rfl

theorem deliver_formed (s : System P) {id : Int} {cert : Certificate} {votes : P.Votes} {qc : QC}
    (closed : P.countVote (s.replica id).votes cert = (votes, some qc)) :
    s.deliver ⟨id, .vote cert⟩ =
      { s.set id { s.replica id with
          votes := votes
          manager := P.addQC id (s.replica id).manager qc
          ready := true } with
        formed := s.formed ++ [qc] } := by
  simp only [deliver, SlotProtocol.receiveCertificate_some closed, Option.toList_some]

theorem step_effect {byz : Finset Int} {s s' : System P} {a : Action}
    (taken : s.step byz a = some s') : Effect byz s a s' := by
  cases a with
  | transaction id now txn =>
      rw [step, Option.ite_none_right_eq_some] at taken
      obtain ⟨honest, done⟩ := taken
      cases done
      exact .transaction honest
  | send id isFinal now =>
      rw [step, Option.ite_none_right_eq_some] at taken
      obtain ⟨honest, done⟩ := taken
      split at done
      · cases done
      · rename_i iteration
        cases done
        exact .send honest iteration
  | deliver e =>
      rw [step, Option.ite_none_right_eq_some] at taken
      obtain ⟨⟨honest, member⟩, done⟩ := taken
      cases done
      obtain ⟨id, message⟩ := e
      cases message with
      | newProposal p =>
          cases verdict : P.verify (s.replica id).manager p with
          | false =>
              rw [deliver_refused s verdict]
              exact .refused verdict
          | true =>
              rw [deliver_accepted s verdict]
              exact .accepted honest member verdict
      | vote cert =>
          rcases result : P.countVote (s.replica id).votes cert with ⟨votes, _ | qc⟩
          · rw [deliver_counted s result]
            exact .counted honest member result
          · rw [deliver_formed s result]
            exact .formed honest member result
  | inject e =>
      rw [step, Option.ite_none_right_eq_some] at taken
      obtain ⟨⟨faulty, unforged⟩, done⟩ := taken
      cases done
      exact .inject faulty unforged

end System
end ResDB.HotStuff
