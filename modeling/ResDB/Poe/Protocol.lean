import Mathlib.Data.Finset.Card
import Mathlib.Tactic
import ResDB.Library.AssocMap
import ResDB.Library.Run
import ResDB.Pbft.OrderedExecution

/-! `PoE`: the proposer numbers transactions and broadcasts them; a replica keeps a proposal and
broadcasts that it is prepared; with `2 f + 1` of these it gives the transaction to the
executor. A broadcast goes to all replicas, its sender among them. -/
namespace ResDB.Poe
open Pbft (Request Executor)

structure Transaction where
  data : Bytes
  hash : Bytes
  seq : ℕ := 0
  proposer : ℕ := 0
  deriving DecidableEq

structure Proposal (n : ℕ) where
  hash : Bytes
  seq : ℕ
  proposer : Fin n
  deriving DecidableEq

/-- The faults that `Consensus` counts on. -/
def faults (n : ℕ) : ℕ := (n - 1) / 3

/-- A replica. `committing` has the transactions that left `data_` and are not yet given to the
executor. The history is what it was delivered and what its executor was called for. -/
structure PoE (n : ℕ) where
  nextSeq : ℕ := 0
  data : AssocMap Bytes Transaction := ∅
  received : AssocMap Bytes (Finset (Fin n)) := ∅
  committing : List Transaction := []
  executor : Executor := {}
  proposed : List Transaction := []
  prepared : List (Proposal n) := []
  events : List Executor.Event := []

namespace PoE
variable {n : ℕ} (node : PoE n)

/-- `ReceivePropose` up to its broadcast. -/
def receivePropose (txn : Transaction) : PoE n :=
  { node with
    data := node.data.set txn.hash txn
    proposed := node.proposed ++ [txn] }

def votes (hash : Bytes) : Finset (Fin n) := (node.received.find hash).getD ∅

def count (proposal : Proposal n) : PoE n :=
  { node with
    received := node.received.set proposal.hash
      (insert proposal.proposer (node.votes proposal.hash))
    prepared := node.prepared ++ [proposal] }

/-- The part of `ReceivePrepare` under its lock. -/
def receivePrepare (proposal : Proposal n) : PoE n :=
  match node.data.find proposal.hash with
  | none => node.count proposal
  | some txn =>
      if 2 * faults n + 1 ≤ ((node.count proposal).votes proposal.hash).card then
        { node.count proposal with
          data := node.data.erase proposal.hash
          committing := node.committing ++ [txn] }
      else node.count proposal

/-- The request that `CommitMsgInternal` makes of a transaction. -/
def request (txn : Transaction) : Request := { data := txn.data, seq := txn.seq }

def commit (txn : Transaction) : PoE n :=
  { node with
    committing := node.committing.erase txn
    executor := node.executor.commit (request txn)
    events := node.events ++ [.commit (request txn)] }

def orderMessage : PoE n :=
  { node with
    executor := node.executor.orderMessage
    events := node.events ++ [.orderMessage] }

end PoE

/-- The replicas, the transactions that the proposer received, as it numbered and broadcast
them, and the broadcasts of the replicas that are prepared. -/
structure System (n : ℕ) where
  nodes : Fin n → PoE n := fun _ => {}
  received : List Transaction := []
  prepares : List (Proposal n) := []

inductive Action (n : ℕ) where
  | receive (txn : Transaction)
  | propose (replica : Fin n) (txn : Transaction)
  | prepare (replica : Fin n) (proposal : Proposal n)
  | commit (replica : Fin n) (txn : Transaction)
  | orderMessage (replica : Fin n)

namespace System
variable {n : ℕ} (leader : Fin n) (s : System n)

def numbered (txn : Transaction) : Transaction :=
  { txn with seq := (s.nodes leader).nextSeq, proposer := leader }

/-- The hashes differ; a message that was sent is delivered at any time and any number of
times. -/
def step : Action n → Option (System n)
  | .receive txn =>
      if txn.hash ∉ s.received.map (fun t => t.hash) then
        some { s with
          nodes := Function.update s.nodes leader
            { s.nodes leader with nextSeq := (s.nodes leader).nextSeq + 1 }
          received := s.received ++ [s.numbered leader txn] }
      else none
  | .propose replica txn =>
      if txn ∈ s.received then
        some { s with
          nodes := Function.update s.nodes replica ((s.nodes replica).receivePropose txn)
          prepares := s.prepares ++ [⟨txn.hash, txn.seq, replica⟩] }
      else none
  | .prepare replica proposal =>
      if proposal ∈ s.prepares then
        some { s with
          nodes := Function.update s.nodes replica ((s.nodes replica).receivePrepare proposal) }
      else none
  | .commit replica txn =>
      if txn ∈ (s.nodes replica).committing then
        some { s with nodes := Function.update s.nodes replica ((s.nodes replica).commit txn) }
      else none
  | .orderMessage replica =>
      some { s with nodes := Function.update s.nodes replica (s.nodes replica).orderMessage }

/-- All messages have been delivered, and all that followed from them is done. -/
structure Complete : Prop where
  proposed : ∀ replica, ∀ txn ∈ s.received, txn ∈ (s.nodes replica).proposed
  prepared : ∀ replica, ∀ proposal ∈ s.prepares, proposal ∈ (s.nodes replica).prepared
  committed : ∀ replica, (s.nodes replica).committing = []
  ordered : ∀ replica, (s.nodes replica).executor.commitQueue = []

instance decidableComplete : Decidable s.Complete :=
  decidable_of_iff
    ((∀ replica, ∀ txn ∈ s.received, txn ∈ (s.nodes replica).proposed) ∧
      (∀ replica, ∀ proposal ∈ s.prepares, proposal ∈ (s.nodes replica).prepared) ∧
      (∀ replica, (s.nodes replica).committing = []) ∧
      ∀ replica, (s.nodes replica).executor.commitQueue = [])
    ⟨fun ⟨proposed, prepared, committed, ordered⟩ => ⟨proposed, prepared, committed, ordered⟩,
      fun complete => ⟨complete.1, complete.2, complete.3, complete.4⟩⟩

end System
end ResDB.Poe
