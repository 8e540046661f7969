import ResDB.Client.ResponseManager
import ResDB.Library.Backing
import ResDB.Pbft.ResponseManager

/-! Who stands behind a delivered result. The three proxies wait for `f + 1` responses to a
request, and none of them compares what they say: the common ones count messages, the one of
PBFT counts the replicas that name a hash, which is that of the request. -/
namespace ResDB.Client
open Backing (backers)

def agrees (codec : ResponseCodec) (batchResponse : BatchUserResponse) (msg : ResponseMsg) : Bool :=
  (codec.parse msg.data).map BatchUserResponse.response = some batchResponse.response

/-- At least so many replicas have sent these results, in the responses given. -/
def Backed (codec : ResponseCodec) (minNum : ℕ) (batchResponse : BatchUserResponse)
    (responses : List ResponseMsg) : Prop :=
  minNum ≤ (backers ResponseMsg.senderId (agrees codec batchResponse) responses).card

instance (codec : ResponseCodec) (minNum : ℕ) (batchResponse : BatchUserResponse)
    (responses : List ResponseMsg) : Decidable (Backed codec minNum batchResponse responses) :=
  inferInstanceAs (Decidable (_ ≤ _))

/-- The responses carry these results, and no two are from one replica. -/
def Concordant (codec : ResponseCodec) (batchResponse : BatchUserResponse)
    (responses : List ResponseMsg) : Prop :=
  (∀ msg ∈ responses, agrees codec batchResponse msg = true) ∧
    (responses.map ResponseMsg.senderId).Nodup

theorem backed_iff_concordant {codec : ResponseCodec} {minNum : ℕ}
    {batchResponse : BatchUserResponse} {responses : List ResponseMsg}
    (full : responses.length = minNum) :
    Backed codec minNum batchResponse responses ↔ Concordant codec batchResponse responses := by
  rw [Backed, ← full]
  exact Backing.length_le_card_backers_iff

/-! ### The common proxy -/

namespace ResponseManager
variable (codec : ResponseCodec) (minNum : ℕ) (made : List ResponseMsg) (request : ResponseMsg)

/-- What is delivered after the run with the next response is backed. -/
def Sound : Prop := ∀ batchResponse,
  ((after codec minNum made).processResponseMsg codec minNum request).1 = some batchResponse →
    Backed codec minNum batchResponse (responsesFor (made ++ [request]) request.seq)

/-- If the response makes the count of its number full, all the responses for the number
are concordant. -/
def Counts : Prop := ∀ batchResponse,
  request.ret ≠ -2 → codec.parse request.data = some batchResponse →
    (responsesFor made request.seq).length + 1 = minNum →
    Concordant codec batchResponse (responsesFor (made ++ [request]) request.seq)

variable {codec minNum made request}

theorem sound_iff_counts (positive : 0 < minNum) :
    Sound codec minNum made request ↔ Counts codec minNum made request := by
  have backed : ∀ batchResponse, request.ret ≠ -2 →
      (responsesFor made request.seq).length + 1 = minNum →
      (Backed codec minNum batchResponse (responsesFor (made ++ [request]) request.seq) ↔
        Concordant codec batchResponse (responsesFor (made ++ [request]) request.seq)) := by
    intro batchResponse counted full
    apply backed_iff_concordant
    rw [responsesFor_concat, if_pos ⟨counted, rfl⟩, List.length_append]
    exact full
  simp only [Sound, Counts, delivers_iff positive]
  constructor
  · intro sound batchResponse counted parsed full
    exact (backed batchResponse counted full).mp (sound batchResponse ⟨counted, full, parsed⟩)
  · rintro counts batchResponse ⟨counted, full, parsed⟩
    exact (backed batchResponse counted full).mpr (counts batchResponse counted parsed full)

end ResponseManager

/-! ### The common load generator -/

inductive PerformanceEvent where
  | register
  | processResponseMsg (request : ResponseMsg)
  deriving DecidableEq

def PerformanceEvent.apply (codec : ResponseCodec) (minNum networkDelayNum : ℕ)
    (m : PerformanceManager) : PerformanceEvent → PerformanceManager
  | .register => m.register
  | .processResponseMsg request =>
      (m.processResponseMsg codec minNum request networkDelayNum).2

/-- The responses that came for each local id since its batch was registered. -/
structure Ledger where
  next : ℕ := 1
  received : ℕ → List ResponseMsg := fun _ => []

def Ledger.note (codec : ResponseCodec) (ledger : Ledger) : PerformanceEvent → Ledger
  | .register =>
      { next := ledger.next + 1, received := Function.update ledger.received ledger.next [] }
  | .processResponseMsg request =>
      if request.ret = -2 then ledger
      else
        match codec.parse request.data with
        | none => ledger
        | some batchResponse =>
            { ledger with
              received := Function.update ledger.received batchResponse.localId
                (ledger.received batchResponse.localId ++ [request]) }

namespace Ledger
variable {codec : ResponseCodec} {request : ResponseMsg} {batchResponse : BatchUserResponse}

theorem note_ignored (ledger : Ledger)
    (ignored : request.ret = -2 ∨ codec.parse request.data = none) :
    ledger.note codec (.processResponseMsg request) = ledger := by
  rw [note]
  rcases ignored with rejected | bad
  · rw [if_pos rejected]
  · rw [bad, ite_self]

theorem note_received (ledger : Ledger) (counted : request.ret ≠ -2)
    (parsed : codec.parse request.data = some batchResponse) :
    (ledger.note codec (.processResponseMsg request)).received =
      Function.update ledger.received batchResponse.localId
        (ledger.received batchResponse.localId ++ [request]) := by
  rw [note, if_neg counted, parsed]

theorem note_next (ledger : Ledger) (request : ResponseMsg) :
    (ledger.note codec (.processResponseMsg request)).next = ledger.next := by
  rw [note]
  split_ifs
  · rfl
  · split <;> rfl

end Ledger

namespace PerformanceManager

/-- The table holds the number of responses since the batch was registered. -/
structure Matches (minNum : ℕ) (m : PerformanceManager) (ledger : Ledger) : Prop where
  localId : m.localId = ledger.next
  count : ∀ id count, m.response.find id = some count →
    count = (ledger.received id).length ∧ count < minNum

variable {codec : ResponseCodec} {minNum networkDelayNum : ℕ} {m : PerformanceManager}
  {ledger : Ledger} {request : ResponseMsg} {batchResponse : BatchUserResponse}

theorem sendResponseToClient_frame (networkDelayNum : ℕ) (m : PerformanceManager) :
    (m.sendResponseToClient networkDelayNum).response = m.response ∧
      (m.sendResponseToClient networkDelayNum).localId = m.localId := by
  unfold sendResponseToClient
  split_ifs <;> exact ⟨rfl, rfl⟩

theorem processResponseMsg_parsed (minNum networkDelayNum : ℕ) (m : PerformanceManager)
    (counted : request.ret ≠ -2)
    (parsed : codec.parse request.data = some batchResponse) :
    (m.processResponseMsg codec minNum request networkDelayNum).1 =
        (if (m.tally minNum batchResponse.localId).1.any Prod.snd then some batchResponse
          else none) ∧
      (m.processResponseMsg codec minNum request networkDelayNum).2.response =
        (m.tally minNum batchResponse.localId).2.response ∧
      (m.processResponseMsg codec minNum request networkDelayNum).2.localId = m.localId := by
  have kept : (m.tally minNum batchResponse.localId).2.localId = m.localId := by
    obtain ⟨table, same⟩ := tally_frame minNum m batchResponse.localId
    rw [same]
  unfold processResponseMsg addResponseMsg
  rw [if_neg counted, parsed]
  dsimp only
  generalize m.tally minNum batchResponse.localId = result at kept ⊢
  obtain ⟨outcome, m'⟩ := result
  rcases outcome with - | ⟨count, done⟩
  · exact ⟨rfl, rfl, kept⟩
  · cases done with
    | false => exact ⟨rfl, rfl, kept⟩
    | true =>
        dsimp only
        by_cases delayed : 0 < networkDelayNum
        · rw [if_pos delayed]
          obtain ⟨response, localId⟩ := sendResponseToClient_frame networkDelayNum m'
          exact ⟨rfl, response, localId.trans kept⟩
        · rw [if_neg delayed]
          obtain ⟨response, localId⟩ := sendResponseToClient_frame networkDelayNum { m' with
            inflight := Function.update m'.inflight batchResponse.primaryId
              (m'.inflight batchResponse.primaryId - 1) }
          exact ⟨rfl, response, localId.trans kept⟩

theorem processResponseMsg_ignored (minNum networkDelayNum : ℕ) (m : PerformanceManager)
    (ignored : request.ret = -2 ∨ codec.parse request.data = none) :
    (m.processResponseMsg codec minNum request networkDelayNum).1 = none ∧
      (m.processResponseMsg codec minNum request networkDelayNum).2.response = m.response ∧
      (m.processResponseMsg codec minNum request networkDelayNum).2.localId = m.localId := by
  unfold processResponseMsg
  by_cases rejected : request.ret = -2
  · rw [if_pos rejected]
    exact ⟨rfl, rfl, rfl⟩
  · rw [if_neg rejected, addResponseMsg, ignored.resolve_left rejected]
    exact ⟨rfl, rfl, rfl⟩

theorem Matches.register (positive : 0 < minNum) (holds : Matches minNum m ledger) :
    Matches minNum m.register (ledger.note codec .register) where
  localId := congrArg (· + 1) holds.localId
  count := by
    intro id count found
    change (m.response.set m.localId 0).find id = some count at found
    change _ = (Function.update ledger.received ledger.next [] id).length ∧ _
    rw [AssocMap.find_set, holds.localId] at found
    split_ifs at found with same
    · rw [← Option.some.inj found, same, Function.update_self]
      exact ⟨rfl, positive⟩
    · rw [Function.update_of_ne same]
      exact holds.count id count found

theorem Matches.processResponseMsg (holds : Matches minNum m ledger) :
    Matches minNum (m.processResponseMsg codec minNum request networkDelayNum).2
      (ledger.note codec (.processResponseMsg request)) := by
  by_cases ignored : request.ret = -2 ∨ codec.parse request.data = none
  · obtain ⟨-, response, localId⟩ :=
      processResponseMsg_ignored minNum networkDelayNum m ignored
    rw [ledger.note_ignored ignored]
    refine ⟨localId.trans holds.localId, ?_⟩
    rw [response]
    exact holds.count
  · obtain ⟨counted, good⟩ := not_or.mp ignored
    obtain ⟨batchResponse, parsed⟩ := Option.ne_none_iff_exists'.mp good
    obtain ⟨-, response, localId⟩ :=
      processResponseMsg_parsed minNum networkDelayNum m counted parsed
    refine ⟨(localId.trans holds.localId).trans (ledger.note_next request).symm, ?_⟩
    rw [response, ledger.note_received counted parsed]
    intro id count found
    unfold tally at found
    cases here : m.response.find batchResponse.localId with
    | none =>
        rw [here] at found
        have other : id ≠ batchResponse.localId := by
          rintro rfl
          rw [here] at found
          cases found
        rw [Function.update_of_ne other]
        exact holds.count id count found
    | some before =>
        have matched := holds.count _ _ here
        rw [here] at found
        dsimp only at found
        split_ifs at found with full
        · rw [AssocMap.find_erase] at found
          split_ifs at found with same
          rw [Function.update_of_ne same]
          exact holds.count id count found
        · rw [AssocMap.find_set] at found
          split_ifs at found with same
          · rw [← Option.some.inj found, same, Function.update_self, List.length_append]
            exact ⟨congrArg (· + 1) matched.1, by omega⟩
          · rw [Function.update_of_ne same]
            exact holds.count id count found

variable (codec minNum networkDelayNum)

def after (made : List PerformanceEvent) : PerformanceManager :=
  made.foldl (PerformanceEvent.apply codec minNum networkDelayNum) {}

def ledgerAfter (made : List PerformanceEvent) : Ledger := made.foldl (Ledger.note codec) {}

/-- What is delivered after the run with the next response is backed. -/
def Sound (made : List PerformanceEvent) (request : ResponseMsg) : Prop := ∀ batchResponse,
  ((after codec minNum networkDelayNum made).processResponseMsg codec minNum request
      networkDelayNum).1 = some batchResponse →
    Backed codec minNum batchResponse
      ((ledgerAfter codec (made ++ [.processResponseMsg request])).received batchResponse.localId)

/-- If the response makes the count of its local id full, all the responses since the batch
was registered are concordant. -/
def Counts (made : List PerformanceEvent) (request : ResponseMsg) : Prop := ∀ batchResponse count,
  request.ret ≠ -2 → codec.parse request.data = some batchResponse →
    (after codec minNum networkDelayNum made).response.find batchResponse.localId = some count →
    count + 1 = minNum →
    Concordant codec batchResponse
      ((ledgerAfter codec (made ++ [.processResponseMsg request])).received batchResponse.localId)

variable {codec minNum networkDelayNum}

theorem matches_after (codec : ResponseCodec) (networkDelayNum : ℕ) (positive : 0 < minNum)
    (made : List PerformanceEvent) :
    Matches minNum (after codec minNum networkDelayNum made) (ledgerAfter codec made) := by
  induction made using List.reverseRecOn with
  | nil =>
      refine ⟨rfl, fun id count found => ?_⟩
      exact absurd (AssocMap.mem_of_find found) List.not_mem_nil
  | append_singleton made event ih =>
      rw [after, ledgerAfter, List.foldl_concat, List.foldl_concat]
      cases event with
      | register => exact ih.register positive
      | processResponseMsg request => exact ih.processResponseMsg

theorem Matches.delivers_iff (holds : Matches minNum m ledger) :
    (m.processResponseMsg codec minNum request networkDelayNum).1 = some batchResponse ↔
      request.ret ≠ -2 ∧ codec.parse request.data = some batchResponse ∧
        ∃ count, m.response.find batchResponse.localId = some count ∧ count + 1 = minNum := by
  by_cases ignored : request.ret = -2 ∨ codec.parse request.data = none
  · rw [(processResponseMsg_ignored minNum networkDelayNum m ignored).1]
    refine iff_of_false nofun ?_
    rintro ⟨counted, parsed, -⟩
    rcases ignored with rejected | bad
    · exact counted rejected
    · rw [bad] at parsed
      cases parsed
  · obtain ⟨counted, good⟩ := not_or.mp ignored
    obtain ⟨own, parsed⟩ := Option.ne_none_iff_exists'.mp good
    have done : (m.tally minNum own.localId).1.any Prod.snd = true ↔
        ∃ count, m.response.find own.localId = some count ∧ count + 1 = minNum := by
      unfold tally
      cases here : m.response.find own.localId with
      | none => simp
      | some count =>
          have bound := (holds.count _ _ here).2
          dsimp only
          split_ifs with full
          · exact iff_of_true rfl ⟨count, rfl, by omega⟩
          · refine iff_of_false Bool.false_ne_true ?_
            rintro ⟨_, ⟨⟩, same⟩
            omega
    rw [(processResponseMsg_parsed minNum networkDelayNum m counted parsed).1, parsed,
      Option.ite_none_right_eq_some, done, Option.some_inj]
    constructor
    · rintro ⟨full, rfl⟩
      exact ⟨counted, rfl, full⟩
    · rintro ⟨-, rfl, full⟩
      exact ⟨full, rfl⟩

theorem sound_iff_counts (positive : 0 < minNum) (made : List PerformanceEvent)
    (request : ResponseMsg) :
    Sound codec minNum networkDelayNum made request ↔
      Counts codec minNum networkDelayNum made request := by
  have holds := matches_after codec networkDelayNum positive made
  have backed : ∀ batchResponse count, request.ret ≠ -2 →
      codec.parse request.data = some batchResponse →
      (after codec minNum networkDelayNum made).response.find batchResponse.localId = some count →
      count + 1 = minNum →
      (Backed codec minNum batchResponse
          ((ledgerAfter codec (made ++ [.processResponseMsg request])).received
            batchResponse.localId) ↔
        Concordant codec batchResponse
          ((ledgerAfter codec (made ++ [.processResponseMsg request])).received
            batchResponse.localId)) := by
    intro batchResponse count counted parsed found full
    apply backed_iff_concordant
    rw [ledgerAfter, List.foldl_concat, Ledger.note_received _ counted parsed,
      Function.update_self, List.length_append]
    exact (congrArg (· + 1) (holds.count _ _ found).1.symm).trans full
  simp only [Sound, Counts, holds.delivers_iff]
  constructor
  · intro sound batchResponse count counted parsed found full
    exact (backed batchResponse count counted parsed found full).mp
      (sound batchResponse ⟨counted, parsed, count, found, full⟩)
  · rintro counts batchResponse ⟨counted, parsed, count, found, full⟩
    exact (backed batchResponse count counted parsed found full).mpr
      (counts batchResponse count counted parsed found full)

end PerformanceManager
end ResDB.Client

/-! ### The PBFT proxy -/

namespace ResDB.Pbft
open Backing (backers)
open Client (BatchUserResponse ResponseMsg ResponseCodec Backed agrees)

/-- A collector of the response ring: it waits for more replicas, or it is done. -/
structure Collector.Tallying (minNum : ℕ) (c : Collector) : Prop where
  uncommitted : c.isCommitted = false
  status : c.status = .none ∨ c.status = .executed
  few : c.status = .none → ∀ hash, (c.senders .response hash).card < minNum

namespace Deployment
variable {D : Deployment} {pool : ℕ → Collector} {msg : ResponseMsg}

theorem tallying_fresh (seq : ℕ) :
    Collector.Tallying D.minClientReceiveNum { seq := seq } :=
  ⟨rfl, .inl rfl, fun _ _ => minClientReceiveNum_pos⟩

theorem closed_or_waiting (tallying : (pool (D.index msg.seq)).Tallying D.minClientReceiveNum) :
    D.Closed pool msg.seq ∨
      (pool (D.index msg.seq)).seq = msg.seq ∧ (pool (D.index msg.seq)).status = .none := by
  by_cases own : (pool (D.index msg.seq)).seq = msg.seq
  · exact tallying.status.symm.imp Or.inr (fun waiting => ⟨own, waiting⟩)
  · exact .inl (.inl own)

theorem tallying_addSender {c : Collector} (tallying : c.Tallying D.minClientReceiveNum)
    (waiting : c.status = .none)
    (more : (Collector.setBit msg.senderId (c.senders .response msg.hash)).card <
      D.minClientReceiveNum) :
    (c.addSender (responseInfo msg)).Tallying D.minClientReceiveNum where
  uncommitted := tallying.uncommitted
  status := tallying.status
  few := by
    intro _ hash
    by_cases same : hash = msg.hash
    · simpa [Collector.addSender, responseInfo, same] using more
    · simpa [Collector.addSender, responseInfo, same] using tallying.few waiting hash

theorem forall_addResponseMsg {P : Collector → Prop} {c : Collector}
    (slot : pool (D.index msg.seq) = c) (tallying : c.Tallying D.minClientReceiveNum)
    (kept : ∀ i, P (pool i)) (fresh : ∀ seq, P { seq := seq })
    (counts : c.seq = msg.seq → c.status = .none →
      (Collector.setBit msg.senderId (c.senders .response msg.hash)).card <
        D.minClientReceiveNum → P (c.addSender (responseInfo msg)))
    (finishes : c.seq = msg.seq → P (c.addSender (responseInfo msg)).finish) (i : ℕ) :
    P ((D.addResponseMsg pool msg).1 i) := by
  have put : ∀ {c : Collector}, P c → ∀ j, P (Function.update pool (D.index msg.seq) c j) := by
    intro c good j
    by_cases here : j = D.index msg.seq
    · rw [here, Function.update_self]
      exact good
    · rw [Function.update_of_ne here]
      exact kept j
  subst slot
  rcases closed_or_waiting tallying with closed | ⟨own, waiting⟩
  · rw [addResponseMsg_closed closed]
    exact kept i
  · rw [addResponseMsg_open rfl own waiting tallying.uncommitted]
    split_ifs with full
    · dsimp only
      unfold Deployment.update
      split_ifs
      · exact put (finishes own) i
      · by_cases here : i = D.index msg.seq ^^^ D.capacity
        · rw [here, Function.update_self]
          exact fresh _
        · rw [Function.update_of_ne here]
          exact put (finishes own) i
    · exact put (counts own waiting (not_le.mp full)) i

theorem addResponseMsg_tallying (tallying : ∀ i, (pool i).Tallying D.minClientReceiveNum) (i : ℕ) :
    ((D.addResponseMsg pool msg).1 i).Tallying D.minClientReceiveNum :=
  forall_addResponseMsg rfl (tallying _) tallying tallying_fresh
    (fun _ waiting more => tallying_addSender (tallying _) waiting more)
    (fun _ => ⟨(tallying _).uncommitted, .inr rfl, nofun⟩) i

end Deployment

namespace ResponseManager
variable (D : Deployment) (codec : ResponseCodec) (clientBatchNum : ℕ) (made : List ProxyEvent)
  (msg : ResponseMsg)

def after : ResponseManager := made.foldl (ProxyEvent.apply D codec clientBatchNum) {}

/-- The responses for a request, that is for a number and a hash, rejections apart. -/
def responsesFor (seq : ℕ) (hash : Bytes) : List ResponseMsg :=
  made.filterMap (fun
    | .processResponseMsg msg =>
        if msg.ret ≠ -2 ∧ msg.seq = seq ∧ msg.hash = hash then some msg else none
    | _ => none)

/-- What is delivered after the run with the next response is backed. -/
def Sound : Prop := ∀ batchResponse,
  ((after D codec clientBatchNum made).processResponseMsg D codec msg).1 = some batchResponse →
    Backed codec D.minClientReceiveNum batchResponse
      (responsesFor (made ++ [.processResponseMsg msg]) msg.seq msg.hash)

/-- The responses for the request all carry the results of the last one. -/
def Uniform : Prop :=
  ∀ response ∈ responsesFor (made ++ [.processResponseMsg msg]) msg.seq msg.hash,
    (codec.parse response.data).map BatchUserResponse.response =
      (codec.parse msg.data).map BatchUserResponse.response

theorem batchProposeMsg_collectorPool (m : ResponseManager) (signs : Bool) :
    (m.batchProposeMsg D clientBatchNum signs).collectorPool = m.collectorPool := by
  have taken : (m.take clientBatchNum).collectorPool = m.collectorPool := by
    unfold take
    split
    · rfl
    · split_ifs <;> rfl
  have proposed : ∀ m : ResponseManager, (m.propose D signs).collectorPool = m.collectorPool := by
    intro m
    unfold propose doBatch
    dsimp only
    split_ifs <;> rfl
  unfold batchProposeMsg
  dsimp only
  split_ifs
  · rfl
  · exact taken
  · exact taken
  · exact (proposed _).trans taken

theorem sendResponseToClient_collectorPool (m : ResponseManager)
    (batchResponse : BatchUserResponse) :
    (m.sendResponseToClient D batchResponse).collectorPool = m.collectorPool := by
  unfold sendResponseToClient fetchContextList
  dsimp only
  split_ifs <;> rfl

theorem processResponseMsg_collectorPool (m : ResponseManager) :
    (m.processResponseMsg D codec msg).2.collectorPool =
      if msg.ret = -2 then m.collectorPool else (D.addResponseMsg m.collectorPool msg).1 := by
  unfold processResponseMsg
  split_ifs
  · rfl
  · generalize D.addResponseMsg m.collectorPool msg = result
    obtain ⟨pool, code⟩ := result
    cases code with
    | stateChanged =>
        dsimp only
        split
        · exact sendResponseToClient_collectorPool D _ _
        · rfl
    | _ => rfl

theorem after_tallying (i : ℕ) :
    ((after D codec clientBatchNum made).collectorPool i).Tallying D.minClientReceiveNum := by
  induction made using List.reverseRecOn generalizing i with
  | nil => exact Deployment.tallying_fresh i
  | append_singleton made event ih =>
      rw [after, List.foldl_concat]
      cases event with
      | newUserRequest context needResponse userRequest => exact ih i
      | batchProposeMsg signs =>
          rw [ProxyEvent.apply, batchProposeMsg_collectorPool]
          exact ih i
      | processResponseMsg msg =>
          rw [ProxyEvent.apply, processResponseMsg_collectorPool]
          split_ifs
          · exact ih i
          · exact Deployment.addResponseMsg_tallying ih i

theorem delivers_iff (m : ResponseManager)
    (tallying : ∀ i, (m.collectorPool i).Tallying D.minClientReceiveNum)
    (batchResponse : BatchUserResponse) :
    (m.processResponseMsg D codec msg).1 = some batchResponse ↔
      msg.ret ≠ -2 ∧ codec.parse msg.data = some batchResponse ∧
        (m.collectorPool (D.index msg.seq)).seq = msg.seq ∧
        (m.collectorPool (D.index msg.seq)).status = .none ∧
        D.minClientReceiveNum ≤ (Collector.setBit msg.senderId
          ((m.collectorPool (D.index msg.seq)).senders .response msg.hash)).card := by
  unfold processResponseMsg
  by_cases rejected : msg.ret = -2
  · simp [rejected]
  · rw [if_neg rejected]
    rcases Deployment.closed_or_waiting (tallying (D.index msg.seq)) with
      closed | ⟨own, waiting⟩
    · rw [Deployment.addResponseMsg_closed closed]
      refine iff_of_false nofun ?_
      rintro ⟨-, -, own, waiting, -⟩
      rcases closed with other | done
      · exact other own
      · rw [waiting] at done
        cases done
    · rw [Deployment.addResponseMsg_open rfl own waiting (tallying _).uncommitted]
      by_cases full : D.minClientReceiveNum ≤ (Collector.setBit msg.senderId
          ((m.collectorPool (D.index msg.seq)).senders .response msg.hash)).card
      · rw [if_pos full]
        dsimp only
        cases parsed : codec.parse msg.data with
        | none => simp
        | some b => simp [rejected, own, waiting, full]
      · rw [if_neg full]
        refine iff_of_false nofun ?_
        rintro ⟨-, -, -, -, enough⟩
        exact full enough

theorem responsesFor_concat (seq : ℕ) (hash : Bytes) :
    responsesFor (made ++ [.processResponseMsg msg]) seq hash =
      responsesFor made seq hash ++
        if msg.ret ≠ -2 ∧ msg.seq = seq ∧ msg.hash = hash then [msg] else [] := by
  rw [responsesFor, List.filterMap_append, responsesFor]
  split_ifs with matched <;> simp [matched]

theorem mem_responsesFor_of_concat {event : ProxyEvent} {response : ResponseMsg} {seq : ℕ}
    {hash : Bytes} (member : response ∈ responsesFor made seq hash) :
    response ∈ responsesFor (made ++ [event]) seq hash := by
  rw [responsesFor, List.filterMap_append]
  exact List.mem_append_left _ member

/-- Each replica that the collector counts for a hash has responded with that hash. -/
def Recorded (made : List ProxyEvent) (c : Collector) : Prop :=
  ∀ hash i, i ∈ c.senders .response hash →
    ∃ response ∈ responsesFor made c.seq hash, response.senderId = i

theorem Recorded.concat {c : Collector} (event : ProxyEvent) (recorded : Recorded made c) :
    Recorded (made ++ [event]) c := by
  intro hash i member
  obtain ⟨response, inside, sender⟩ := recorded hash i member
  exact ⟨response, mem_responsesFor_of_concat made inside, sender⟩

theorem Recorded.sender {c : Collector} (recorded : Recorded made c) (arrived : msg.ret ≠ -2)
    (own : c.seq = msg.seq) {i : Int}
    (member : i ∈ Collector.setBit msg.senderId (c.senders .response msg.hash)) :
    ∃ response ∈ responsesFor (made ++ [.processResponseMsg msg]) msg.seq msg.hash,
      response.senderId = i := by
  rcases Collector.mem_setBit.mp member with old | ⟨rfl, -⟩
  · rw [← own]
    exact recorded.concat made (.processResponseMsg msg) msg.hash i old
  · refine ⟨msg, ?_, rfl⟩
    rw [responsesFor_concat, if_pos ⟨arrived, rfl, rfl⟩]
    exact List.mem_append_right _ (List.mem_singleton_self msg)

theorem Recorded.addSender {c : Collector} (recorded : Recorded made c) (arrived : msg.ret ≠ -2)
    (own : c.seq = msg.seq) :
    Recorded (made ++ [.processResponseMsg msg]) (c.addSender (responseInfo msg)) := by
  intro hash i member
  rcases Collector.mem_addSender.mp member with old | ⟨-, same, rfl, placed⟩
  · exact recorded.concat made (.processResponseMsg msg) hash i old
  · obtain rfl : hash = msg.hash := same
    have inside :=
      recorded.sender made msg arrived own (Collector.mem_setBit.mpr (.inr ⟨rfl, placed⟩))
    rw [← own] at inside
    exact inside

theorem after_recorded (i : ℕ) :
    Recorded made ((after D codec clientBatchNum made).collectorPool i) := by
  induction made using List.reverseRecOn generalizing i with
  | nil => exact fun _ _ member => absurd member (Finset.notMem_empty _)
  | append_singleton made event ih =>
      have kept := (ih i).concat made event
      rw [after, List.foldl_concat]
      cases event with
      | newUserRequest context needResponse userRequest => exact kept
      | batchProposeMsg signs =>
          rw [ProxyEvent.apply, batchProposeMsg_collectorPool]
          exact kept
      | processResponseMsg msg =>
          rw [ProxyEvent.apply, processResponseMsg_collectorPool]
          split_ifs with rejected
          · exact kept
          · have added : ∀ c, Recorded made c → c.seq = msg.seq →
                Recorded (made ++ [.processResponseMsg msg]) (c.addSender (responseInfo msg)) := by
              intro c recorded own
              exact recorded.addSender made msg rejected own
            exact Deployment.forall_addResponseMsg rfl
              (after_tallying D codec clientBatchNum made _)
              (fun j => (ih j).concat made (.processResponseMsg msg))
              (fun _ _ _ member => absurd member (Finset.notMem_empty _))
              (fun own _ _ => added _ (ih _) own) (fun own => added _ (ih _) own) i

theorem sound_of_uniform (uniform : Uniform codec made msg) :
    Sound D codec clientBatchNum made msg := by
  intro batchResponse delivered
  obtain ⟨arrived, parsed, own, -, enough⟩ := (delivers_iff D codec msg _
    (after_tallying D codec clientBatchNum made) batchResponse).mp delivered
  refine enough.trans (Finset.card_le_card fun i member => ?_)
  obtain ⟨response, inside, sender⟩ :=
    (after_recorded D codec clientBatchNum made (D.index msg.seq)).sender made msg arrived own
      member
  refine Backing.mem_backers.mpr ⟨response, inside, ?_, sender⟩
  rw [agrees, decide_eq_true_iff, uniform response inside, parsed]
  rfl

theorem uniform_of_sound (sound : Sound D codec clientBatchNum made msg)
    (delivered : ((after D codec clientBatchNum made).processResponseMsg D codec msg).1 ≠ none)
    (few : (responsesFor (made ++ [.processResponseMsg msg]) msg.seq msg.hash).length ≤
      D.minClientReceiveNum) : Uniform codec made msg := by
  obtain ⟨batchResponse, result⟩ := Option.ne_none_iff_exists'.mp delivered
  obtain ⟨-, parsed, -⟩ := (delivers_iff D codec msg _
    (after_tallying D codec clientBatchNum made) batchResponse).mp result
  have all := (Backing.length_le_card_backers_iff.mp (few.trans (sound batchResponse result))).1
  intro response member
  rw [parsed]
  exact of_decide_eq_true (all response member)

end ResponseManager

/-- What a proxy delivers is backed by `f + 1` replicas, for the common proxies just where all
the responses that are counted carry the results and come from different replicas, for that of
PBFT where all the responses for the request carry the results of the delivered one, and just
there as long as `f + 1` came. -/
theorem result_integrity_iff (n : ℕ) (codec : ResponseCodec) :
    (∀ made request,
      Client.ResponseManager.Sound codec (Config.minClientReceiveNum n) made request ↔
        Client.ResponseManager.Counts codec (Config.minClientReceiveNum n) made request) ∧
    (∀ networkDelayNum made request,
      Client.PerformanceManager.Sound codec (Config.minClientReceiveNum n) networkDelayNum made
          request ↔
        Client.PerformanceManager.Counts codec (Config.minClientReceiveNum n) networkDelayNum made
          request) ∧
    ∀ (D : Deployment) clientBatchNum made msg,
      (ResponseManager.Uniform codec made msg →
        ResponseManager.Sound D codec clientBatchNum made msg) ∧
      (((ResponseManager.after D codec clientBatchNum made).processResponseMsg D codec msg).1 ≠
          none →
        (ResponseManager.responsesFor (made ++ [.processResponseMsg msg]) msg.seq
          msg.hash).length ≤ D.minClientReceiveNum →
        ResponseManager.Sound D codec clientBatchNum made msg →
        ResponseManager.Uniform codec made msg) := by
  have positive : 0 < Config.minClientReceiveNum n := by
    rw [Config.minClientReceiveNum_eq]
    exact Nat.succ_pos _
  refine ⟨?_, ?_, ?_⟩
  · intro made request
    exact Client.ResponseManager.sound_iff_counts positive
  · intro networkDelayNum made request
    exact Client.PerformanceManager.sound_iff_counts positive made request
  · intro D clientBatchNum made msg
    constructor
    · exact ResponseManager.sound_of_uniform D codec clientBatchNum made msg
    · intro delivered few sound
      exact ResponseManager.uniform_of_sound D codec clientBatchNum made msg sound delivered few

/-- The data is the one result of the batch, whose local id is 1. -/
def sampleCodec : ResponseCodec := ⟨fun data => some { response := [data], localId := 1 }⟩

def sampleResponse (senderId : Int) (data : Bytes) : ResponseMsg :=
  { seq := 1, hash := [7], senderId, data }

/-- Four replicas, of which replica 4 is faulty and says `[9]`. The common proxies take its
word when it is repeated; that of PBFT takes it when replica 1 has responded, with `[5]`. -/
theorem result_of_one_replica :
    ¬ Client.ResponseManager.Sound sampleCodec (Config.minClientReceiveNum 4)
        [sampleResponse 4 [9]] (sampleResponse 4 [9]) ∧
    ¬ Client.PerformanceManager.Sound sampleCodec (Config.minClientReceiveNum 4) 0
        [.register, .processResponseMsg (sampleResponse 4 [9])] (sampleResponse 4 [9]) ∧
    ¬ ResponseManager.Sound sampleProxy sampleCodec 1
        [.processResponseMsg (sampleResponse 1 [5])] (sampleResponse 4 [9]) := by
  refine ⟨?_, ?_, ?_⟩
  · intro sound
    exact absurd (sound { response := [[9]], localId := 1 } (by decide)) (by decide)
  · intro sound
    exact absurd (sound { response := [[9]], localId := 1 } (by decide)) (by decide)
  · intro sound
    exact absurd (sound { response := [[9]], localId := 1 } (by decide)) (by decide)

end ResDB.Pbft
