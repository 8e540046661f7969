import ResDB.Client.PerformanceManager

/-! The proxy of the common framework, `ResponseManager`. It counts the responses for a
sequence number, whoever they come from and whatever they say, and delivers the one that
makes the count full. -/
namespace ResDB.Client

/-- `response` is the table `response_`; an absent number counts 0 and one that is done
counts -1. -/
structure ResponseManager where
  response : AssocMap ℕ Int := ∅
  sendNum : Int := 0

namespace ResponseManager
variable (codec : ResponseCodec) (minNum : ℕ) (m : ResponseManager) (request : ResponseMsg)

def addResponseMsg : CollectorResultCode × ResponseManager :=
  let count := (m.response.find request.seq).getD 0
  if count = -1 then (.ok, m)
  else if minNum ≤ count + 1 then
    (.stateChanged, { m with response := m.response.set request.seq (-1) })
  else (.ok, { m with response := m.response.set request.seq (count + 1) })

/-- `ProcessResponseMsg`, with the batch response it delivers. -/
def processResponseMsg : Option BatchUserResponse × ResponseManager :=
  if request.ret = -2 then (none, { m with sendNum := m.sendNum - 1 })
  else
    match m.addResponseMsg minNum request with
    | (.stateChanged, m) =>
        match codec.parse request.data with
        | some batchResponse => (some batchResponse, { m with sendNum := m.sendNum - 1 })
        | none => (none, m)
    | (_, m) => (none, m)

def after (made : List ResponseMsg) : ResponseManager :=
  made.foldl (fun m request => (m.processResponseMsg codec minNum request).2) {}

def responsesFor (made : List ResponseMsg) (seq : ℕ) : List ResponseMsg :=
  made.filter (fun request => request.ret ≠ -2 ∧ request.seq = seq)

variable {codec minNum}

theorem processResponseMsg_find (m : ResponseManager) (request : ResponseMsg)
    (counted : request.ret ≠ -2) (seq : ℕ) :
    ((m.processResponseMsg codec minNum request).2.response.find seq).getD 0 =
      ((m.addResponseMsg minNum request).2.response.find seq).getD 0 := by
  unfold processResponseMsg
  rw [if_neg counted]
  generalize m.addResponseMsg minNum request = result
  obtain ⟨code, m'⟩ := result
  cases code with
  | stateChanged =>
      dsimp only
      split <;> rfl
  | _ => rfl

theorem responsesFor_concat (made : List ResponseMsg) (request : ResponseMsg) (seq : ℕ) :
    responsesFor (made ++ [request]) seq =
      if request.ret ≠ -2 ∧ request.seq = seq then responsesFor made seq ++ [request]
      else responsesFor made seq := by
  rw [responsesFor, List.filter_append, List.filter_singleton]
  by_cases counted : request.ret ≠ -2 ∧ request.seq = seq
  · rw [if_pos counted, decide_eq_true counted, cond_true, responsesFor]
  · rw [if_neg counted, decide_eq_false counted, cond_false, List.append_nil, responsesFor]

/-- What the table of a number says when so many responses came. -/
def shown (minNum received : ℕ) : Int := if received < minNum then received else -1

theorem addResponseMsg_find (m : ResponseManager) (request : ResponseMsg) {received : ℕ}
    (count : (m.response.find request.seq).getD 0 = shown minNum received) (seq : ℕ) :
    ((m.addResponseMsg minNum request).2.response.find seq).getD 0 =
      if seq = request.seq then shown minNum (received + 1)
      else (m.response.find seq).getD 0 := by
  unfold addResponseMsg
  dsimp only
  rw [count]
  unfold shown
  by_cases waiting : received < minNum
  · rw [if_pos waiting, if_neg (by omega)]
    by_cases full : (minNum : Int) ≤ received + 1
    · rw [if_pos full, AssocMap.find_set, if_neg (show ¬ received + 1 < minNum by omega)]
      split_ifs <;> rfl
    · rw [if_neg full, AssocMap.find_set, if_pos (show received + 1 < minNum by omega)]
      split_ifs <;> rfl
  · rw [if_neg waiting, if_pos rfl, if_neg (show ¬ received + 1 < minNum by omega)]
    split_ifs with same
    · rw [same, count, shown, if_neg waiting]
    · rfl

theorem count_after (codec : ResponseCodec) (positive : 0 < minNum) (made : List ResponseMsg) :
    ∀ seq, ((after codec minNum made).response.find seq).getD 0 =
      shown minNum (responsesFor made seq).length := by
  induction made using List.reverseRecOn with
  | nil =>
      intro seq
      exact (if_pos positive).symm
  | append_singleton made request ih =>
      intro seq
      rw [after, List.foldl_concat, responsesFor_concat]
      change ((processResponseMsg codec minNum (after codec minNum made) request).2.response.find
        seq).getD 0 = _
      by_cases rejected : request.ret = -2
      · rw [processResponseMsg, if_pos rejected, if_neg (fun both => both.1 rejected)]
        exact ih seq
      · rw [processResponseMsg_find _ _ rejected, addResponseMsg_find _ _ (ih request.seq)]
        by_cases same : seq = request.seq
        · rw [if_pos same, if_pos ⟨rejected, same.symm⟩, List.length_append, same]
          rfl
        · rw [if_neg same, if_neg (fun both => same both.2.symm)]
          exact ih seq

theorem delivers_iff (positive : 0 < minNum) (made : List ResponseMsg) (request : ResponseMsg)
    (batchResponse : BatchUserResponse) :
    ((after codec minNum made).processResponseMsg codec minNum request).1 = some batchResponse ↔
      request.ret ≠ -2 ∧ (responsesFor made request.seq).length + 1 = minNum ∧
        codec.parse request.data = some batchResponse := by
  have count := count_after codec positive made request.seq
  unfold processResponseMsg addResponseMsg
  by_cases rejected : request.ret = -2
  · simp [rejected]
  · rw [if_neg rejected]
    dsimp only
    rw [count, shown]
    by_cases waiting : (responsesFor made request.seq).length < minNum
    · rw [if_pos waiting, if_neg (by omega)]
      by_cases full : (minNum : Int) ≤ (responsesFor made request.seq).length + 1
      · rw [if_pos full]
        have total : (responsesFor made request.seq).length + 1 = minNum := by omega
        cases parsed : codec.parse request.data with
        | none => simp
        | some b => simp [rejected, total]
      · rw [if_neg full]
        have total : (responsesFor made request.seq).length + 1 ≠ minNum := by omega
        simp [total]
    · rw [if_neg waiting, if_pos rfl]
      have total : (responsesFor made request.seq).length + 1 ≠ minNum := by omega
      simp [total]

end ResponseManager
end ResDB.Client
