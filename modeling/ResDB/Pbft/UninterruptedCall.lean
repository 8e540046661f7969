import ResDB.Pbft.CollectorThreads
import ResDB.Pbft.DeliveryOrder

/-! A call that no other one interrupts does what `Collector.addRequest` says: the model in
which a call is one transition is that of the threads, restricted to runs that finish each call
before they enter the next. -/
namespace ResDB.Pbft.Shared

/-- Between two calls: the mutex is free, the place of the main request is free or set, and no
execution is pending. -/
@[mk_iff]
structure AtRest (s : Shared) : Prop where
  mutex : s.mutex = none
  flag : s.flag = if s.mainRequest = none then 0 else 2
  moved : s.moved = s.isCommitted
  status : s.status ≠ .readyExecute

/-- The call has come to its end with this result, and left the collector at rest. -/
@[mk_iff]
structure Does (executed : List Request) (result : Collector × AddResult) (p : Shared × Call) :
    Prop where
  collector : p.1.toCollector = result.1
  ret : p.2.pc = .returned result.2.ret
  changed : p.2.changed = result.2.changed
  executed : p.1.executed = executed ++ result.2.handed.toList
  rest : p.1.AtRest

section Alone
variable {quorum : ℕ} {enableViewchange : Bool} {t : ℕ} {s : Shared} {info : RequestInfo}

theorem noteCert_eq (c : Collector) (info : RequestInfo) : c.noteCert info =
    if Call.carriesCert { info } then
      { c with commitCerts := c.commitCerts ++ info.request.dataSignature.toList } else c := by
  unfold Collector.noteCert
  split
  · rename_i sign commits found
    simp [Call.carriesCert, Call.type, commits, found]
  · rename_i plain
    rw [if_neg]
    intro carries
    obtain ⟨commits, signed⟩ := of_decide_eq_true carries
    obtain ⟨sign, found, -⟩ := (Option.any_eq_true _ _).mp signed
    exact plain sign commits found

/-! The steps of a call that is alone are carried out symbolically. The cases are the outcomes of
the tests that it makes. -/

theorem alone_main (rest : s.AtRest) (pre : info.request.type = .prePrepare)
    (uncommitted : s.isCommitted = false) :
    Does s.executed (s.addMain quorum info) ((collectorProgram quorum enableViewchange).alone t 12
      (s, { info, pc := .loadForce })) := by
  obtain ⟨mutex, flag, moved, status⟩ := rest
  cases force : s.force info <;> cases main : s.mainRequest <;>
    by_cases fresh : s.status = .none <;>
    simp [does_iff, atRest_iff, Threads.Program.alone, collectorProgram, step, Call.type, Call.goto,
      Call.afterCallback, due, reference, Collector.addMain, mayConsensusChangeStatus, pre, force,
      main, fresh, mutex, flag, moved, status, uncommitted]

theorem alone_vote (rest : s.AtRest) (uncommitted : s.isCommitted = false)
    (other : info.request.type ≠ .prePrepare)
    (off : Call.keepsProof enableViewchange { info } = false) :
    Does s.executed (s.addVote quorum info) ((collectorProgram quorum enableViewchange).alone t 16
      (s, { info, pc := Call.branch enableViewchange { info } })) := by
  obtain ⟨mutex, flag, moved, status⟩ := rest
  cases type : info.request.type with
  | prePrepare => exact absurd type other
  | prepare =>
      have kept : enableViewchange = false := by simpa [Call.keepsProof, Call.type, type] using off
      by_cases ready : s.status = .readyPrepare ∧ quorum ≤
          (Collector.setBit info.request.senderId (s.senders .prepare info.request.hash)).card <;>
        simp [does_iff, atRest_iff, Threads.Program.alone, collectorProgram, step, lock, countVote,
          Call.branch, Call.keepsProof, Call.carriesCert, Call.type, Call.goto, Call.afterCallback,
          Collector.addVote, Collector.noteCert, Collector.addSender, Collector.received, due,
          mayConsensusChangeStatus, type, kept, ready, mutex, flag, moved, status]
  | commit =>
      by_cases ready : s.status = .readyCommit ∧ quorum ≤
          (Collector.setBit info.request.senderId (s.senders .commit info.request.hash)).card <;>
        cases carries : Call.carriesCert { info } <;> cases main : s.mainRequest <;>
        simp [does_iff, atRest_iff, Threads.Program.alone, collectorProgram, step, lock, countVote,
          Call.branch, Call.keepsProof, Call.type, Call.goto, Call.afterCallback, noteCert_eq,
          Collector.addVote, Collector.commit, Collector.addSender, Collector.received, reference,
          due, mayConsensusChangeStatus, type, ready, carries, main, mutex, flag, moved, status,
          uncommitted]
  | _ =>
      simp [does_iff, atRest_iff, Threads.Program.alone, collectorProgram, step, lock, countVote,
        Call.branch, Call.keepsProof, Call.carriesCert, Call.type, Call.goto, Call.afterCallback,
        Collector.addVote, Collector.noteCert, Collector.addSender, due, mayConsensusChangeStatus,
        type, mutex, flag, moved, status]

theorem alone_prepare (rest : s.AtRest) (uncommitted : s.isCommitted = false)
    (prepare : info.request.type = .prepare) (on : enableViewchange = true) :
    Does s.executed (s.addPrepare quorum info)
      ((collectorProgram quorum enableViewchange).alone t 20 (s, { info, pc := .loadStatus })) := by
  obtain ⟨mutex, flag, moved, status⟩ := rest
  by_cases early : s.status.rank ≤ Status.readyPrepare.rank
  · have unready : s.status ≠ .readyCommit := by
      intro reached
      rw [reached] at early
      exact absurd early (by decide)
    cases prepared : s.isPrepared with
    | true =>
        simp [does_iff, atRest_iff, Threads.Program.alone, collectorProgram, step, lock,
          Call.keepsProof, Call.type, Call.goto, Collector.addPrepare, prepare, on, early,
          prepared, mutex, flag, moved, status]
    | false =>
        by_cases ready : s.status = .readyPrepare ∧ quorum ≤
            (Collector.setBit info.request.senderId (s.senders .prepare info.request.hash)).card
        · cases main : s.mainRequest with
          | none =>
              simp [does_iff, atRest_iff, Threads.Program.alone, collectorProgram, step, lock,
                Call.keepsProof, Call.type, Call.goto, Call.afterCallback, countVote, due,
                reference, Collector.addPrepare, Collector.addSender, Collector.received,
                Collector.settle, mayConsensusChangeStatus, prepare, on, ready, prepared, main,
                mutex, flag, moved]
          | some held =>
              by_cases same : held.request.hash = info.request.hash <;>
                cases found : s.otherMainRequest.find? (fun other =>
                  other.request.hash = info.request.hash) <;>
                simp [does_iff, atRest_iff, Threads.Program.alone, collectorProgram, step, lock,
                  Call.keepsProof, Call.type, Call.goto, Call.afterCallback, countVote, due,
                  reference, searchOthers, Collector.addPrepare, Collector.addSender,
                  Collector.received, Collector.settle, mayConsensusChangeStatus, prepare, on,
                  ready, prepared, main, same, found, mutex, flag, moved, uncommitted]
        · simp [does_iff, atRest_iff, Threads.Program.alone, collectorProgram, step, lock,
            Call.keepsProof, Call.type, Call.goto, Call.afterCallback, countVote, due,
            Collector.addPrepare, Collector.addSender, Collector.received,
            mayConsensusChangeStatus, prepare, on, early, ready, unready, prepared, mutex, flag,
            moved, status]
  · simp [does_iff, atRest_iff, Threads.Program.alone, collectorProgram, step, Call.goto,
      Collector.addPrepare, early, mutex, flag, moved, status]

theorem alone_open (fuel : ℕ) (uncommitted : s.isCommitted = false)
    (waiting : s.status ≠ .executed) (own : s.seq = info.request.seq) :
    (collectorProgram quorum enableViewchange).alone t (fuel + 2) (s, { info }) =
      (collectorProgram quorum enableViewchange).alone t fuel
        (s, { info, pc := Call.branch enableViewchange { info } }) := by
  have first : (collectorProgram quorum enableViewchange).step t s { info } =
      some (s, { info, pc := .loadExecuted }) := by
    simp [collectorProgram, step, Call.goto, uncommitted]
  have second : (collectorProgram quorum enableViewchange).step t s
      { info, pc := .loadExecuted } =
        some (s, { info, pc := Call.branch enableViewchange { info } }) := by
    simp only [collectorProgram, step, if_neg waiting, if_neg (not_not.mpr own)]
    rfl
  simp only [Threads.Program.alone, first, second]

theorem alone_addRequest (rest : s.AtRest) (info : RequestInfo) :
    ∃ fuel, Does s.executed (s.addRequest quorum enableViewchange info)
      ((collectorProgram quorum enableViewchange).alone t fuel (s, { info })) := by
  unfold Collector.addRequest
  split_ifs with committed done foreign pre kept
  · refine ⟨1, ?_⟩
    simp [does_iff, Threads.Program.alone, collectorProgram, step, Call.goto, committed, rest]
  · refine ⟨2, ?_⟩
    simp [does_iff, Threads.Program.alone, collectorProgram, step, Call.goto, committed, done, rest]
  · refine ⟨2, ?_⟩
    simp [does_iff, Threads.Program.alone, collectorProgram, step, Call.goto, committed, done,
      foreign, rest]
  all_goals have uncommitted := Bool.eq_false_iff.mpr committed
  · refine ⟨12 + 2, ?_⟩
    rw [alone_open 12 uncommitted done (not_not.mp foreign)]
    simpa [Call.branch, Call.type, pre] using alone_main rest pre uncommitted
  · refine ⟨20 + 2, ?_⟩
    rw [alone_open 20 uncommitted done (not_not.mp foreign)]
    simpa [Call.branch, Call.type, Call.keepsProof, kept] using
      alone_prepare rest uncommitted kept.2 kept.1
  · refine ⟨16 + 2, ?_⟩
    rw [alone_open 16 uncommitted done (not_not.mp foreign)]
    exact alone_vote rest uncommitted pre (decide_eq_false kept)

end Alone

theorem through_of_returned {quorum : ℕ} {enableViewchange : Bool} {call : Call} {ret : Int}
    (back : call.pc = .returned ret) :
    (collectorProgram quorum enableViewchange).through call = true := by
  simp only [collectorProgram, back]

theorem carried_through {quorum : ℕ} {enableViewchange : Bool}
    {s : Threads.State Shared Call RequestInfo} (rest : s.shared.AtRest)
    (through : (s.locals 0).all (collectorProgram quorum enableViewchange).through = true)
    (info : RequestInfo) :
    ∃ actions s', Run.exec (collectorProgram quorum enableViewchange).next s actions = some s' ∧
      (s'.locals 0).all (collectorProgram quorum enableViewchange).through = true ∧
      s'.made = s.made ++ [info] ∧ s'.shared.AtRest ∧
      s'.shared.toCollector = (s.shared.addRequest quorum enableViewchange info).1 ∧
      s'.shared.executed = s.shared.executed ++
        (s.shared.addRequest quorum enableViewchange info).2.handed.toList := by
  obtain ⟨fuel, does⟩ : ∃ fuel, Does s.shared.executed
      (s.shared.addRequest quorum enableViewchange info)
      ((collectorProgram quorum enableViewchange).alone 0 fuel (s.shared, { info })) :=
    alone_addRequest rest info
  have entered : (collectorProgram quorum enableViewchange).next s (.enter 0 info) =
      some { s with
        locals := Function.update s.locals 0 (some { info })
        made := s.made ++ [info] } := if_pos through
  obtain ⟨n, ran⟩ := (collectorProgram quorum enableViewchange).exec_alone
    (s := { s with
      locals := Function.update s.locals 0 (some { info }), made := s.made ++ [info] })
    (Function.update_self ..) fuel
  refine ⟨.enter 0 info :: List.replicate n (.step 0), _,
    (Run.exec_cons_of_step _ entered).trans ran, ?_, rfl, does.rest, does.collector,
    does.executed⟩
  simp only [Function.update_self, Option.all_some]
  exact through_of_returned does.ret

/-- The calls of a list, each carried through before the next is made, are a run of the threads.
Then the collector is what `AddRequest` makes of it call by call, and so is what was executed. -/
theorem uninterrupted_calls (quorum : ℕ) (enableViewchange : Bool) (seq : ℕ)
    (calls : List RequestInfo) :
    ∃ actions s, Run.exec (collectorProgram quorum enableViewchange).next { shared := { seq } }
        actions = some s ∧ s.made = calls ∧
      s.shared.toCollector = Collector.after quorum enableViewchange seq calls ∧
      s.shared.executed = Collector.handedOver quorum enableViewchange seq calls := by
  suffices whole : ∃ actions s, Run.exec (collectorProgram quorum enableViewchange).next
        { shared := { seq } } actions = some s ∧
      (s.locals 0).all (collectorProgram quorum enableViewchange).through = true ∧
      s.shared.AtRest ∧ s.made = calls ∧
      s.shared.toCollector = Collector.after quorum enableViewchange seq calls ∧
      s.shared.executed = Collector.handedOver quorum enableViewchange seq calls by
    obtain ⟨actions, s, ran, -, -, facts⟩ := whole
    exact ⟨actions, s, ran, facts⟩
  induction calls using List.reverseRecOn with
  | nil => exact ⟨[], _, rfl, rfl, ⟨rfl, rfl, rfl, nofun⟩, rfl, rfl, rfl⟩
  | append_singleton calls info ih =>
      obtain ⟨actions, s, ran, through, rest, made, collector, executed⟩ := ih
      obtain ⟨more, s', ran', through', made', rest', collector', executed'⟩ :=
        carried_through rest through info
      refine ⟨actions ++ more, s', (Run.exec_append more ran).trans ran', through', rest',
        ?_, ?_, ?_⟩
      · rw [made', made]
      · rw [collector', collector, Collector.after_concat]
      · rw [executed', executed, collector, Collector.handedOver_concat]

end ResDB.Pbft.Shared
