import ResDB.Execution.Preparation
import ResDB.Library.Tokens

/-! Preparation is not observable. Whatever the interleaving of the callers of `Prepare` with the
preparing, the executing and the collecting thread, no assertion fails, nothing is read that is not
there, and each request is executed in its turn with the batch it would have been parsed to then. -/
namespace ResDB.Execution

/-- How far a uid has come: from the entry that `AddFuture` makes for it, over the batch that the
preparing thread stores, to the thread that executes it and the one that frees it. -/
inductive Phase where
  | fresh
  | pending
  | stored
  | valued
  | ready
  | taken
  | promised
  | cleared
  | spent
  | dropped
  | released
  deriving DecidableEq

namespace Phase

def promise : Phase → Option Promise
  | .fresh | .cleared | .spent | .dropped | .released => none
  | .pending | .stored => some {}
  | .valued | .ready | .taken => some ⟨true, false⟩
  | .promised => some ⟨true, true⟩

def ended : Phase → Bool
  | .ready | .taken | .promised => true
  | .fresh | .pending | .stored | .valued | .cleared | .spent | .dropped | .released => false

/-- The batch that is there: none that matters, the one that was parsed, or one that was used. -/
def Content {U : Type} (made : Batch U → Prop) (e : Entries U) : Phase → Prop
  | .fresh | .pending | .released => True
  | .stored | .valued | .ready | .taken | .promised | .cleared =>
      e.data = true ∧ ∃ b, e.req = some b ∧ made b
  | .spent | .dropped => e.data = true ∧ e.req.isSome

end Phase

variable {U : Type} {parse : Bytes → Batch U}

/-- Whether `SetFlag` was called with `End_Prepare`. -/
def Entries.ended (e : Entries U) : Bool := e.flags.any (fun flags => flags.endPrepare)

structure Fits (made : Batch U → Prop) (e : Entries U) (ph : Phase) : Prop where
  promise : e.promise = ph.promise
  ended : e.ended = ph.ended
  content : ph.Content made e

section SetFlag
variable {e : Entries U} {made : Batch U → Prop} {ph : Phase}

theorem setFlag_fst (e : Entries U) (f : PrepareType) :
    ∃ flags, (e.setFlag f).1 = { e with flags := flags } ∧
      (e.setFlag f).1.ended = (e.ended || f = .endPrepare) := by
  rw [Entries.setFlag]
  cases found : e.flags with
  | none => exact ⟨_, rfl, by cases f <;> simp [Entries.ended, found, Flags.set]⟩
  | some flags =>
      dsimp only
      split
      · refine ⟨e.flags, rfl, ?_⟩
        cases f <;> simp_all [Flags.refuses, Entries.ended]
      · exact ⟨_, rfl, by cases f <;> simp [Entries.ended, found, Flags.set]⟩

theorem setFlag_startExecute (e : Entries U) : (e.setFlag .startExecute).2 = !e.ended := by
  rw [Entries.setFlag, Entries.ended]
  cases e.flags with
  | none => rfl
  | some flags =>
      cases ended : flags.endPrepare <;> simp [Flags.refuses, ended]

theorem Fits.setFlag (fits : Fits made e ph) (f : PrepareType) {next : Phase}
    (promise : next.promise = ph.promise) (ended : next.ended = (ph.ended || f = .endPrepare))
    (content : ph.Content made e → next.Content made e) : Fits made (e.setFlag f).1 next := by
  obtain ⟨flags, same, last⟩ := setFlag_fst e f
  refine ⟨?_, last.trans (by rw [fits.ended, ended]), ?_⟩
  · rw [same, promise]
    exact fits.promise
  · rw [same]
    have kept := content fits.content
    cases next <;> exact kept

theorem Fits.mono {others : Batch U → Prop} (fits : Fits made e ph)
    (more : ∀ b, made b → others b) : Fits others e ph := by
  refine ⟨fits.promise, fits.ended, ?_⟩
  have content := fits.content
  cases ph with
  | fresh | pending | released => trivial
  | stored | valued | ready | taken | promised | cleared =>
      obtain ⟨data, b, found, mine⟩ := content
      exact ⟨data, b, found, more b mine⟩
  | spent | dropped => exact content

end SetFlag

def Preparer.current : Preparer → List ExecRequest
  | .idle => []
  | .popped r | .flagged r | .holding r | .stored r | .valued r => [r]

def Preparer.phase : Preparer → Phase
  | .idle | .popped _ | .flagged _ | .holding _ => .pending
  | .stored _ => .stored
  | .valued _ => .valued

/-- The request that the executing thread still has to execute. -/
def Executing.current : Executing → List ExecRequest
  | .idle | .done _ => []
  | .popped r | .plain r | .waiting r | .future r | .ready r | .found r | .cleared r => [r]

/-- The token of the uid whose preparation the executing thread goes by. -/
def Executing.token : Executing → List (ℕ × Phase)
  | .idle | .popped _ | .plain _ => []
  | .waiting r => [(r.uid, .taken)]
  | .future r | .ready r | .found r => [(r.uid, .promised)]
  | .cleared r => [(r.uid, .cleared)]
  | .done r => [(r.uid, .spent)]

/-- How far the executing thread is from the next request. -/
def Executing.rank : Executing → ℕ
  | .idle => 0
  | .plain _ => 1
  | .done _ => 2
  | .cleared _ => 3
  | .found _ => 4
  | .ready _ => 5
  | .future _ => 6
  | .waiting _ => 7
  | .popped _ => 8

def Collecting.token : Collecting → List (ℕ × Phase)
  | .idle => []
  | .popped u | .emptied u => [(u, .dropped)]

namespace Preparation

/-- The tokens that are with the executing thread, and those that are elsewhere. -/
def elsewhere (s : Preparation U) : List (ℕ × Phase) :=
  (s.entering ++ s.prepareQueue).map (fun r => (r.uid, Phase.pending)) ++
    s.preparer.current.map (fun r => (r.uid, s.preparer.phase)) ++
    (s.gcQueue.map (fun u => (u, Phase.dropped)) ++ s.collecting.token)

def tokens (s : Preparation U) : List (ℕ × Phase) := s.executing.token ++ s.elsewhere

def Made (parse : Bytes → Batch U) (s : Preparation U) (u : ℕ) (b : Batch U) : Prop :=
  ∃ p ∈ s.prepared, p.uid = u ∧ b = batchOf parse p

structure Valid (parse : Bytes → Batch U) (phase : ℕ → Phase) (s : Preparation U) : Prop where
  sound : s.broken = false
  fits : ∀ u, Fits (s.Made parse u) (s.entries u) (phase u)
  fresh : ∀ u, phase u ≠ .fresh → ∃ p ∈ s.prepared, p.uid = u
  known : ∀ r ∈ s.entering ++ s.prepareQueue ++ s.preparer.current, r ∈ s.prepared
  owned : Tokens.Owned phase s.tokens
  executing : ∀ u, phase u = .taken ∨ phase u = .promised → (u, phase u) ∈ s.executing.token
  log : ∀ e ∈ s.executed, e.2 = batchOf parse e.1 ∨
    ∃ b, s.Made parse e.1.uid b ∧ e.2 = b.reuse e.1
  order : s.executed.map Prod.fst ++ s.executing.current ++ s.executeQueue = s.committed

namespace Valid
variable {phase : ℕ → Phase} {s s' : Preparation U} {u : ℕ}

theorem move (valid : Valid parse phase s) {ph : Phase} {e : Entries U}
    (entries : s'.entries = Function.update s.entries u e)
    (here : Fits (s'.Made parse u) e ph) (sound : s'.broken = s.broken)
    (prepared : ∀ p ∈ s.prepared, p ∈ s'.prepared) (origin : ∃ p ∈ s'.prepared, p.uid = u)
    (known : ∀ r ∈ s'.entering ++ s'.prepareQueue ++ s'.preparer.current, r ∈ s'.prepared)
    (owned : Tokens.Owned (Function.update phase u ph) s'.tokens)
    (executing : ∀ v, Function.update phase u ph v = .taken ∨
      Function.update phase u ph v = .promised →
        (v, Function.update phase u ph v) ∈ s'.executing.token)
    (log : ∀ x ∈ s'.executed, x.2 = batchOf parse x.1 ∨
      ∃ b, s'.Made parse x.1.uid b ∧ x.2 = b.reuse x.1)
    (order : s'.executed.map Prod.fst ++ s'.executing.current ++ s'.executeQueue = s'.committed) :
    Valid parse (Function.update phase u ph) s' := by
  refine ⟨sound.trans valid.sound, fun v => ?_, fun v stale => ?_, known, owned, executing, log,
    order⟩
  · rw [entries]
    by_cases same : v = u
    · subst same
      rw [Function.update_self, Function.update_self]
      exact here
    · rw [Function.update_of_ne same, Function.update_of_ne same]
      exact (valid.fits v).mono (fun b ⟨p, member, rest⟩ => ⟨p, prepared p member, rest⟩)
  · by_cases same : v = u
    · subst same
      exact origin
    · rw [Function.update_of_ne same] at stale
      obtain ⟨p, member, name⟩ := valid.fresh v stale
      exact ⟨p, prepared p member, name⟩

theorem executing_update (valid : Valid parse phase s) {ph : Phase}
    (free : ph ≠ .taken ∧ ph ≠ .promised) (v : ℕ)
    (either : Function.update phase u ph v = .taken ∨ Function.update phase u ph v = .promised) :
    (v, Function.update phase u ph v) ∈ s.executing.token := by
  by_cases same : v = u
  · subst same
    rw [Function.update_self] at either
    exact absurd either (not_or.mpr free)
  · rw [Function.update_of_ne same] at either ⊢
    exact valid.executing v either

theorem tokens_preparer (s : Preparation U) :
    s.tokens.Perm (s.preparer.current.map (fun r => (r.uid, s.preparer.phase)) ++
      (s.executing.token ++ ((s.entering ++ s.prepareQueue).map (fun r => (r.uid, Phase.pending)) ++
        (s.gcQueue.map (fun u => (u, Phase.dropped)) ++ s.collecting.token)))) := by
  refine List.perm_iff_count.mpr (fun t => ?_)
  simp only [tokens, elsewhere, List.count_append]
  omega

theorem preparer_move (valid : Valid parse phase s) {r : ExecRequest} {t : Preparer}
    {e : Entries U} (ph : Phase) {now : Preparer} (pc : s.preparer = now)
    (current : now.current = [r]) (here : Fits (s.Made parse r.uid) e ph)
    (free : ph ≠ .taken ∧ ph ≠ .promised) (next : t.current = [r] ∧ t.phase = ph ∨ t.current = []) :
    Valid parse (Function.update phase r.uid ph) { s.put r.uid e with preparer := t } := by
  have mine : r ∈ s.prepared := valid.known r (by rw [pc, current]; simp)
  have owned := valid.owned.perm (tokens_preparer s)
  rw [pc, current] at owned
  obtain ⟨rest, off⟩ := owned.tail
  have moved := rest.update off ph
  refine valid.move rfl here rfl (fun _ old => old) ⟨r, mine, rfl⟩ (fun q member => ?_) ?_
    (valid.executing_update free) valid.log valid.order
  · rcases List.mem_append.mp member with queued | now
    · exact valid.known q (List.mem_append_left _ queued)
    · rcases next with ⟨same, -⟩ | none
      · dsimp only at now
        rw [same] at now
        rwa [List.mem_singleton.mp now]
      · dsimp only at now
        rw [none] at now
        cases now
  · refine Tokens.Owned.perm ?_ (tokens_preparer _).symm
    rcases next with ⟨same, name⟩ | none
    · dsimp only
      rw [same, name]
      exact moved.2
    · dsimp only
      rw [none]
      exact moved.1

theorem executor_move (valid : Valid parse phase s) {r : ExecRequest} {t : Executing}
    {e : Entries U} (ph : Phase) {executed : List (ExecRequest × Batch U)}
    (off : r.uid ∉ s.elsewhere.map Prod.fst) (within : ∀ x ∈ s.executing.token, x.1 = r.uid)
    (here : Fits (s.Made parse r.uid) e ph) (next : t.token = [(r.uid, ph)])
    (stale : phase r.uid ≠ .fresh)
    (log : ∀ x ∈ executed, x.2 = batchOf parse x.1 ∨
      ∃ b, s.Made parse x.1.uid b ∧ x.2 = b.reuse x.1)
    (order : executed.map Prod.fst ++ t.current = s.executed.map Prod.fst ++ s.executing.current) :
    Valid parse (Function.update phase r.uid ph)
      { s.put r.uid e with executing := t, executed := executed } := by
  have owned : Tokens.Owned phase s.elsewhere := valid.owned.right
  refine valid.move rfl here rfl (fun _ old => old) (valid.fresh _ stale) valid.known ?_ ?_ log ?_
  · show Tokens.Owned _ (t.token ++ s.elsewhere)
    rw [next]
    exact (owned.update off ph).2
  · intro v either
    show (v, _) ∈ t.token
    rw [next]
    by_cases same : v = r.uid
    · subst same
      rw [Function.update_self]
      exact List.mem_singleton_self _
    · rw [Function.update_of_ne same] at either
      exact absurd (within _ (valid.executing v either)) same
  · show executed.map Prod.fst ++ t.current ++ s.executeQueue = s.committed
    rw [order]
    exact valid.order

theorem preparer_fits (valid : Valid parse phase s) {r : ExecRequest} {t : Preparer}
    (pc : s.preparer = t) (current : t.current = [r]) :
    Fits (s.Made parse r.uid) (s.entries r.uid) t.phase := by
  subst pc
  have fits := valid.fits r.uid
  have token : (r.uid, s.preparer.phase) ∈ s.tokens := by
    refine (tokens_preparer s).mem_iff.mpr (List.mem_append_left _ ?_)
    rw [current]
    exact List.mem_singleton_self _
  rwa [valid.owned.named _ token] at fits

theorem executor_fits (valid : Valid parse phase s) {ph : Phase} {t : Executing}
    (pc : s.executing = t) (token : t.token = [(u, ph)]) :
    Fits (s.Made parse u) (s.entries u) ph ∧ phase u = ph ∧ u ∉ s.elsewhere.map Prod.fst := by
  have owned := valid.owned
  rw [tokens, pc, token] at owned
  have here : phase u = ph := owned.named _ List.mem_cons_self
  have fits := valid.fits u
  rw [here] at fits
  exact ⟨fits, here, owned.tail.2⟩

theorem same_tokens (valid : Valid parse phase s) (entries : s'.entries = s.entries)
    (sound : s'.broken = s.broken) (prepared : s'.prepared = s.prepared)
    (known : ∀ r ∈ s'.entering ++ s'.prepareQueue ++ s'.preparer.current, r ∈ s.prepared)
    (tokens : s.tokens.Perm s'.tokens) (executing : s'.executing.token = s.executing.token)
    (log : ∀ x ∈ s'.executed, x.2 = batchOf parse x.1 ∨
      ∃ b, s'.Made parse x.1.uid b ∧ x.2 = b.reuse x.1)
    (order : s'.executed.map Prod.fst ++ s'.executing.current ++ s'.executeQueue = s'.committed) :
    Valid parse phase s' := by
  have made : s'.Made parse = s.Made parse := by
    funext v b
    rw [Made, Made, prepared]
  refine ⟨sound.trans valid.sound, ?_, ?_, ?_, valid.owned.perm tokens, ?_, log, order⟩
  · rw [made, entries]
    exact valid.fits
  · rw [prepared]
    exact valid.fresh
  · rw [prepared]
    exact known
  · rw [executing]
    exact valid.executing

theorem prepareMessage (valid : Valid parse phase s)
    (taken : s.prepareMessage parse = some s') : ∃ phase', Valid parse phase' s' := by
  unfold Preparation.prepareMessage at taken
  cases pc : s.preparer with
  | idle =>
      rw [pc] at taken
      cases queue : s.prepareQueue with
      | nil =>
          rw [queue] at taken
          cases taken
      | cons r rest =>
          rw [queue] at taken
          cases taken
          refine ⟨phase, valid.same_tokens rfl rfl rfl (fun q member => valid.known q ?_) ?_ rfl
            valid.log valid.order⟩
          · rw [queue, pc]
            simpa [Preparer.current, or_comm, or_assoc, or_left_comm] using member
          · refine List.perm_iff_count.mpr (fun t => ?_)
            simp only [tokens, elsewhere, queue, pc, Preparer.current, Preparer.phase,
              List.count_append, List.map_append, List.map_cons, List.map_nil, List.count_cons,
              List.count_nil]
            omega
  | popped r =>
      have fits := valid.preparer_fits pc rfl
      rw [pc] at taken
      cases taken
      refine ⟨_, valid.preparer_move .pending pc rfl (fits.setFlag _ rfl rfl id)
        ⟨by decide, by decide⟩ ?_⟩
      split
      · exact .inl ⟨rfl, rfl⟩
      · exact .inr rfl
  | flagged r =>
      have fits := valid.preparer_fits pc rfl
      rw [pc] at taken
      dsimp only at taken
      rw [fits.promise] at taken
      cases taken
      have moved := valid.preparer_move (t := .holding r) .pending pc rfl fits
        ⟨by decide, by decide⟩ (.inl ⟨rfl, rfl⟩)
      rw [put, Function.update_eq_self] at moved
      exact ⟨_, moved⟩
  | holding r =>
      have fits := valid.preparer_fits pc rfl
      have mine : r ∈ s.prepared := valid.known r (by rw [pc]; simp [Preparer.current])
      rw [pc] at taken
      cases taken
      exact ⟨_, valid.preparer_move .stored pc rfl
        ⟨fits.promise, fits.ended, rfl, _, rfl, r, mine, rfl, rfl⟩ ⟨by decide, by decide⟩
        (.inl ⟨rfl, rfl⟩)⟩
  | stored r =>
      have fits := valid.preparer_fits pc rfl
      rw [pc] at taken
      dsimp only at taken
      rw [fits.promise] at taken
      cases taken
      exact ⟨_, valid.preparer_move .valued pc rfl
        ⟨rfl, fits.ended, fits.content⟩ ⟨by decide, by decide⟩ (.inl ⟨rfl, rfl⟩)⟩
  | valued r =>
      have fits := valid.preparer_fits pc rfl
      rw [pc] at taken
      cases taken
      exact ⟨_, valid.preparer_move .ready pc rfl
        (fits.setFlag _ rfl rfl id) ⟨by decide, by decide⟩ (.inr rfl)⟩

theorem execute_plain (valid : Valid parse phase s) {r : ExecRequest}
    (popped : s.executing = .popped r) :
    ∃ phase', Valid parse phase'
      { s.put r.uid ((s.entries r.uid).setFlag .startExecute).1 with executing := .plain r } := by
  have fits := valid.fits r.uid
  have order := valid.order
  have none : ∀ u, ¬ (phase u = .taken ∨ phase u = .promised) := by
    intro u either
    have token := valid.executing u either
    rw [popped] at token
    cases token
  have made := fits.setFlag .startExecute rfl (by simp) id
  rw [popped] at order
  refine ⟨phase, { valid with fits := fun v => ?_, owned := ?_, executing := ?_, order := order }⟩
  · by_cases same : v = r.uid
    · subst same
      dsimp only [put]
      rw [Function.update_self]
      exact made
    · dsimp only [put]
      rw [Function.update_of_ne same]
      exact valid.fits v
  · have owned := valid.owned
    rw [tokens, popped] at owned
    exact owned
  · exact fun u either => absurd either (none u)

theorem eq_ready (valid : Valid parse phase s) {r : ExecRequest} (popped : s.executing = .popped r)
    (ended : (s.entries r.uid).ended = true) : phase r.uid = .ready := by
  have fits := (valid.fits r.uid).ended
  have token := valid.executing r.uid
  rw [popped] at token
  rw [ended] at fits
  cases here : phase r.uid with
  | ready => rfl
  | taken => exact absurd (token (.inl here)) List.not_mem_nil
  | promised => exact absurd (token (.inr here)) List.not_mem_nil
  | fresh | pending | stored | valued | cleared | spent | dropped | released =>
      rw [here] at fits
      cases fits

theorem elsewhere_ne (s : Preparation U) (x : ℕ × Phase) (member : x ∈ s.elsewhere) :
    x.2 ≠ .fresh ∧ x.2 ≠ .ready := by
  rw [elsewhere, List.mem_append, List.mem_append, List.mem_append] at member
  rcases member with (queued | preparing) | (garbage | collecting)
  · obtain ⟨r, -, rfl⟩ := List.mem_map.mp queued
    exact ⟨Phase.noConfusion, Phase.noConfusion⟩
  · obtain ⟨r, -, rfl⟩ := List.mem_map.mp preparing
    cases s.preparer <;> exact ⟨Phase.noConfusion, Phase.noConfusion⟩
  · obtain ⟨v, -, rfl⟩ := List.mem_map.mp garbage
    exact ⟨Phase.noConfusion, Phase.noConfusion⟩
  · cases pc : s.collecting with
    | idle =>
        rw [pc] at collecting
        cases collecting
    | popped v | emptied v =>
        rw [pc] at collecting
        rw [List.mem_singleton.mp collecting]
        exact ⟨Phase.noConfusion, Phase.noConfusion⟩

theorem tokens_ne_fresh (s : Preparation U) (x : ℕ × Phase) (member : x ∈ s.tokens) :
    x.2 ≠ .fresh := by
  rcases List.mem_append.mp member with mine | other
  · cases pc : s.executing with
    | idle | popped r | plain r =>
        rw [pc] at mine
        cases mine
    | waiting r | future r | ready r | found r | cleared r | done r =>
        rw [pc] at mine
        rw [List.mem_singleton.mp mine]
        exact Phase.noConfusion
  · exact (elsewhere_ne s x other).1

theorem execute_flag (valid : Valid parse phase s) {r : ExecRequest}
    (popped : s.executing = .popped r) :
    ∃ phase', Valid parse phase'
      { s.put r.uid ((s.entries r.uid).setFlag .startExecute).1 with
        executing :=
          if ((s.entries r.uid).setFlag .startExecute).2 then .plain r else .waiting r } := by
  rw [setFlag_startExecute]
  cases ended : (s.entries r.uid).ended with
  | false => exact valid.execute_plain popped
  | true =>
      have ready := valid.eq_ready popped ended
      have fits := valid.fits r.uid
      rw [ready] at fits
      have off : r.uid ∉ s.elsewhere.map Prod.fst := by
        refine valid.owned.right.off (fun x member => ?_)
        rw [ready]
        exact (elsewhere_ne s x member).2
      exact ⟨_, valid.executor_move .taken off
        (by rw [popped]; exact fun x member => absurd member List.not_mem_nil)
        (fits.setFlag _ rfl rfl id) rfl (by rw [ready]; decide) valid.log (by rw [popped]; rfl)⟩

theorem taken_move (valid : Valid parse phase s) {r : ExecRequest} {t now : Executing}
    {e : Entries U} (ph : Phase) {old : Phase} (pc : s.executing = now)
    (token : now.token = [(r.uid, old)]) (current : now.current = [r])
    (here : Fits (s.Made parse r.uid) e ph) (next : t.token = [(r.uid, ph)])
    (still : t.current = [r]) (stale : old ≠ .fresh) :
    Valid parse (Function.update phase r.uid ph) { s.put r.uid e with executing := t } := by
  obtain ⟨-, name, off⟩ := valid.executor_fits pc token
  refine valid.executor_move ph off (fun x member => ?_) here next (by rwa [name]) valid.log
    (by rw [pc, current, still]; rfl)
  rw [pc, token] at member
  rw [List.mem_singleton.mp member]

theorem execute_reused (valid : Valid parse phase s) {r : ExecRequest} {b : Batch U}
    (cleared : s.executing = .cleared r) (found : (s.entries r.uid).req = some b) :
    Valid parse (Function.update phase r.uid .spent)
      { s.put r.uid { s.entries r.uid with req := some (b.reuse r) } with
        executed := s.executed ++ [(r, b.reuse r)]
        executing := .done r } := by
  have token : s.executing.token = [(r.uid, .cleared)] := by rw [cleared]; rfl
  obtain ⟨fits, name, off⟩ := valid.executor_fits rfl token
  obtain ⟨data, b', same, made⟩ := fits.content
  cases found.symm.trans same
  refine valid.executor_move .spent off (fun x member => ?_) ⟨fits.promise, fits.ended, data, rfl⟩
    rfl (by rw [name]; decide) (fun x member => ?_) ?_
  · rw [token] at member
    rw [List.mem_singleton.mp member]
  · rcases List.mem_append.mp member with before | now
    · exact valid.log x before
    · cases List.mem_singleton.mp now
      exact .inr ⟨b, made, rfl⟩
  · rw [cleared, List.map_append, Executing.current, Executing.current, List.append_nil]
    rfl

theorem execute_done (valid : Valid parse phase s) {r : ExecRequest}
    (done : s.executing = .done r) :
    Valid parse (Function.update phase r.uid .dropped)
      { s with gcQueue := s.gcQueue ++ [r.uid], executing := .idle } := by
  have token : s.executing.token = [(r.uid, .spent)] := by rw [done]; rfl
  obtain ⟨fits, name, off⟩ := valid.executor_fits rfl token
  have order := valid.order
  rw [done] at order
  refine valid.move (e := s.entries r.uid) (Function.update_eq_self _ _).symm
    ⟨fits.promise, fits.ended, fits.content⟩ rfl (fun _ old => old)
    (valid.fresh _ (by rw [name]; decide)) valid.known ?_ (fun v either => ?_) valid.log order
  · refine (valid.owned.right.update off .dropped).2.perm (List.perm_iff_count.mpr (fun t => ?_))
    simp only [tokens, elsewhere, Executing.token, List.count_append, List.map_append,
      List.map_cons, List.map_nil, List.count_cons, List.count_nil]
    omega
  · by_cases same : v = r.uid
    · subst same
      rw [Function.update_self] at either
      exact absurd either (by decide)
    · rw [Function.update_of_ne same] at either
      have mine := valid.executing v either
      rw [token] at mine
      exact absurd (congrArg Prod.fst (List.mem_singleton.mp mine)) same

theorem executor_goes_on (valid : Valid parse phase s) {t now : Executing}
    (pc : s.executing = now) (token : t.token = now.token) (current : t.current = now.current) :
    Valid parse phase { s with executing := t } := by
  subst pc
  refine valid.same_tokens rfl rfl rfl valid.known ?_ token valid.log ?_
  · show List.Perm (s.executing.token ++ _) (t.token ++ _)
    rw [token]
    exact List.Perm.refl _
  · show _ ++ t.current ++ _ = _
    rw [current]
    exact valid.order

theorem executeMessage (valid : Valid parse phase s)
    (taken : s.executeMessage parse = some s') : ∃ phase', Valid parse phase' s' := by
  unfold Preparation.executeMessage at taken
  have order := valid.order
  cases pc : s.executing with
  | idle =>
      rw [pc] at taken order
      cases queue : s.executeQueue with
      | nil =>
          rw [queue] at taken
          cases taken
      | cons r rest =>
          rw [queue] at taken order
          cases taken
          refine ⟨phase, valid.same_tokens rfl rfl rfl valid.known ?_ (by rw [pc]; rfl)
            valid.log ?_⟩
          · rw [tokens, pc]
            exact List.Perm.refl _
          · rw [← order]
            simp [Executing.current]
  | popped r =>
      rw [pc] at taken
      dsimp only at taken
      split at taken
      · cases taken
        exact ⟨phase, valid.executor_goes_on pc rfl rfl⟩
      · cases taken
        exact valid.execute_flag pc
  | plain r =>
      rw [pc] at taken order
      cases taken
      refine ⟨phase, valid.same_tokens rfl rfl rfl valid.known ?_ (by rw [pc]; rfl)
        (fun x member => ?_) ?_⟩
      · rw [tokens, pc]
        exact List.Perm.refl _
      · rcases List.mem_append.mp member with before | now
        · exact valid.log x before
        · cases List.mem_singleton.mp now
          exact .inl rfl
      · rw [← order]
        simp [Executing.current]
  | waiting r =>
      obtain ⟨fits, -⟩ := valid.executor_fits pc rfl
      rw [pc] at taken
      dsimp only at taken
      rw [fits.promise] at taken
      cases taken
      exact ⟨_, valid.taken_move .promised pc rfl rfl
        ⟨rfl, fits.ended, fits.content⟩ rfl rfl (by decide)⟩
  | future r =>
      obtain ⟨fits, -⟩ := valid.executor_fits pc rfl
      rw [pc] at taken
      dsimp only at taken
      rw [fits.promise] at taken
      cases taken
      exact ⟨phase, valid.executor_goes_on pc rfl rfl⟩
  | ready r =>
      obtain ⟨fits, -⟩ := valid.executor_fits pc rfl
      obtain ⟨-, b, found, -⟩ := fits.content
      rw [pc] at taken
      dsimp only at taken
      rw [found] at taken
      cases taken
      exact ⟨phase, valid.executor_goes_on pc rfl rfl⟩
  | found r =>
      obtain ⟨fits, -⟩ := valid.executor_fits pc rfl
      rw [pc] at taken
      dsimp only at taken
      cases flags : (s.entries r.uid).flags with
      | none =>
          have ended := fits.ended
          rw [Entries.ended, flags] at ended
          cases ended
      | some bits =>
          rw [fits.promise, flags] at taken
          cases taken
          exact ⟨_, valid.taken_move .cleared pc rfl rfl
            ⟨rfl, rfl, fits.content⟩ rfl rfl (by decide)⟩
  | cleared r =>
      obtain ⟨fits, -⟩ := valid.executor_fits pc rfl
      obtain ⟨-, b, found, -⟩ := fits.content
      rw [pc] at taken
      dsimp only at taken
      rw [found] at taken
      cases taken
      exact ⟨_, valid.execute_reused pc found⟩
  | done r =>
      rw [pc] at taken
      cases taken
      exact ⟨_, valid.execute_done pc⟩

theorem collected (valid : Valid parse phase s) (emptied : s.collecting = .emptied u) :
    Valid parse (Function.update phase u .released)
      { s.put u { s.entries u with data := false, req := none } with collecting := .idle } := by
  have front : s.tokens.Perm ((u, .dropped) :: (s.executing.token ++
      ((s.entering ++ s.prepareQueue).map (fun r => (r.uid, Phase.pending)) ++
        s.preparer.current.map (fun r => (r.uid, s.preparer.phase)) ++
        s.gcQueue.map (fun v => (v, Phase.dropped))))) := by
    refine List.perm_iff_count.mpr (fun t => ?_)
    simp only [tokens, elsewhere, emptied, Collecting.token, List.count_append, List.count_cons,
      List.count_nil]
    omega
  have owned := valid.owned.perm front
  have name : phase u = .dropped := owned.named _ List.mem_cons_self
  have fits := valid.fits u
  rw [name] at fits
  obtain ⟨rest, off⟩ := owned.tail
  refine valid.move rfl ⟨fits.promise, fits.ended, trivial⟩ rfl (fun _ old => old)
    (valid.fresh u (by rw [name]; decide)) valid.known ?_
    (valid.executing_update ⟨by decide, by decide⟩) valid.log valid.order
  have moved := (rest.update off .released).1
  rw [← List.append_nil (s.gcQueue.map _)] at moved
  exact moved

theorem gcProcess (valid : Valid parse phase s) (taken : s.gcProcess = some s') :
    ∃ phase', Valid parse phase' s' := by
  unfold Preparation.gcProcess at taken
  have there : ∀ v, s.collecting.token = [(v, .dropped)] →
      (s.entries v).data = true ∧ (s.entries v).req.isSome := by
    intro v token
    have fits := valid.fits v
    rw [valid.owned.named (v, .dropped) (by simp [tokens, elsewhere, token])] at fits
    exact fits.content
  cases pc : s.collecting with
  | idle =>
      rw [pc] at taken
      cases queue : s.gcQueue with
      | nil =>
          rw [queue] at taken
          cases taken
      | cons v rest =>
          rw [queue] at taken
          cases taken
          refine ⟨phase, valid.same_tokens rfl rfl rfl valid.known ?_ rfl valid.log valid.order⟩
          refine List.perm_iff_count.mpr (fun t => ?_)
          simp only [tokens, elsewhere, pc, queue, Collecting.token, List.count_append,
            List.map_cons, List.count_cons, List.count_nil]
          omega
  | popped v =>
      rw [pc] at taken
      dsimp only at taken
      rw [(there v (by rw [pc]; rfl)).1] at taken
      cases taken
      refine ⟨phase, valid.same_tokens rfl rfl rfl valid.known ?_ rfl valid.log valid.order⟩
      rw [tokens, elsewhere, pc]
      exact List.Perm.refl _
  | emptied v =>
      obtain ⟨data, req⟩ := there v (by rw [pc]; rfl)
      obtain ⟨b, stored⟩ := Option.isSome_iff_exists.mp req
      rw [pc] at taken
      dsimp only at taken
      rw [data, stored] at taken
      cases taken
      exact ⟨_, valid.collected pc⟩

theorem addFuture (valid : Valid parse phase s) {r : ExecRequest}
    (new : ∀ p ∈ s.prepared, p.uid ≠ r.uid) :
    Valid parse (Function.update phase r.uid .pending) (s.addFuture r) := by
  have fresh : phase r.uid = .fresh := by
    by_contra stale
    obtain ⟨p, member, same⟩ := valid.fresh r.uid stale
    exact new p member same
  have promise : (s.entries r.uid).promise = none :=
    (valid.fits r.uid).promise.trans (by rw [fresh]; rfl)
  have off : r.uid ∉ s.tokens.map Prod.fst := by
    refine valid.owned.off (fun x member => ?_)
    rw [fresh]
    exact tokens_ne_fresh s x member
  rw [Preparation.addFuture, promise]
  refine valid.move rfl ⟨rfl, rfl, trivial⟩ rfl (fun _ old => List.mem_append_left _ old)
    ⟨r, List.mem_append_right _ (List.mem_singleton_self r), rfl⟩ (fun q member => ?_) ?_
    (valid.executing_update ⟨by decide, by decide⟩) (fun x member => ?_) valid.order
  · have known := valid.known q
    simp only [put, List.mem_append, List.mem_singleton] at member known ⊢
    tauto
  · refine (valid.owned.update off .pending).2.perm (List.perm_iff_count.mpr (fun t => ?_))
    simp only [tokens, elsewhere, put, List.count_append, List.map_append, List.map_cons,
      List.map_nil, List.count_cons, List.count_nil]
    omega
  · rcases valid.log x member with own | ⟨b, ⟨p, made, rest⟩, reused⟩
    · exact .inl own
    · exact .inr ⟨b, ⟨p, List.mem_append_left _ made, rest⟩, reused⟩

theorem enqueue (valid : Valid parse phase s) {place : ℕ} (taken : s.enqueue place = some s') :
    Valid parse phase s' := by
  obtain ⟨r, found, rfl⟩ := Option.map_eq_some_iff.mp taken
  obtain ⟨inside, rfl⟩ := List.getElem?_eq_some_iff.mp found
  have moved : List.Perm (s.entering ++ s.prepareQueue)
      (s.entering.eraseIdx place ++ (s.prepareQueue ++ [s.entering[place]])) := by
    refine ((List.getElem_cons_eraseIdx_perm inside).symm.append_right s.prepareQueue).trans ?_
    refine List.perm_middle.symm.trans (List.Perm.append_left _ ?_)
    exact (List.perm_append_singleton _ _).symm
  refine valid.same_tokens rfl rfl rfl (fun q member => valid.known q ?_) ?_ rfl valid.log
    valid.order
  · exact (moved.append_right _).mem_iff.mpr member
  · exact ((((moved.map _).append_right _).append_right _).append_left _)

theorem commit (valid : Valid parse phase s) (r : ExecRequest) :
    Valid parse phase (s.commit r) := by
  refine { valid with order := ?_ }
  exact (List.append_assoc _ _ _).symm.trans (congrArg (fun made => made ++ [r]) valid.order)

end Valid

section Histories
variable {s s' : Preparation U}

theorem addFuture_prepared (s : Preparation U) (r : ExecRequest) :
    (s.addFuture r).prepared = s.prepared ++ [r] := by
  rw [addFuture]
  cases (s.entries r.uid).promise <;> rfl

theorem prepareMessage_prepared (taken : s.prepareMessage parse = some s') :
    s'.prepared = s.prepared := by
  unfold Preparation.prepareMessage at taken
  dsimp only at taken
  repeat' split at taken
  all_goals
    cases taken
    try rfl

theorem executeMessage_histories (taken : s.executeMessage parse = some s') :
    s'.prepared = s.prepared ∧ s'.committed = s.committed := by
  unfold Preparation.executeMessage at taken
  dsimp only at taken
  repeat' split at taken
  all_goals
    cases taken
    try exact ⟨rfl, rfl⟩

theorem gcProcess_prepared (taken : s.gcProcess = some s') : s'.prepared = s.prepared := by
  unfold Preparation.gcProcess at taken
  dsimp only at taken
  repeat' split at taken
  all_goals
    cases taken
    try rfl

theorem prepared_grows {a : PrepareAction} (taken : Preparation.step parse s a = some s') :
    s.prepared <+: s'.prepared := by
  cases a with
  | prepare r =>
      cases taken
      rw [addFuture_prepared]
      exact List.prefix_append _ _
  | enqueue place =>
      obtain ⟨r, -, rfl⟩ := Option.map_eq_some_iff.mp taken
      exact List.prefix_refl _
  | commit r =>
      cases taken
      exact List.prefix_refl _
  | prepareMessage => rw [prepareMessage_prepared taken]
  | executeMessage => rw [(executeMessage_histories taken).1]
  | gcProcess => rw [gcProcess_prepared taken]

theorem Valid.step {phase : ℕ → Phase} (valid : Valid parse phase s) {a : PrepareAction}
    (taken : Preparation.step parse s a = some s')
    (once : (s'.prepared.map (fun p => p.uid)).Nodup) : ∃ phase', Valid parse phase' s' := by
  cases a with
  | prepare r =>
      cases taken
      refine ⟨_, valid.addFuture (r := r) (fun p member same => ?_)⟩
      rw [addFuture_prepared, List.map_append] at once
      exact (List.nodup_append.mp once).2.2 _ (List.mem_map_of_mem member) _
        (List.mem_singleton_self _) same
  | enqueue place => exact ⟨phase, valid.enqueue taken⟩
  | commit r =>
      cases taken
      exact ⟨phase, valid.commit r⟩
  | prepareMessage => exact valid.prepareMessage taken
  | executeMessage => exact valid.executeMessage taken
  | gcProcess => exact valid.gcProcess taken

theorem valid_initial : Valid parse (fun _ => .fresh) ({} : Preparation U) where
  sound := rfl
  fits := fun _ => ⟨rfl, rfl, trivial⟩
  fresh := fun _ stale => absurd rfl stale
  known := fun _ member => absurd member List.not_mem_nil
  owned := ⟨fun _ member => absurd member List.not_mem_nil, List.nodup_nil⟩
  executing := fun _ either => absurd either (by decide)
  log := fun _ member => absurd member List.not_mem_nil
  order := rfl

theorem valid_of_run {actions : List PrepareAction}
    (ran : Run.exec (Preparation.step parse) {} actions = some s)
    (once : (s.prepared.map (fun p => p.uid)).Nodup) : ∃ phase, Valid parse phase s := by
  refine Run.exec_invariant_always
    (fun s a s' (inv : (s.prepared.map (fun p => p.uid)).Nodup → ∃ phase, Valid parse phase s)
      taken once' => ?_) (fun _ => ⟨_, valid_initial⟩) ran once
  obtain ⟨phase, valid⟩ := inv (once'.sublist ((prepared_grows taken).sublist.map _))
  exact valid.step taken once'

/-- How many steps the executing thread has before it, at most. -/
def work (s : Preparation U) : ℕ := 10 * s.executeQueue.length + s.executing.rank

theorem work_lt (taken : s.executeMessage parse = some s') (sound : s'.broken = false) :
    s'.work < s.work := by
  unfold Preparation.executeMessage at taken
  cases pc : s.executing with
  | idle =>
      rw [pc] at taken
      cases queue : s.executeQueue with
      | nil =>
          rw [queue] at taken
          cases taken
      | cons r rest =>
          rw [queue] at taken
          cases taken
          simp only [work, pc, queue, List.length_cons, Executing.rank]
          omega
  | popped r =>
      rw [pc] at taken
      dsimp only at taken
      split at taken
      · cases taken
        simp [work, pc, Executing.rank]
      · cases taken
        dsimp only [work, put]
        rw [pc]
        split <;> simp [Executing.rank]
  | plain r | done r =>
      rw [pc] at taken
      cases taken
      simp [work, pc, Executing.rank]
  | waiting r | future r | ready r | found r | cleared r =>
      rw [pc] at taken
      dsimp only at taken
      -- a step that goes wrong stays where it is, and is not sound
      split at taken <;> cases taken <;>
        first
          | (simp [work, put, pc, Executing.rank]; done)
          | cases sound

theorem idle_of_blocked {phase : ℕ → Phase} (valid : Valid parse phase s)
    (blocked : s.executeMessage parse = none) : s.executing = .idle ∧ s.executeQueue = [] := by
  unfold Preparation.executeMessage at blocked
  cases pc : s.executing with
  | idle =>
      rw [pc] at blocked
      cases queue : s.executeQueue with
      | nil => exact ⟨rfl, rfl⟩
      | cons r rest =>
          rw [queue] at blocked
          cases blocked
  | popped r | waiting r | ready r | found r | cleared r =>
      rw [pc] at blocked
      dsimp only at blocked
      split at blocked <;> cases blocked
  | plain r | done r =>
      rw [pc] at blocked
      cases blocked
  | future r =>
      obtain ⟨fits, -⟩ := valid.executor_fits pc rfl
      rw [pc] at blocked
      dsimp only at blocked
      rw [fits.promise] at blocked
      cases blocked

theorem drains {phase : ℕ → Phase} (valid : Valid parse phase s) :
    ∃ steps s' phase', Run.exec (Preparation.step parse) s
      (List.replicate steps .executeMessage) = some s' ∧ Valid parse phase' s' ∧
      s'.prepared = s.prepared ∧ s'.committed = s.committed ∧ s'.executing = .idle ∧
      s'.executeQueue = [] := by
  induction left : s.work using Nat.strong_induction_on generalizing s phase with
  | _ n ih =>
      cases taken : s.executeMessage parse with
      | none =>
          obtain ⟨idle, empty⟩ := idle_of_blocked valid taken
          exact ⟨0, s, phase, rfl, valid, rfl, rfl, idle, empty⟩
      | some mid =>
          obtain ⟨phase', valid'⟩ := valid.executeMessage taken
          obtain ⟨prepared, committed⟩ := executeMessage_histories taken
          obtain ⟨steps, s', last, ran, rest⟩ :=
            ih mid.work (left ▸ work_lt taken valid'.sound) valid' rfl
          refine ⟨steps + 1, s', last, ?_, ?_⟩
          · rw [List.replicate_succ, Run.exec_cons_of_step _ taken]
            exact ran
          · rw [← prepared, ← committed]
            exact rest

end Histories
theorem reuse_batchOf {p r : ExecRequest} (data : p.data = r.data) (hash : p.hash = r.hash)
    (certs : p.committedCerts = r.committedCerts) :
    (batchOf parse p).reuse r = batchOf parse r := by
  rw [batchOf, batchOf, Batch.reuse, data, hash, certs]

theorem executed_eq {s : Preparation U} {phase : ℕ → Phase} (valid : Valid parse phase s)
    (agree : ∀ p ∈ s.prepared, ∀ r ∈ s.committed, p.uid = r.uid →
      p.data = r.data ∧ p.hash = r.hash ∧ p.committedCerts = r.committedCerts) :
    s.executed =
      (s.committed.take s.executed.length).map (fun r => (r, batchOf parse r)) := by
  have order := valid.order
  rw [List.append_assoc] at order
  have first : s.committed.take s.executed.length = s.executed.map Prod.fst := by
    rw [← order]
    exact List.take_left' (List.length_map _)
  rw [first, List.map_map]
  refine (List.map_id _).symm.trans (List.map_congr_left (fun e member => ?_))
  have committed : e.1 ∈ s.committed := by
    rw [← order]
    exact List.mem_append_left _ (List.mem_map_of_mem member)
  refine Prod.ext rfl ?_
  rcases valid.log e member with own | ⟨b, ⟨p, made, same, rfl⟩, reused⟩
  · exact own
  · obtain ⟨data, hash, certs⟩ := agree p made e.1 committed same
    exact reused.trans (reuse_batchOf data hash certs)

/-- Whatever the threads have done, as long as no uid is given to `Prepare` twice and a request is
committed with the content it was prepared with: nothing has gone wrong, the requests executed so
far are the first of those committed, each with its own batch, and the executing thread needs no
other thread to execute the rest. -/
theorem preparation_unobservable {actions : List PrepareAction} {s : Preparation U}
    (ran : Run.exec (Preparation.step parse) {} actions = some s)
    (once : (s.prepared.map (fun p => p.uid)).Nodup)
    (agree : ∀ p ∈ s.prepared, ∀ r ∈ s.committed, p.uid = r.uid →
      p.data = r.data ∧ p.hash = r.hash ∧ p.committedCerts = r.committedCerts) :
    s.broken = false ∧
    s.executed =
      (s.committed.take s.executed.length).map (fun r => (r, batchOf parse r)) ∧
    ∃ steps s', Run.exec (Preparation.step parse) s
      (List.replicate steps .executeMessage) = some s' ∧ s'.broken = false ∧
      s'.executed = s.committed.map (fun r => (r, batchOf parse r)) := by
  obtain ⟨phase, valid⟩ := valid_of_run ran once
  obtain ⟨steps, s', phase', later, valid', prepared, committed, idle, empty⟩ := drains valid
  refine ⟨valid.sound, executed_eq valid agree, steps, s', later, valid'.sound, ?_⟩
  have whole := executed_eq valid' (by rw [prepared, committed]; exact agree)
  have order := valid'.order
  rw [idle, empty, Executing.current, List.append_nil, List.append_nil] at order
  rw [whole, ← order, ← List.length_map Prod.fst, List.take_length, order, committed]

/-- Two requests are prepared. The second is committed once its preparation is through, the first
while it is under way. -/
def sampleActions : List PrepareAction := List.flatten [
  [.prepare { uid := 1, data := [10] }, .prepare { uid := 2, data := [20], seq := 5 },
    .enqueue 1, .enqueue 0],
  List.replicate 6 .prepareMessage,
  [.commit { uid := 2, data := [20], seq := 1, proxyId := 9 },
    .commit { uid := 1, data := [10], seq := 2, proxyId := 9 }],
  List.replicate 8 .executeMessage, List.replicate 2 .prepareMessage,
  List.replicate 3 .executeMessage, List.replicate 3 .gcProcess]

def sampleParse (data : Bytes) : Batch Bytes := ⟨data, 0, [], 0, none⟩

theorem preparation_unobservable_sample : ∃ s,
    Run.exec (Preparation.step sampleParse) {} sampleActions = some s ∧
    s.executed.length = 2 ∧ s.broken = false ∧
    s.executed =
      (s.committed.take s.executed.length).map (fun r => (r, batchOf sampleParse r)) := by
  have outcome : (Run.exec (Preparation.step sampleParse) {} sampleActions).any
      (fun s => s.executed.length = 2 ∧ (s.prepared.map (fun p => p.uid)).Nodup ∧
        ∀ p ∈ s.prepared, ∀ r ∈ s.committed, p.uid = r.uid →
          p.data = r.data ∧ p.hash = r.hash ∧ p.committedCerts = r.committedCerts) = true := by
    decide +kernel
  obtain ⟨s, ran, here⟩ := (Option.any_eq_true _ _).mp outcome
  obtain ⟨length, once, agree⟩ := of_decide_eq_true here
  obtain ⟨sound, executed, -⟩ := preparation_unobservable ran once agree
  exact ⟨s, ran, length, sound, executed⟩

end Preparation
end ResDB.Execution
