import RowStore.Proofs.Session.Serial
import RowStore.Proofs.Session.Visits

namespace RowStore

/-! A page in the hands of a transaction is its own until it completes.

Nobody else has changed the page and goes on, nobody takes its lock away, and its
contents change only through the transaction itself. This holds for whatever files
the pool was opened on, and whichever reads and writes fail.
-/

namespace Pool

variable {pool after : Pool} {tx : TxId}

theorem exists_of_contents? {id : PageId} {page : Page} (same : after.contents? id = pool.contents? id)
    (found : pool.cache.get? id = some page) :
    ∃ now, after.cache.get? id = some now ∧ now.contents = page.contents := by
  rw [contents?, contents?, found, Option.map_some, Option.map_eq_some_iff] at same
  exact same

/-- The transaction that an action ends, if it ends one, can change the pages that it has locked to
write, and loses its locks; nobody else notices anything. -/
structure Leaves (ender : Option TxId) (pool after : Pool) : Prop where
  guarded : after.Guarded
  keeps : ∀ tx id mode, ender ≠ some tx → pool.locks.Has tx id mode → after.locks.Has tx id mode
  fewer : ∀ tx id, after.locks.Has tx id .shared → pool.locks.Has tx id .shared
  shows : ∀ id page, pool.cache.get? id = some page →
    (∃ now, after.cache.get? id = some now ∧ now.contents = page.contents) ∨
      ∃ tx, ender = some tx ∧ pool.locks.Has tx id .exclusive

theorem Leaves.of_contents? {ender : Option TxId} (guarded : after.Guarded)
    (lockOn : ∀ id, after.locks.lockOn id = pool.locks.lockOn id)
    (same : ∀ id, after.contents? id = pool.contents? id) : Leaves ender pool after :=
  ⟨guarded, fun _ id _ _ has => has.of_lockOn (lockOn id), fun _ id has => has.of_lockOn (lockOn id).symm,
    fun id _ found => Or.inl (exists_of_contents? (same id) found)⟩

section Leaves

variable {ender : Option TxId} (guarded : pool.Guarded)
include guarded

theorem Guarded.leaves_complete (tx : TxId) (commit : Bool) :
    Leaves (some tx) pool (if commit then (pool.commit tx).1 else (pool.abort tx).1) := by
  obtain ⟨middle, kept, locks, clean, same, shows⟩ := guarded.complete tx commit
  rw [same]
  refine ⟨kept.releaseAll clean, fun other id mode differs has => ?_, fun other id has => ?_,
    fun id page found => ?_⟩
  · rw [← locks] at has
    exact has.releaseAll kept.locks fun equal => differs (congrArg some equal.symm)
  · have lock : (middle.releaseAll tx).locks.lockOn id = (middle.locks.lockOn id).release tx :=
      LockTable.lockOn_releaseAll kept.locks
    rw [← locks]
    refine ⟨?_, by simp⟩
    have left := has.1
    rw [lock] at left
    exact (PageLock.mem_holders_release.mp left).1
  · exact (shows id).imp (fun same => exists_of_contents? same found) fun written => ⟨tx, rfl, written⟩

theorem Guarded.leaves_flush (owner : Option TxId) :
    Leaves ender pool (pool.flushEach (pool.dirtyPages owner)).1 := by
  obtain ⟨kept, locks, shows⟩ := guarded.flush owner
  exact Leaves.of_contents? kept (fun _ => by rw [locks]) shows

theorem Guarded.leaves_interrupt (tx : TxId) : Leaves ender pool (pool.interrupt tx) := by
  refine Leaves.of_contents? (guarded.withLocks (guarded.locks.interrupt tx) ?_) (fun id => ?_) fun _ => rfl
  · exact fun _ _ _ _ _ has => has.interrupt tx
  · simp [Pool.interrupt, LockTable.lockOn]

theorem Guarded.leaves_expire (overdue : Waiter → Bool) :
    Leaves ender pool { pool with locks := pool.locks.expire overdue } :=
  Leaves.of_contents? (guarded.withLocks (guarded.locks.expire overdue)
    fun _ _ _ _ _ has => has.expire overdue) (fun _ => rfl) fun _ => rfl

theorem Guarded.leaves_reorder {cache : FinMap PageId Page}
    (same : ∀ id, cache.get? id = pool.cache.get? id) : Leaves ender pool { pool with cache } := by
  refine Leaves.of_contents? (guarded.congr same rfl) (fun _ => rfl) fun id => ?_
  simp only [contents?, same]

theorem Guarded.leaves_limitWrites (fail : Bool) (left : Nat) :
    Leaves ender pool
      { pool with disk := { pool.disk with failWrites := fail, writesLeft := left } } :=
  Leaves.of_contents? (guarded.congr (fun _ => rfl) rfl) (fun _ => rfl) fun _ => rfl

end Leaves

end Pool

/-! ## Runs -/

namespace SessionAction

def completes (tx : TxId) : SessionAction → Bool
  | .complete other _ => other = tx
  | _ => false

end SessionAction

namespace Session

variable {session start : Session} {tx : TxId} {id : PageId} {action : SessionAction}
variable {history : List SessionEvent} {call : Call} {page : Page} {mode : LockMode}

/-- The call that an action begins or goes on with. -/
def call? (session : Session) : SessionAction → Option (TxId × Call)
  | .call tx call => some (tx, call)
  | .resume tx => (session.parked.get? tx).map fun call => (tx, call)
  | _ => none

theorem call?_resume (found : session.parked.get? tx = some call) :
    session.call? (.resume tx) = some (tx, call) := by
  simp [call?, found]

/-- The pages that an action hands out. -/
def visits (session : Session) (action : SessionAction) : List Visit :=
  match session.call? action with
  | some (tx, call) => call.visits tx session.pool
  | none => []

/-- The action runs an insert or a delete of the transaction. -/
def Writes (session : Session) (tx : TxId) (action : SessionAction) : Prop :=
  ∃ call, session.call? action = some (tx, call) ∧ call.write? ≠ none

/-- After the action a page stands in memory and holds what another one did, if it was not written by
the transaction. -/
def Shows (session : Session) (action : SessionAction) (tx : TxId) (id : PageId) (page : Page) : Prop :=
  ∃ now, (session.act action).1.pool.cache.get? id = some now ∧
    (now.contents = page.contents ∨ session.Writes tx action)

/-- The action runs an insert that gives up a full page, which it only looked at, as it goes on. -/
def GivesUp (session : Session) (action : SessionAction) (visit : Visit) : Prop :=
  ∃ call, session.call? action = some (visit.tx, call) ∧ call.inserts = true ∧ session.pool.Passed visit

/-- The session that a history leads to. -/
def replay (start : Session) (history : List SessionEvent) : Session :=
  history.foldr (fun event session => (session.act event.action).1) start

/-- Since it completed last, if it ever did, the transaction changed the page. -/
def Carries (start : Session) (tx : TxId) (id : PageId) : List SessionEvent → Prop
  | [] => False
  | event :: earlier =>
      event.action.completes tx = false ∧
        (Carries start tx id earlier ∨
          (∃ call, (start.replay earlier).call? event.action = some (tx, call)) ∧
            (start.replay earlier).pool.Differs (start.replay (event :: earlier)).pool id)

/-- No page is dropped from memory from outside. -/
def Undisturbed (session : Session) : SessionAction → Prop
  | .discard _ => False
  | action => session.Enabled action

theorem Run.replay {allowed : Session → SessionAction → Prop} (run : Run allowed start history session) :
    start.replay history = session := by
  induction run with
  | start => rfl
  | step _ action _ ih =>
      rw [Session.replay, List.foldr_cons]
      exact congrArg (fun session => (session.act action).1) ih

/-- Pages are guarded by their locks, and parked calls can go on. -/
structure Shielded (session : Session) : Prop where
  guarded : session.pool.Guarded
  parked : ∀ tx call, session.parked.get? tx = some call → call.Resumable tx session.pool

/-- What an action does to locks and pages. -/
structure Advances (session : Session) (action : SessionAction) : Prop where
  shielded : (session.act action).1.Shielded
  keeps : ∀ tx id mode, action.completes tx = false → session.pool.locks.Has tx id mode →
    (session.act action).1.pool.locks.Has tx id mode
  shows : ∀ tx id page, action.completes tx = false → session.pool.locks.Has tx id .shared →
    session.pool.cache.get? id = some page → session.Shows action tx id page
  changed : ∀ tx id call, session.call? action = some (tx, call) →
    session.pool.Differs (session.act action).1.pool id →
    (session.act action).1.pool.locks.Has tx id .exclusive

/-! ### One action -/

theorem of_settlePool {α : Type} {result : Pool × Except StoreError α} {answer : Answer}
    (answered : (session.settlePool result).2 = some (.ok answer)) : answer = .nothing := by
  obtain ⟨pool, outcome⟩ := result
  cases outcome with
  | ok => exact (Except.ok.inj (Option.some.inj answered)).symm
  | error => cases answered

/-- A page that an action answers with is one that it hands out. -/
theorem visit_of_answer (answered : (session.act action).2 = some (.ok (.page page))) :
    ∃ visit ∈ session.visits action, visit.page = page := by
  cases action with
  | call tx call =>
      exact Call.visit_of_page ((result_run session tx call).symm.trans answered)
  | resume tx =>
      simp only [Session.act, Session.resume] at answered
      cases found : session.parked.get? tx with
      | none => simp [found] at answered
      | some call =>
          simp only [found] at answered
          rw [visits, call?, found, Option.map_some]
          exact Call.visit_of_page ((result_run session tx call).symm.trans answered)
  | complete tx commit =>
      cases commit with
      | true => cases of_settlePool answered
      | false => cases of_settlePool answered
  | flush | flushAll => cases of_settlePool answered
  | interrupt | expire | discard | limitWrites | reorder => contradiction

section Action

variable (shielded : session.Shielded)
include shielded

/-- The call of an action can be run, and running it is all that the action does. -/
theorem Shielded.runs (undisturbed : session.Undisturbed action)
    (calls : session.call? action = some (tx, call)) :
    call.Resumable tx session.pool ∧ (session.act action).1 = (session.run tx call).1 := by
  cases action with
  | call other begun =>
      cases calls
      exact ⟨undisturbed.2.resumable session.pool, rfl⟩
  | resume other =>
      obtain ⟨waiting, found, same⟩ := Option.map_eq_some_iff.mp calls
      cases same
      exact ⟨shielded.parked tx call found, by simp [Session.act, Session.resume, found]⟩
  | _ => contradiction

theorem Shielded.called (undisturbed : session.Undisturbed action)
    (calls : session.call? action = some (tx, call)) :
    ∃ middle, Pool.Called tx call session.pool middle (call.run tx session.pool) ∧
      (session.act action).1.pool = (call.run tx session.pool).1 := by
  obtain ⟨resumable, ran⟩ := shielded.runs undisturbed calls
  obtain ⟨middle, called⟩ := shielded.guarded.runCall resumable
  exact ⟨middle, called, by rw [ran, pool_run]⟩

theorem Shielded.run (undisturbed : session.Undisturbed action)
    (calls : session.call? action = some (tx, call)) : Advances session action := by
  obtain ⟨middle, called, pool⟩ := shielded.called undisturbed calls
  have keeps : ∀ other place wish, session.pool.locks.Has other place wish →
      (session.act action).1.pool.locks.Has other place wish := by
    intro other place wish has
    rw [pool, called.rewrites.locks]
    exact called.walked.keeps other place wish has
  refine ⟨⟨?_, fun other waiting found => ?_⟩, fun other place wish _ has => keeps other place wish has,
    fun holder place page _ has found => ?_, fun other place again same differs => ?_⟩
  · rw [pool]
    exact called.rewrites.guarded
  · rw [(shielded.runs undisturbed calls).2] at found
    obtain ⟨rfl, again⟩ | ⟨differs, before⟩ := of_parked_run session tx call found
    · rw [pool]
      exact called.parked waiting again
    · -- Only the caller can hold pages that it did not hold before.
      refine (shielded.parked other waiting before).keep fun place has => ?_
      rw [pool, called.rewrites.locks, called.walked.guarded.locks.has_shared_iff,
        called.walked.held other differs, ← shielded.guarded.locks.has_shared_iff] at has
      exact has
  · obtain ⟨now, known, same | ⟨rfl, writes⟩⟩ := called.shows has found
    · exact ⟨now, by rw [pool, known], Or.inl same⟩
    · exact ⟨now, by rw [pool, known], Or.inr ⟨call, calls, writes⟩⟩
  · cases Option.some.inj (calls.symm.trans same)
    rw [pool] at differs ⊢
    exact called.has_of_differs differs

theorem Shielded.withPool {ender : Option TxId} {pool : Pool}
    (same : (session.act action).1 = session.withPool pool) (calls : session.call? action = none)
    (leaves : Pool.Leaves ender session.pool pool)
    (ends : ∀ tx, action.completes tx = false → ender ≠ some tx) : Advances session action := by
  refine ⟨?_, fun tx id mode goes has => ?_, fun tx id page goes has found => ?_, fun tx id call same => ?_⟩
  · rw [same]
    exact ⟨leaves.guarded, fun tx call found => (shielded.parked tx call found).keep (leaves.fewer tx)⟩
  · rw [same]
    exact leaves.keeps tx id mode (ends tx goes) has
  · rw [Shows, same]
    obtain ⟨now, known, kept⟩ | ⟨other, rfl, written⟩ := leaves.shows id page found
    · exact ⟨now, known, Or.inl kept⟩
    · obtain rfl := shielded.guarded.locks.eq_of_has written has
      exact absurd rfl (ends tx goes)
  · rw [calls] at same
    contradiction

theorem Shielded.act (undisturbed : session.Undisturbed action) : Advances session action := by
  have goesOn : ∀ tx : TxId, action.completes tx = false → (none : Option TxId) ≠ some tx :=
    fun _ _ => by simp
  cases action with
  | call tx call => exact shielded.run undisturbed rfl
  | resume tx =>
      cases found : session.parked.get? tx with
      | some call => exact shielded.run undisturbed (call?_resume found)
      | none =>
          have stays : (session.act (.resume tx)).1 = session.withPool session.pool := by
            rw [act_resume_of_missing found]
            rfl
          refine shielded.withPool stays (by simp [call?, found]) ?_ goesOn
          exact Pool.Leaves.of_contents? shielded.guarded (fun _ => rfl) fun _ => rfl
  | complete tx commit =>
      have leaves := shielded.guarded.leaves_complete tx commit
      have ends : ∀ other, (SessionAction.complete tx commit).completes other = false →
          some tx ≠ some other := by
        intro other goes same
        simp [SessionAction.completes, Option.some.inj same] at goes
      cases commit with
      | true => exact shielded.withPool rfl rfl leaves ends
      | false => exact shielded.withPool rfl rfl leaves ends
  | interrupt tx => exact shielded.withPool rfl rfl (shielded.guarded.leaves_interrupt tx) goesOn
  | expire overdue => exact shielded.withPool rfl rfl (shielded.guarded.leaves_expire overdue) goesOn
  | flush tx => exact shielded.withPool rfl rfl (shielded.guarded.leaves_flush (some tx)) goesOn
  | flushAll => exact shielded.withPool rfl rfl (shielded.guarded.leaves_flush none) goesOn
  | discard page => exact undisturbed.elim
  | limitWrites fail left =>
      exact shielded.withPool rfl rfl (shielded.guarded.leaves_limitWrites fail left) goesOn
  | reorder cache =>
      exact shielded.withPool rfl rfl (shielded.guarded.leaves_reorder undisturbed) goesOn

/-- Every page that an action of a transaction reads into memory is one that it hands out. -/
theorem Shielded.visit_of_loaded (undisturbed : session.Undisturbed action)
    (calls : session.call? action = some (tx, call)) (missing : session.pool.cache.get? id = none)
    (loaded : (session.act action).1.pool.cache.get? id = some page) :
    ∃ visit ∈ session.visits action, visit.id = id := by
  obtain ⟨middle, called, pool⟩ := shielded.called undisturbed calls
  rw [visits, calls]
  exact called.visit_of_loaded missing (pool ▸ loaded)

end Action

/-! ### Whole runs -/

theorem Run.shielded (run : Run Undisturbed start history session) (shielded : start.Shielded) :
    session.Shielded := by
  induction run with
  | start => exact shielded
  | step _ action permitted ih => exact (ih.act permitted).shielded

/-- Who changed a page and did not complete since has it locked to write. -/
theorem Run.has_of_carries (run : Run Undisturbed start history session) (shielded : start.Shielded)
    (carries : Carries start tx id history) : session.pool.locks.Has tx id .exclusive := by
  induction run with
  | start => exact carries.elim
  | step before action permitted ih =>
      obtain ⟨goes, earlier | ⟨⟨call, calls⟩, differs⟩⟩ := carries
      · exact ((before.shielded shielded).act permitted).keeps tx id .exclusive goes (ih earlier)
      · rw [before.replay] at calls
        rw [(before.step action permitted).replay, before.replay] at differs
        exact ((before.shielded shielded).act permitted).changed tx id call calls differs

/-- As long as a transaction does not complete, it keeps its locks, and the pages that it has stay in
memory. -/
theorem Run.keeps (run : Run Undisturbed start history session) (shielded : start.Shielded)
    (goes : ∀ event ∈ history, event.action.completes tx = false)
    (has : start.pool.locks.Has tx id mode) (found : start.pool.cache.get? id = some page) :
    session.pool.locks.Has tx id mode ∧ ∃ now, session.pool.cache.get? id = some now := by
  induction run with
  | start => exact ⟨has, page, found⟩
  | step before action permitted ih =>
      have advances := (before.shielded shielded).act permitted
      have goesNow := goes _ List.mem_cons_self
      obtain ⟨has, between, found⟩ := ih fun event member => goes event (List.mem_cons_of_mem _ member)
      obtain ⟨now, known, _⟩ := advances.shows tx id between goesNow has.shared found
      exact ⟨advances.keeps tx id mode goesNow has, now, known⟩

/-- A page that an action hands out is in the hands of its transaction alone, until that completes. -/
structure Isolated (start : Session) (history : List SessionEvent) (session : Session)
    (action : SessionAction) (visit : Visit) : Prop where
  /-- Whoever changed the page and did not complete since is the one who gets it. -/
  unmixed : ∀ other, Carries start other visit.id history → other = visit.tx
  unmarked : ∀ other, visit.page.dirty = some other → other = visit.tx
  stays : session.GivesUp action visit ∨
    session.Shows action visit.tx visit.id visit.page ∧
      ∀ later final, Run Undisturbed (session.act action).1 later final →
        (∀ event ∈ later, event.action.completes visit.tx = false) →
        final.pool.locks.Has visit.tx visit.id visit.mode ∧
          ∃ page, final.pool.cache.get? visit.id = some page ∧
            ∀ next, final.Undisturbed next → next.completes visit.tx = false →
              final.Shows next visit.tx visit.id page

theorem Run.isolated (run : Run Undisturbed start history session) (initial : start.Shielded)
    (undisturbed : session.Undisturbed action) {visit : Visit} (listed : visit ∈ session.visits action) :
    Isolated start history session action visit := by
  have shielded := run.shielded initial
  have advances := shielded.act undisturbed
  rw [visits] at listed
  cases calls : session.call? action with
  | none => simp [calls] at listed
  | some caller =>
      obtain ⟨tx, call⟩ := caller
      rw [calls] at listed
      obtain ⟨middle, called, pool⟩ := shielded.called undisturbed calls
      obtain ⟨rfl, cached, alone, kept⟩ := called.walked.visited visit listed
      refine ⟨fun other carries => (alone other (run.has_of_carries initial carries)).symm,
        fun other dirty => (alone other ?_).symm, ?_⟩
      · exact called.walked.reads.owned shielded.guarded cached dirty
      rcases kept with has | ⟨inserts, passed⟩
      · -- The lock that the call left keeps everybody else from the page.
        right
        obtain ⟨now, known, shown⟩ := called.rewritten has.shared cached
        refine ⟨⟨now, pool ▸ known, shown.imp_right fun writes => ⟨call, calls, writes.2⟩⟩,
          fun later final more goes => ?_⟩
        have after : (session.act action).1.pool.locks.Has visit.tx visit.id visit.mode := by
          rwa [pool, called.rewrites.locks]
        obtain ⟨still, page, found⟩ := more.keeps advances.shielded goes after (pool ▸ known)
        have last := more.shielded advances.shielded
        exact ⟨still, page, found, fun next permitted goesNow =>
          (last.act permitted).shows visit.tx visit.id page goesNow still.shared found⟩
      · exact Or.inl ⟨call, calls, inserts, passed⟩

/-- Before a transaction completes, nothing takes away a lock that it has, nobody else has changed a
page that is handed to it, and such a page changes only through inserts and deletes of its own, unless
an insert gave it up at once. Pages are handed out as answers and wherever one is read into memory. -/
theorem isolation_of_run {config : Config} (cache : start.pool.cache = .empty)
    (locks : start.pool.locks = .empty config) (parked : start.parked = .empty)
    (run : Run Undisturbed start history session) (undisturbed : session.Undisturbed action) :
    (∀ tx id mode, action.completes tx = false → session.pool.locks.Has tx id mode →
      (session.act action).1.pool.locks.Has tx id mode) ∧
    (∀ visit ∈ session.visits action, Isolated start history session action visit) ∧
    (∀ page, (session.act action).2 = some (.ok (.page page)) →
      ∃ visit ∈ session.visits action, visit.page = page) ∧
    ∀ tx call id page, session.call? action = some (tx, call) → session.pool.cache.get? id = none →
      (session.act action).1.pool.cache.get? id = some page →
      ∃ visit ∈ session.visits action, visit.id = id := by
  have initial : start.Shielded :=
    ⟨Pool.guarded_of_empty cache (locks ▸ LockTable.sound_empty config), by simp [parked]⟩
  have shielded := run.shielded initial
  exact ⟨(shielded.act undisturbed).keeps, fun visit listed => run.isolated initial undisturbed listed,
    fun page answered => visit_of_answer answered,
    fun tx call id page calls missing loaded => shielded.visit_of_loaded undisturbed calls missing loaded⟩

/-- A transaction that waits for one that inserts looks at the page after that one committed, and then
locks it to write. -/
theorem isolation_of_waiter :
    ∃ history session, Run Undisturbed integerSession history session ∧
      (session.visits (.resume ⟨2⟩)).map Visit.mode = [.shared, .exclusive] ∧
      ∀ visit ∈ session.visits (.resume ⟨2⟩), Isolated integerSession history session (.resume ⟨2⟩) visit := by
  have run := (((@Run.start Undisturbed integerSession).step
    (.call ⟨1⟩ (integerInsert 7)) ⟨rfl, by decide, rfl⟩).step
    (.call ⟨2⟩ (integerInsert 8)) ⟨by decide +kernel, by decide, rfl⟩).step (.complete ⟨1⟩ true) trivial
  refine ⟨_, _, run, by decide +kernel, ?_⟩
  exact (isolation_of_run (show integerSession.pool.cache = .empty from rfl)
    (show integerSession.pool.locks = .empty .default from rfl)
    (show integerSession.parked = .empty from rfl) run (show _ ∈ _ by decide +kernel)).2.1

end Session

end RowStore
