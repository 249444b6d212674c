import RowStore.Proofs.Pool.Tail
import RowStore.Proofs.Session.Reached

namespace RowStore

/-! What others leave to a transaction, and what an insert that waits can rely on.

Nobody but a transaction itself changes what it has locked. So an insert that waits to look
at a page still has not locked that page when it goes on.
-/

theorem InsertStage.Awaits.keep {tx : TxId} {table : TableId} {pool after : Pool} {stage : InsertStage}
    (awaits : stage.Awaits tx table pool)
    (less : ∀ id, after.locks.Has tx id .shared → pool.locks.Has tx id .shared) :
    stage.Awaits tx table after := by
  cases stage with
  | inspecting number heldBefore rest => exact ⟨awaits.1, mt (less _) awaits.2⟩
  | start | claiming | appending => trivial

namespace Call

/-- An insert that waits to look at a page has not locked it. -/
def Awaits (tx : TxId) (pool : Pool) : Call → Prop
  | .insert table _ stage => stage.Awaits tx table pool
  | _ => True

theorem Awaits.keep {tx : TxId} {pool after : Pool} {call : Call} (awaits : call.Awaits tx pool)
    (less : ∀ id, after.locks.Has tx id .shared → pool.locks.Has tx id .shared) : call.Awaits tx after := by
  cases call with
  | insert => exact InsertStage.Awaits.keep awaits less
  | _ => trivial

end Call

namespace Pool

variable {pool after : Pool} {tx other : TxId} {table : TableId} {id : PageId} {mode : LockMode}

theorem StepsOn.has_iff {touched : Option TableId} (steps : StepsOn other touched pool after)
    (inFiles : pool.WithinFiles) (differs : tx ≠ other) :
    after.locks.Has tx id mode ↔ pool.locks.Has tx id mode := by
  cases touched with
  | none => exact steps ▸ Iff.rfl
  | some table => exact Steps.has_iff steps inFiles differs

/-- Nobody loses a lock by a delete. -/
theorem has_delete {other : TxId} (has : pool.locks.Has other id mode) (location : Option RecordId) :
    (pool.delete tx location).1.locks.Has other id mode := by
  unfold Pool.delete Pool.remove
  split
  · exact has
  · next record =>
    split
    · exact has
    · next file _ =>
      by_cases own : record.page.table = file.id
      · by_cases inside : record.page.number < file.pageCount
        · simp only [if_pos own, if_pos inside]
          have more := @has_fetch pool tx other id record.page .exclusive mode has
          generalize pool.fetch tx record.page .exclusive = result at more ⊢
          obtain ⟨middle, outcome⟩ := result
          cases outcome with
          | parked | failed => exact more
          | done page =>
              simp only
              obtain ⟨changed, outcome⟩ := page.delete (some record)
              cases outcome with
              | ok =>
                  simp only [locks_markDirty]
                  exact more
              | error => exact more
        · simp only [if_pos own, if_neg inside]
          exact has
      · simp only [if_neg own]
        exact has

/-! ## Calls -/

section Cursor

variable {cursor : Cursor} (scans : Call.Scans tx cursor) (pool : Pool)
include scans

theorem fetching_hasNext : ∃ table, Fetching tx table pool (cursor.hasNext pool).1 := by
  obtain ⟨rfl, table, label, source, plan⟩ := scans
  obtain ⟨tx, _, state⟩ := cursor
  subst plan
  cases state with
  | none => exact ⟨table, .refl⟩
  | some position => exact ⟨table, fetching_scanHasNext pool tx table position⟩

theorem fetching_next : ∃ table, Fetching tx table pool (cursor.next pool).1 := by
  obtain ⟨rfl, table, label, source, plan⟩ := scans
  obtain ⟨tx, _, state⟩ := cursor
  subst plan
  cases state with
  | none => exact ⟨table, .refl⟩
  | some position => exact ⟨table, fetching_scanNext pool tx table position⟩

theorem fetching_rest : ∃ table, Fetching tx table pool (cursor.rest pool).1 := by
  obtain ⟨rfl, table, label, source, plan⟩ := scans
  obtain ⟨tx, _, state⟩ := cursor
  subst plan
  cases state with
  | none => exact ⟨table, .refl⟩
  | some position => exact ⟨table, fetching_scanAll pool tx table position⟩

end Cursor

variable {call again : Call}

/-- A call that writes no row only fetches pages. -/
theorem fetching_run (within : call.Within tx pool) (idle : call.write? = none) :
    ∃ table, Fetching tx table pool (call.run tx pool).1 := by
  cases call with
  | fetch id mode => exact ⟨id.table, fetching_fetch pool tx id.table id.number mode⟩
  | insert | place => contradiction
  | delete location =>
      cases location with
      | none => exact ⟨0, .refl⟩
      | some => contradiction
  | scan table position => exact ⟨table, fetching_scanAll pool tx table position⟩
  | start cursor =>
      obtain ⟨same, _⟩ := @cursorStart pool tx cursor within
      exact ⟨0, same.symm ▸ .refl⟩
  | hasNext => exact fetching_hasNext within pool
  | next => exact fetching_next within pool
  | drain cursor rows =>
      have fetching := fetching_rest within pool
      simp only [Call.run]
      generalize cursor.rest pool = result at fetching ⊢
      obtain ⟨after, reached, more, outcome⟩ := result
      cases outcome <;> exact fetching
  | remove => exact within.elim

theorem reads_run (within : call.Within tx pool) (idle : call.write? = none) :
    Reads pool (call.run tx pool).1 := by
  obtain ⟨_, fetching⟩ := fetching_run within idle
  exact fetching.reads

/-- What a call leaves: files keep what follows their pages, and an insert that parks waits for a page
that it has not locked. -/
structure Endures (tx : TxId) (pool : Pool) (result : Pool × Stop) : Prop where
  trails : Trails pool result.1
  awaits : ∀ again, result.2 = .parked again → again.Awaits tx result.1

theorem Endures.settle {σ α : Type} {outcome : Outcome σ α} {next : σ → Call} {write : α → Answer}
    (trails : Trails pool after) (awaits : ∀ stage, outcome = .parked stage → (next stage).Awaits tx after) :
    Endures tx pool (after, Call.settle outcome next write) := by
  refine ⟨trails, fun again same => ?_⟩
  cases outcome with
  | done | failed => simp [Call.settle] at same
  | parked stage =>
      cases same
      exact awaits stage rfl

theorem Endures.settleQuery {α : Type} {cursor : Cursor} {outcome : Outcome Unit α} {next : Cursor → Call}
    {write : α → Answer} (trails : Trails pool after) (awaits : (next cursor).Awaits tx after) :
    Endures tx pool (after, Call.settleQuery cursor outcome next write) := by
  refine ⟨trails, fun again same => ?_⟩
  cases outcome with
  | done | failed => simp [Call.settleQuery] at same
  | parked =>
      cases same
      exact awaits

theorem InsertEffect.awaits {row : Row} {mark : Page → Page} {held : PageId → LockMode → Prop}
    {ahead strays : List Nat}
    {result : InsertOutcome} {stage : InsertStage}
    (effect : InsertEffect tx table row mark held ahead strays pool result) (parked : result.2 = .parked stage) : stage.Awaits tx table result.1 := by
  cases effect with
  | put | failed => contradiction
  | parked _ _ _ waits =>
      cases parked
      exact waits

theorem WithinFiles.endures_run (inFiles : pool.WithinFiles) (tails : pool.TailsAsStored)
    (within : call.Within tx pool)
    (awaits : call.Awaits tx pool) : Endures tx pool (call.run tx pool) := by
  cases call with
  | fetch id mode => exact .settle (tails.reads (reads_fetch pool tx id mode)) fun _ _ => trivial
  | insert table row stage =>
      have effect := @WithinFiles.insertEffect_insert pool tx table row [] stage _ inFiles within.2 awaits
        (.refl tx table _ pool)
      have trails := effect.trails tails
      exact .settle trails fun _ parked => effect.awaits parked
  | delete location => exact .settle (inFiles.trails_delete tails tx location) fun _ _ => trivial
  | scan table position rows =>
      exact .settle (tails.reads (fetching_scanAll pool tx table position).reads) fun _ _ => trivial
  | start cursor =>
      obtain ⟨same, _⟩ := @cursorStart pool tx cursor within
      have trails : Trails pool (cursor.start pool).1 := same.symm ▸ tails.refl
      exact .settleQuery trails trivial
  | hasNext cursor => exact .settleQuery (tails.reads (reads_run within rfl)) trivial
  | next cursor => exact .settleQuery (tails.reads (reads_run within rfl)) trivial
  | drain cursor rows =>
      obtain ⟨_, fetching⟩ := fetching_rest within pool
      have reads := fetching.reads
      simp only [Call.run]
      generalize cursor.rest pool = result at reads ⊢
      obtain ⟨after, reached, more, outcome⟩ := result
      cases outcome with
      | done | failed => exact ⟨tails.reads reads, fun _ same => by cases same⟩
      | parked =>
          refine ⟨tails.reads reads, fun again same => ?_⟩
          cases same
          trivial
  | place | remove => exact within.elim

end Pool

/-- A row is inserted by a new call. -/
abbrev SessionAction.insert (tx : TxId) (table : TableId) (row : Row) : SessionAction :=
  .call tx (.insert table row .start)

/-- The transaction that an action is one of. -/
def SessionAction.actor? : SessionAction → Option TxId
  | .call tx _ | .resume tx | .complete tx _ => some tx
  | _ => none

namespace Session

variable {session after : Session} {action : SessionAction} {tx : TxId} {id : PageId} {mode : LockMode}

/-- What a transaction has locked is for itself to change. -/
theorem WithinFiles.has_act_iff (inFiles : session.WithinFiles) (enabled : session.Enabled action)
    (apart : action.actor? ≠ some tx) :
    (session.act action).1.pool.locks.Has tx id mode ↔ session.pool.locks.Has tx id mode := by
  have flush : ∀ owner, (session.pool.flushEach (session.pool.dirtyPages owner)).1.locks = session.pool.locks := by
    intro owner
    obtain ⟨_, _, _, flushes, _⟩ := inFiles.pool.flushEach (inFiles.pool.named.listed owner)
    exact flushes.locks
  cases action with
  | call other call =>
      exact (inFiles.steps enabled rfl).has_iff inFiles.pool fun same => apart (congrArg some same.symm)
  | resume other =>
      cases found : session.parked.get? other with
      | none => rw [act_resume_of_missing found]
      | some call =>
          have steps := inFiles.steps enabled (call?_resume found)
          exact steps.has_iff inFiles.pool fun same => apart (congrArg some same.symm)
  | complete other commit =>
      have differs : tx ≠ other := fun same => apart (congrArg some same.symm)
      cases commit with
      | true => exact (inFiles.pool.commit other).1.has tx id mode differs
      | false => exact (inFiles.pool.abort other).1.has tx id mode differs
  | flush other =>
      change (session.pool.flushEach _).1.locks.Has tx id mode ↔ _
      rw [flush]
  | flushAll =>
      change (session.pool.flushEach _).1.locks.Has tx id mode ↔ _
      rw [flush]
  | interrupt other =>
      change (session.pool.locks.interrupt other).Has tx id mode ↔ _
      simp [LockTable.Has, LockTable.lockOn]
  | expire | discard | limitWrites | reorder => rfl

section Insert

variable {table : TableId} {row : Row} {stage : InsertStage}
variable (calls : session.call? action = some (tx, .insert table row stage))
include calls

theorem pool_of_insert : (session.act action).1.pool = (session.pool.insert tx table row stage).1 := by
  rw [act_of_call calls, pool_run]
  rfl

theorem insert_of_answered (answered : (session.act action).2 = some (.ok .nothing)) :
    ∃ number, (session.pool.insert tx table row stage).2 = .done number := by
  rw [act_of_call calls] at answered
  simp only [Call.run] at answered
  generalize session.pool.insert tx table row stage = result at answered ⊢
  obtain ⟨pool, outcome⟩ := result
  cases outcome with
  | done number => exact ⟨number, rfl⟩
  | failed | parked => simp [Call.settle, Stop.result?] at answered

end Insert

/-! ## Every state that is reached -/

/-- Past the ends of files memory shows what the files have, and parked inserts wait for pages that they
have not locked. -/
structure TailsAndWaits (session : Session) : Prop where
  tails : session.pool.TailsAsStored
  awaits : ∀ tx call, session.parked.get? tx = some call → call.Awaits tx session.pool

theorem TailsAndWaits.awaits_call (awaiting : session.TailsAndWaits) {call : Call}
    (enabled : session.Enabled action)
    (calls : session.call? action = some (tx, call)) : call.Awaits tx session.pool := by
  cases action with
  | call other begun =>
      cases calls
      have client := enabled.2
      cases call with
      | insert table row stage =>
          obtain ⟨_, rfl⟩ := client
          trivial
      | _ => trivial
  | resume other =>
      obtain ⟨waiting, found, same⟩ := Option.map_eq_some_iff.mp calls
      cases same
      exact awaiting.awaits tx call found
  | _ => contradiction

/-- What an insert can do when it begins or goes on. -/
theorem insertEffect_insert {table : TableId} {row : Row} {stage : InsertStage} {held : PageId → LockMode → Prop}
    {strays : List Nat} (inFiles : session.WithinFiles) (awaiting : session.TailsAndWaits)
    (enabled : session.Enabled action) (calls : session.call? action = some (tx, .insert table row stage))
    (owns : Pool.Owns tx table held strays (stage.Pending table) session.pool) :
    Pool.InsertEffect tx table row (Page.markDirty · (some tx)) held (stage.ahead (session.pool.pageCount table))
      (session.pool.overrun tx table stage ++ strays) session.pool (session.pool.insert tx table row stage) :=
  inFiles.pool.insertEffect_insert (inFiles.within enabled calls).2 (awaiting.awaits_call enabled calls) owns

/-- Who waits has nothing more than before when an action ran that is no call of its own. -/
theorem WithinFiles.has_of_idle (inFiles : session.WithinFiles) (enabled : session.Enabled action)
    (idle : session.call? action = none)
    (has : (session.act action).1.pool.locks.Has tx id mode) : session.pool.locks.Has tx id mode := by
  by_cases own : action.actor? = some tx
  · cases action with
    | call => contradiction
    | resume other =>
        have missing := Option.map_eq_none_iff.mp idle
        rwa [act_resume_of_missing missing] at has
    | complete other commit =>
        obtain rfl : other = tx := Option.some.inj own
        cases commit with
        | true => exact absurd has.1 ((inFiles.pool.commit other).1.forgotten.holds id)
        | false => exact absurd has.1 ((inFiles.pool.abort other).1.forgotten.holds id)
    | _ => contradiction
  · exact (inFiles.has_act_iff enabled own).mp has

/-- A transaction keeps its locks until it completes, whatever it calls for: an insert gives up only pages
that it locked itself. -/
theorem WithinFiles.has_act (inFiles : session.WithinFiles) (awaiting : session.TailsAndWaits)
    (enabled : session.Enabled action)
    (effect : action.completes tx = false) (has : session.pool.locks.Has tx id mode) :
    (session.act action).1.pool.locks.Has tx id mode := by
  by_cases own : ∃ call, session.call? action = some (tx, call)
  · obtain ⟨call, calls⟩ := own
    have within := inFiles.within enabled calls
    cases call with
    | insert table row stage =>
        have effect := insertEffect_insert inFiles awaiting enabled calls (.refl tx table _ session.pool)
        rw [pool_of_insert calls]
        generalize session.pool.insert tx table row stage = result at effect
        cases effect with
        | put _ _ _ _ _ owns _ puts => exact puts.locks ▸ owns.has id mode (.inl has)
        | failed _ _ _ keeps => exact keeps id mode has
        | parked _ _ owns => exact owns.has id mode (.inl has)
    | delete location =>
        rw [act_of_call calls, pool_run]
        exact Pool.has_delete has location
    | place | remove => exact within.elim
    | fetch | scan | start | hasNext | next | drain =>
        rw [act_of_call calls, pool_run]
        obtain ⟨_, fetching⟩ := Pool.fetching_run within rfl
        exact fetching.has has
  · cases action with
    | call other call =>
        refine (inFiles.has_act_iff enabled fun same => own ⟨call, ?_⟩).mpr has
        rw [Option.some.inj same]
        rfl
    | resume other =>
        cases found : session.parked.get? other with
        | none =>
            rw [act_resume_of_missing found]
            exact has
        | some call =>
            refine (inFiles.has_act_iff enabled fun same => own ⟨call, ?_⟩).mpr has
            rw [call?_resume found, Option.some.inj same]
    | complete other commit =>
        have differs : other ≠ tx := by simpa [SessionAction.completes] using effect
        exact (inFiles.has_act_iff enabled fun same => differs (Option.some.inj same)).mpr has
    | _ => exact (inFiles.has_act_iff enabled (by simp [SessionAction.actor?])).mpr has

section Develop

variable (inFiles : session.WithinFiles) (awaiting : session.TailsAndWaits)
include inFiles awaiting

/-- What an action that runs no call does to the ends of files. -/
theorem WithinFiles.trails_idle (enabled : session.Enabled action) (idle : session.call? action = none) :
    Pool.Trails session.pool (session.act action).1.pool := by
  have tails := awaiting.tails
  have kept : ∀ pages, Pool.Listed session.pool pages →
      Pool.Trails session.pool (session.pool.flushEach pages).1 := fun _ listed =>
    inFiles.pool.trails_flushEach tails listed
  cases action with
  | call => contradiction
  | resume other =>
      have missing := Option.map_eq_none_iff.mp idle
      rw [act_resume_of_missing missing]
      exact tails.refl
  | complete other commit =>
      cases commit with
      | true => exact inFiles.pool.trails_commit tails other
      | false => exact inFiles.pool.trails_abort tails other
  | flush other => exact kept _ (inFiles.pool.named.listed (some other))
  | flushAll => exact kept _ (inFiles.pool.named.listed none)
  | interrupt | expire => exact tails.reads (.of_locks session.pool _)
  | limitWrites =>
      refine tails.keep_disk (fun handle => ?_) (fun _ => rfl) fun id page found => .inl ?_
      · cases handle <;> rfl
      · exact Pool.loaded_of_cached found
  | discard page =>
      refine tails.keep_disk (fun _ => rfl) (fun _ => rfl) fun id other found => .inl ?_
      rw [show (session.act (.discard page)).1.pool.cache.get? id = _ from FinMap.get?_erase _ _ _] at found
      split at found
      · contradiction
      · exact Pool.loaded_of_cached found
  | reorder cache =>
      refine tails.keep_disk (fun _ => rfl) (fun _ => rfl) fun id page found => .inl ?_
      exact Pool.loaded_of_cached ((enabled id).symm.trans found)

theorem TailsAndWaits.act (enabled : session.Enabled action) :
    Pool.Trails session.pool (session.act action).1.pool ∧ (session.act action).1.TailsAndWaits := by
  cases calls : session.call? action with
  | none =>
      have trails := inFiles.trails_idle awaiting enabled calls
      obtain ⟨pool, same, _⟩ := act_of_idle calls
      refine ⟨trails, trails.tails, fun other waiting found => ?_⟩
      have parked : session.parked.get? other = some waiting := by rwa [same] at found
      exact (awaiting.awaits other waiting parked).keep fun id => inFiles.has_of_idle enabled calls
  | some caller =>
      obtain ⟨other, call⟩ := caller
      have within := inFiles.within enabled calls
      have endures := inFiles.pool.endures_run awaiting.tails within (awaiting.awaits_call enabled calls)
      have steps := inFiles.steps enabled calls
      rw [act_of_call calls] at steps ⊢
      simp only [pool_run] at steps ⊢
      refine ⟨endures.trails, ?_, fun waiter waiting found => ?_⟩
      · rw [pool_run]
        exact endures.trails.tails
      · rw [pool_run]
        obtain ⟨rfl, parked⟩ | ⟨differs, before⟩ := of_parked_run session other call found
        · exact endures.awaits waiting parked
        · exact (awaiting.awaits waiter waiting before).keep fun id =>
            (steps.has_iff inFiles.pool differs).mp

theorem TailsAndWaits.addTable {opening : Opening} {disk : Disk} {file : TableFile}
    (made : TableFile.openAt session.pool.disk opening.path opening.schema opening.pageSize =
      .ok (disk, file)) :
    Pool.Trails session.pool ({ session.pool with disk }.addTable file) ∧
      (session.withPool ({ session.pool with disk }.addTable file)).TailsAndWaits := by
  have trails := inFiles.pool.trails_addTable awaiting.tails made
  refine ⟨trails, trails.tails, fun other waiting found => ?_⟩
  exact (awaiting.awaits other waiting found).keep fun _ has => has

theorem TailsAndWaits.develops (step : session.Develops Enabled after) :
    Pool.Trails session.pool after.pool ∧ after.TailsAndWaits := by
  cases step with
  | created made =>
      obtain ⟨disk, file, opened, _, rfl⟩ := createTable_eq_ok made
      obtain ⟨trails, kept⟩ := @TailsAndWaits.addTable _ inFiles awaiting ⟨_, _, _⟩ _ _ opened
      exact ⟨trails, kept.tails, kept.awaits⟩
  | registered made => exact awaiting.addTable inFiles made
  | acted enabled => exact awaiting.act inFiles enabled
  | released tx page =>
      have trails := awaiting.tails.reads (.of_locks session.pool (session.pool.locks.release tx page))
      refine ⟨trails, trails.tails, fun other waiting found => ?_⟩
      refine (awaiting.awaits other waiting found).keep fun id has => ?_
      exact (LockTable.has_release_iff.mp has).1

end Develop

theorem Reached.tailsAndWaits (reached : Reached session) : session.TailsAndWaits := by
  induction reached with
  | opened sound made =>
      obtain ⟨_, _, rfl⟩ := openAt_eq_ok made
      refine ⟨⟨fun _ _ found => ?_, fun _ _ _ found => ?_⟩, fun _ _ found => ?_⟩ <;> contradiction
  | developed before step ih => exact (ih.develops before.inFiles step).2

end Session

end RowStore
