import RowStore.Proofs.Pool.WithinFiles
import RowStore.Proofs.Pool.Ending
import RowStore.Proofs.Session.Steps

namespace RowStore

/-! What a directory can be brought to, and what holds of it then.

Tables are created and registered at any time, transactions call and park and go on in
any order, waits are ended and run out, pages are flushed, dropped and given up, and
writes fail and work again. Through all of this the pages in memory fit their files.
-/

theorem Pool.StepsOn.inFiles {pool after : Pool} {tx : TxId} {touched : Option TableId}
    (steps : StepsOn tx touched pool after) (inFiles : pool.WithinFiles) : after.WithinFiles := by
  cases touched with
  | none => exact steps ▸ inFiles
  | some table => exact Steps.inFiles steps inFiles

namespace Session

variable {session after : Session} {action : SessionAction} {tx : TxId} {call : Call} {pool : Pool}
variable {allowed : Session → SessionAction → Prop}

/-- One step of a directory. Which actions are allowed is a parameter. -/
inductive Develops (allowed : Session → SessionAction → Prop) (session : Session) : Session → Prop
  | created {name : String} {schema : Schema} {db : Database} {table : TableId}
      (made : session.db.createTable name schema = .ok (db, table)) :
      Develops allowed session { session with db }
  /-- A file is registered under no name. -/
  | registered {opening : Opening} {disk : Disk} {file : TableFile}
      (made : TableFile.openAt session.pool.disk opening.path opening.schema opening.pageSize =
        .ok (disk, file)) :
      Develops allowed session (session.withPool ({ session.pool with disk }.addTable file))
  | acted {action : SessionAction} (permitted : allowed session action) :
      Develops allowed session (session.act action).1
  /-- A client gives up a page before its transaction ends. -/
  | released (tx : TxId) (page : PageId) :
      Develops allowed session (session.withPool (session.pool.release tx page))

/-- The states that a directory can be brought to after it was opened. -/
inductive Reached : Session → Prop
  | opened {disk : Disk} {directory : Path} {config : Config} {db : Database} (sound : disk.Sound)
      (made : Database.openAt disk directory config = .ok db) : Reached (ofDatabase db)
  | developed {session after : Session} (before : Reached session)
      (step : session.Develops Enabled after) : Reached after

/-- Pages fit their files, and parked calls can go on in their files. -/
structure WithinFiles (session : Session) : Prop where
  pool : session.pool.WithinFiles
  parked : ∀ tx call, session.parked.get? tx = some call → call.Within tx session.pool

theorem WithinFiles.withPool (inFiles : session.WithinFiles) (next : pool.WithinFiles)
    (longer : ∀ table, session.pool.pageCount table ≤ pool.pageCount table) :
    (session.withPool pool).WithinFiles :=
  ⟨next, fun tx call found => (inFiles.parked tx call found).keep longer⟩

theorem WithinFiles.run (inFiles : session.WithinFiles) (within : call.Within tx session.pool) :
    (session.run tx call).1.WithinFiles := by
  have proceeds := inFiles.pool.named.runCall within
  have steps := proceeds.steps
  rw [← pool_run session tx call] at steps
  refine ⟨?_, fun other waiting found => ?_⟩
  · exact steps.inFiles inFiles.pool
  · obtain ⟨rfl, parked⟩ | ⟨_, before⟩ := of_parked_run session tx call found
    · rw [pool_run]
      exact (proceeds.parked waiting parked).1
    · exact (inFiles.parked other waiting before).keep fun table => steps.grows.pageCount_le table

theorem pageCount_congr {after : Pool} (same : after.tables = pool.tables) (table : TableId) :
    pool.pageCount table ≤ after.pageCount table := by
  rw [Pool.pageCount, Pool.pageCount, same]

theorem WithinFiles.act (inFiles : session.WithinFiles) (enabled : session.Enabled action) :
    (session.act action).1.WithinFiles := by
  have flush : ∀ owner, (session.pool.flushEach (session.pool.dirtyPages owner)).1.WithinFiles ∧
      (session.pool.flushEach (session.pool.dirtyPages owner)).1.tables = session.pool.tables := by
    intro owner
    obtain ⟨written, _, _, flushes, _⟩ := inFiles.pool.flushEach (inFiles.pool.named.listed owner)
    exact ⟨flushes.inFiles, flushes.tables⟩
  cases action with
  | call tx call => exact inFiles.run (enabled.2.within session.pool)
  | resume tx =>
      simp only [Session.act, Session.resume]
      split
      · next call found => exact inFiles.run (inFiles.parked tx call found)
      · exact inFiles
  | complete tx commit =>
      cases commit with
      | true =>
          have ended := (inFiles.pool.commit tx).1
          exact inFiles.withPool ended.inFiles (pageCount_congr ended.tables)
      | false =>
          have ended := (inFiles.pool.abort tx).1
          exact inFiles.withPool ended.inFiles (pageCount_congr ended.tables)
  | interrupt tx =>
      exact inFiles.withPool (inFiles.pool.withLocks (inFiles.pool.locks.interrupt tx)) (pageCount_congr rfl)
  | expire overdue =>
      exact inFiles.withPool (inFiles.pool.withLocks (inFiles.pool.locks.expire overdue)) (pageCount_congr rfl)
  | flush tx => exact inFiles.withPool (flush (some tx)).1 (pageCount_congr (flush (some tx)).2)
  | flushAll => exact inFiles.withPool (flush none).1 (pageCount_congr (flush none).2)
  | discard page =>
      refine inFiles.withPool (inFiles.pool.withCache fun id other found => ?_) (pageCount_congr rfl)
      rw [FinMap.get?_erase] at found
      split at found
      · contradiction
      · exact found
  | limitWrites fail left =>
      exact inFiles.withPool (inFiles.pool.limitWrites fail left) (pageCount_congr rfl)
  | reorder cache =>
      exact inFiles.withPool (inFiles.pool.withCache fun id page found => (enabled id).symm.trans found)
        (pageCount_congr rfl)

theorem WithinFiles.within (inFiles : session.WithinFiles) (enabled : session.Enabled action)
    (calls : session.call? action = some (tx, call)) : call.Within tx session.pool := by
  cases action with
  | call other begun =>
      cases calls
      exact enabled.2.within session.pool
  | resume other =>
      obtain ⟨waiting, found, same⟩ := Option.map_eq_some_iff.mp calls
      cases same
      exact inFiles.parked tx call found
  | _ => contradiction

/-- What a call does consists of steps on its table. -/
theorem WithinFiles.steps (inFiles : session.WithinFiles) (enabled : session.Enabled action)
    (calls : session.call? action = some (tx, call)) :
    Pool.StepsOn tx call.table? session.pool (session.act action).1.pool := by
  rw [act_of_call calls, pool_run]
  exact (inFiles.pool.named.runCall (inFiles.within enabled calls)).steps

theorem WithinFiles.grows (inFiles : session.WithinFiles) (enabled : session.Enabled action) :
    Pool.Grows session.pool (session.act action).1.pool := by
  cases calls : session.call? action with
  | none =>
      obtain ⟨pool, same, tables, nodes⟩ := act_of_idle calls
      rw [same]
      exact Pool.Grows.of_same tables nodes
  | some caller => exact (inFiles.steps enabled calls).grows

theorem WithinFiles.addTable (inFiles : session.WithinFiles) {opening : Opening} {disk : Disk} {file : TableFile}
    (made : TableFile.openAt session.pool.disk opening.path opening.schema opening.pageSize =
      .ok (disk, file)) :
    (session.withPool ({ session.pool with disk }.addTable file)).WithinFiles := by
  refine inFiles.withPool (inFiles.pool.addTable made) fun table => ?_
  cases known : session.pool.tables.get? table with
  | none => simp [Pool.pageCount, known]
  | some other =>
      have same : ({ session.pool with disk }.addTable file).tables.get? table = some other := by
        rw [Pool.get?_addTable]
        split
        · next here => rw [← here]; simp [known]
        · exact known
      rw [Pool.pageCount_eq known, Pool.pageCount_eq same]

theorem createTable_eq_ok {db changed : Database} {name : String} {schema : Schema} {table : TableId}
    (made : db.createTable name schema = .ok (changed, table)) :
    ∃ disk file, TableFile.openAt db.pool.disk (db.tablePath name) schema db.pool.config.pageSize =
      .ok (disk, file) ∧ table = file.id ∧ changed = { db with
        names := db.names.insert name file.id
        pool := { db.pool with disk }.addTable file } := by
  unfold Database.createTable at made
  split at made
  · contradiction
  · next disk file opened =>
    cases made
    exact ⟨disk, file, opened, rfl, rfl⟩

/-- A database begins with no table, an empty pool, and its directory made. -/
theorem openAt_eq_ok {disk : Disk} {directory : Path} {config : Config} {db : Database}
    (made : Database.openAt disk directory config = .ok db) :
    ∃ ready, disk.makeDirectories directory = .ok ready ∧ db = ⟨directory, .empty, .empty config ready⟩ := by
  unfold Database.openAt at made
  split at made
  · contradiction
  · split at made
    · contradiction
    · next ready prepared =>
      cases made
      exact ⟨ready, prepared, rfl⟩

theorem withinFiles_of_opened {disk : Disk} {directory : Path} {config : Config} {db : Database}
    (sound : disk.Sound) (made : Database.openAt disk directory config = .ok db) :
    (ofDatabase db).WithinFiles := by
  obtain ⟨ready, prepared, rfl⟩ := openAt_eq_ok made
  have kept : ready.Sound := sound.makeAlong prepared
  refine ⟨⟨LockTable.sound_empty config, kept, fun _ _ found => ?_, fun _ _ found => ?_⟩,
    fun _ _ found => ?_⟩ <;> contradiction

theorem WithinFiles.develops (inFiles : session.WithinFiles) (step : session.Develops Enabled after) :
    after.WithinFiles := by
  cases step with
  | created made =>
      obtain ⟨disk, file, opened, _, rfl⟩ := createTable_eq_ok made
      have added := @WithinFiles.addTable _ inFiles ⟨_, _, _⟩ _ _ opened
      exact ⟨added.pool, added.parked⟩
  | registered made => exact inFiles.addTable made
  | acted enabled => exact inFiles.act enabled
  | released tx page =>
      exact inFiles.withPool (inFiles.pool.withLocks (inFiles.pool.locks.release tx page)) (pageCount_congr rfl)

theorem Reached.inFiles (reached : Reached session) : session.WithinFiles := by
  induction reached with
  | opened sound made => exact withinFiles_of_opened sound made
  | developed _ step ih => exact ih.develops step

end Session
end RowStore
