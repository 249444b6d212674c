import RowStore.Proofs.Pool.Listing
import RowStore.Proofs.Session.PastEnd
import RowStore.Proofs.Session.Repeats

namespace RowStore

/-! A scan of a table that stands still.

Between the calls of a scan anything can happen that leaves the rows and the pages of the
table as they are, to its own transaction too. Then the scan hands out every row of the
table once, in order, and stops nowhere else but at a page that it cannot have.
-/

namespace Call

variable {pool : Pool} {tx : TxId} {call : Call}

theorem Within.resumable (within : call.Within tx pool) {goal : TableId × ScanPosition × List Row}
    (reads : call.reads? = some goal) : call.Resumable tx pool := by
  cases call with
  | scan => trivial
  | hasNext | next | drain => exact within
  | fetch | insert | delete | start | place | remove => contradiction

theorem write?_of_reads {goal : TableId × ScanPosition × List Row} (reads : call.reads? = some goal) :
    call.write? = none := by
  cases call with
  | scan | hasNext | next | drain => rfl
  | fetch | insert | delete | start | place | remove => contradiction

end Call

namespace Session

variable {origin session after : Session} {action : SessionAction} {tx : TxId} {table : TableId}
variable {pass next : Pass} {keeping : Prop} {rows : List Row} {cursor : Cursor}

/-- A transaction completes, or gives up a page of the table before. -/
def Yields (tx : TxId) (table : TableId) (session after : Session) : Prop :=
  (∃ commit, after = (session.act (.complete tx commit)).1) ∨
    ∃ number, after = session.withPool (session.pool.release tx ⟨table, number⟩)

/-- How far a pass came that began at the origin, while the table stood still. When the transaction keeps
its locks it does not yield meanwhile. -/
inductive Scanning (keeping : Prop) (tx : TxId) (table : TableId) (origin : Session) : Session → Pass → Prop
  | begun : Scanning keeping tx table origin origin .start
  | aside {session after : Session} {pass : Pass} (before : Scanning keeping tx table origin session pass)
      (step : session.Develops Enabled after) (unaltered : Pool.Unaltered table session.pool after.pool)
      (kept : keeping → ¬ Yields tx table session after) : Scanning keeping tx table origin after pass
  | onward {session : Session} {pass next : Pass} {action : SessionAction} {call : Call}
      (before : Scanning keeping tx table origin session pass) (enabled : session.Enabled action)
      (calls : session.call? action = some (tx, call))
      (reads : call.reads? = some (table, pass.position, pass.gathered))
      (moved : pass.moved (call.run tx session.pool).2 = some next) :
      Scanning keeping tx table origin (session.act action).1 next

theorem WithinFiles.has_develops (inFiles : session.WithinFiles) (awaiting : session.TailsAndWaits)
    (step : session.Develops Enabled after) (stays : ¬ Yields tx table session after) {number : Nat}
    {mode : LockMode} (has : session.pool.locks.Has tx ⟨table, number⟩ mode) :
    after.pool.locks.Has tx ⟨table, number⟩ mode := by
  cases step with
  | created made =>
      obtain ⟨_, _, _, _, rfl⟩ := createTable_eq_ok made
      exact has
  | registered => exact has
  | @acted action enabled =>
      refine inFiles.has_act awaiting enabled ?_ has
      cases action with
      | complete other commit =>
          simp only [SessionAction.completes, decide_eq_false_iff_not]
          rintro rfl
          exact stays (.inl ⟨commit, rfl⟩)
      | _ => rfl
  | released other page =>
      refine LockTable.has_release_iff.mpr ⟨has, ?_⟩
      rintro ⟨rfl, rfl⟩
      exact stays (.inr ⟨number, rfl⟩)

theorem Scanning.stands (scanning : Scanning keeping tx table origin session pass) (reached : Reached origin) :
    Reached session ∧ Pool.Unaltered table origin.pool session.pool ∧
      pass.Stands (Pool.Reaches keeping tx table) session.pool := by
  induction scanning with
  | begun => exact ⟨reached, .refl table _, reached.inFiles.pool.reaches_none⟩
  | @aside session after pass _ step unaltered kept ih =>
      obtain ⟨came, same, stands⟩ := ih
      have later := came.developed step
      exact ⟨later, same.trans unaltered, stands.keep later.inFiles.pool unaltered fun keeps number has =>
        came.inFiles.has_develops came.tailsAndWaits step (kept keeps) has⟩
  | @onward session pass next action call _ enabled calls reads moved ih =>
      obtain ⟨came, same, stands⟩ := ih
      have within := came.inFiles.within enabled calls
      have continues := (Pool.readsOn_reaches keeping tx table).continues stands (within.resumable reads) reads
      have looks := Pool.reads_run within (Call.write?_of_reads reads)
      refine ⟨came.developed (.acted enabled), ?_, ?_⟩
      · rw [act_of_call calls, pool_run]
        exact same.trans (looks.unaltered table)
      · rw [act_of_call calls, pool_run]
        exact continues.moved next moved

/-! ## What a scan answers -/

/-- If the transaction keeps its locks it has every page of the table locked. -/
def Covers (keeping : Prop) (tx : TxId) (table : TableId) (pool : Pool) : Prop :=
  keeping → ∀ number < pool.pageCount table, pool.locks.Has tx ⟨table, number⟩ .shared

/-- A pass waits for a page or cannot have it. It has gone on to that page, and has come by no row. -/
structure Stalled (tx : TxId) (table : TableId) (pool : Pool) (pass next : Pass)
    (result : Option (Except StoreError Answer)) : Prop where
  cause : result = none ∨ ∃ error, result = some (.error error) ∧ ((∃ reason, error = .aborted tx reason) ∨
    (pool.load ⟨table, next.position.nextPage⟩).2 = .failed error)
  handed : next.handed = pass.handed
  before : pass.position.queue = []
  now : next.position.queue = []
  ahead : pass.position.nextPage ≤ next.position.nextPage
  empty : ∀ number, pass.position.nextPage ≤ number ∧ number < next.position.nextPage →
    ∀ slot, pool.row? ⟨⟨table, number⟩, slot⟩ = none

/-- What a pass over the given rows says when it is asked whether there is another one. -/
inductive Tells (keeping : Prop) (tx : TxId) (table : TableId) (rows : List Row) (pool after : Pool)
    (pass next : Pass) : Option (Except StoreError Answer) → Prop
  | more (same : next.handed = pass.handed) (left : pass.handed ≠ rows) :
      Tells keeping tx table rows pool after pass next (some (.ok (.flag true)))
  | ended (same : next.handed = pass.handed) (all : pass.handed = rows) (covers : Covers keeping tx table after) :
      Tells keeping tx table rows pool after pass next (some (.ok (.flag false)))
  | stalled {result : Option (Except StoreError Answer)} (stalled : Stalled tx table pool pass next result) :
      Tells keeping tx table rows pool after pass next result

/-- What a pass over the given rows hands out next. -/
inductive Gives (keeping : Prop) (tx : TxId) (table : TableId) (rows : List Row) (pool after : Pool)
    (pass next : Pass) : Option (Except StoreError Answer) → Prop
  | row {row : Row} (handed : next.handed = pass.handed ++ [row]) (order : next.handed <+: rows) :
      Gives keeping tx table rows pool after pass next (some (.ok (.row row)))
  | ended (same : next.handed = pass.handed) (all : pass.handed = rows) (covers : Covers keeping tx table after) :
      Gives keeping tx table rows pool after pass next (some (.error .noMoreRows))
  | stalled {result : Option (Except StoreError Answer)} (stalled : Stalled tx table pool pass next result) :
      Gives keeping tx table rows pool after pass next result

end Session

namespace Pool

variable {pool after : Pool} {tx : TxId} {table : TableId} {keeping : Prop} {pass : Pass} {cursor : Cursor}
variable {count : Nat} {rows : List Row}

theorem Reaches.isPrefix (reaches : Reaches keeping tx table pool count rows) :
    rows <+: pool.rowsBefore table (pool.pageCount table) := by
  obtain ⟨more, total⟩ := Nat.exists_eq_add_of_le reaches.inside
  rw [total, rowsBefore_append, reaches.rows]
  exact List.prefix_append _ _

/-- Where a scan stalls that began to look at a position and had read no further row. -/
theorem Stalls.stalled {position reached : ScanPosition} {outcome : Outcome Unit Bool} {handed : List Row}
    {result : Option (Except StoreError Answer)}
    (stalls : Stalls tx table pool position (after, reached, outcome)) (undone : ∀ more, outcome ≠ .done more)
    (before : Reaches keeping tx table pool position.nextPage (handed ++ position.queue))
    (now : Reaches keeping tx table after reached.nextPage (handed ++ reached.queue)) (reads : Reads pool after)
    (cause : result = none ∨ ∃ error, result = some (.error error) ∧ outcome = .failed error) :
    Session.Stalled tx table pool ⟨position, handed, []⟩ ⟨reached, handed, []⟩ result := by
  obtain ⟨dry, empty, ahead⟩ := stalls.stopped undone
  have same : pool.rowsBefore table reached.nextPage = pool.rowsBefore table position.nextPage := by
    have inside := now.inside
    rw [reads.pageCount] at inside
    rw [← (reads.unaltered table).rowsBefore inside, ← now.rows, ← before.rows, dry, empty]
  refine ⟨cause.imp_right fun ⟨error, failed, stops⟩ => ⟨error, failed, stalls.cause error stops⟩, rfl, dry, empty,
    ahead, fun number between slot => row?_eq_none_of_rowsBefore ahead same between slot⟩

section Calls

variable (reads : Call.reads? (.hasNext cursor) = some (table, pass.position, pass.gathered))
variable (scans : Call.Scans tx cursor) (stands : pass.Stands (Reaches keeping tx table) pool)
include reads scans stands

theorem tells_hasNext : ∃ next, pass.moved ((Call.hasNext cursor).run tx pool).2 = some next ∧
    Session.Tells keeping tx table (pool.rowsBefore table (pool.pageCount table)) pool
      ((Call.hasNext cursor).run tx pool).1 pass next ((Call.hasNext cursor).run tx pool).2.result? := by
  obtain ⟨position, handed, gathered⟩ := pass
  obtain ⟨⟨table, position⟩, found, same⟩ := Option.map_eq_some_iff.mp reads
  cases same
  obtain ⟨label, source, rfl⟩ := scans.standing found
  have before : Reaches keeping tx table pool position.nextPage (handed ++ position.queue) := by
    simpa [Pass.Stands] using stands
  obtain ⟨now, more, ended, _⟩ := (readsOn_reaches keeping tx table).asks before
  have stalls := stalls_scanHasNext pool tx table position
  have looks := (fetching_scanHasNext pool tx table position).reads
  have still := looks.unaltered table
  simp only [Call.run, Cursor.hasNext, Plan.hasNext]
  generalize pool.scanHasNext tx table position = result at now more ended stalls looks still ⊢
  obtain ⟨after, reached, outcome⟩ := result
  have total : after.rowsBefore table (after.pageCount table) = pool.rowsBefore table (pool.pageCount table) := by
    rw [still.count, still.rowsBefore (Nat.le_refl _)]
  rw [← total]
  cases outcome with
  | parked => exact ⟨_, rfl, .stalled (stalls.stalled (by simp) before now looks (.inl rfl))⟩
  | failed error =>
      refine ⟨⟨reached, handed ++ [], []⟩, rfl, ?_⟩
      rw [List.append_nil]
      exact .stalled (stalls.stalled (by simp) before now looks (.inr ⟨error, rfl, rfl⟩))
  | done flag =>
      refine ⟨⟨reached, handed ++ [], []⟩, rfl, ?_⟩
      rw [List.append_nil]
      cases flag with
      | true =>
          refine .more rfl fun all => more rfl ?_
          change handed = _ at all
          have order := now.isPrefix.length_le
          rw [← all, List.length_append] at order
          simpa using order
      | false =>
          have whole := ended rfl
          exact .ended rfl whole.rows whole.has

theorem gives_next : ∃ next, pass.moved ((Call.next cursor).run tx pool).2 = some next ∧
    Session.Gives keeping tx table (pool.rowsBefore table (pool.pageCount table)) pool
      ((Call.next cursor).run tx pool).1 pass next ((Call.next cursor).run tx pool).2.result? := by
  obtain ⟨position, handed, gathered⟩ := pass
  obtain ⟨⟨table, position⟩, found, same⟩ := Option.map_eq_some_iff.mp reads
  cases same
  obtain ⟨label, source, rfl⟩ := scans.standing found
  have before : Reaches keeping tx table pool position.nextPage (handed ++ position.queue) := by
    simpa [Pass.Stands] using stands
  obtain ⟨now, more, ended, _⟩ := (readsOn_reaches keeping tx table).asks before
  have stalls := stalls_scanHasNext pool tx table position
  have looks := (fetching_scanHasNext pool tx table position).reads
  have still := looks.unaltered table
  simp only [Call.run, Cursor.next, Plan.next, Pool.scanNext]
  generalize pool.scanHasNext tx table position = result at now more ended stalls looks still ⊢
  obtain ⟨after, ⟨first, queue⟩, outcome⟩ := result
  have total : after.rowsBefore table (after.pageCount table) = pool.rowsBefore table (pool.pageCount table) := by
    rw [still.count, still.rowsBefore (Nat.le_refl _)]
  rw [← total]
  cases outcome with
  | parked => exact ⟨_, rfl, .stalled (stalls.stalled (by simp) before now looks (.inl rfl))⟩
  | failed error =>
      refine ⟨⟨⟨first, queue⟩, handed ++ [], []⟩, rfl, ?_⟩
      rw [List.append_nil]
      exact .stalled (stalls.stalled (by simp) before now looks (.inr ⟨error, rfl, rfl⟩))
  | done flag =>
      cases queue with
      | cons row queue =>
          refine ⟨_, rfl, .row rfl (List.IsPrefix.trans ?_ now.isPrefix)⟩
          exact ⟨queue, by simp [handedBy]⟩
      | nil =>
          refine ⟨_, rfl, ?_⟩
          cases flag with
          | true => exact absurd rfl (more rfl)
          | false =>
              have whole := ended rfl
              exact .ended (List.append_nil _) whole.rows whole.has

end Calls

end Pool

namespace Session

variable {origin session : Session} {tx : TxId} {table : TableId} {pass : Pass} {keeping : Prop}

/-- What a scan does in every state that a directory can be brought to, so long as nobody changes the rows
or the pages of its table. It hands out the rows of the table one by one, each with its place, once and in
order, however often it is asked whether there is another one; it says that there is none just when it has
handed out all, and then the transaction has all pages locked that it did not give up itself. A call that
cannot have a page takes nothing from what is handed out: it stays at that page, past empty ones that it
came by. A scan begins anew, from any state of its cursor, when it is opened or rewound. -/
theorem scan_of_reached (reached : Reached origin) (scanning : Scanning keeping tx table origin session pass) :
    ∃ rows, origin.pool.Lists table (origin.pool.pageCount table) rows ∧ pass.handed <+: rows ∧
      (∀ action cursor, session.Enabled action → session.call? action = some (tx, .hasNext cursor) →
        Call.reads? (.hasNext cursor) = some (table, pass.position, pass.gathered) →
          ∃ next, pass.moved ((Call.hasNext cursor).run tx session.pool).2 = some next ∧
            Tells keeping tx table rows session.pool (session.act action).1.pool pass next (session.act action).2) ∧
      (∀ action cursor, session.Enabled action → session.call? action = some (tx, .next cursor) →
        Call.reads? (.next cursor) = some (table, pass.position, pass.gathered) →
          ∃ next, pass.moved ((Call.next cursor).run tx session.pool).2 = some next ∧
            Gives keeping tx table rows session.pool (session.act action).1.pool pass next (session.act action).2) ∧
      ∀ label source position pool, let cursor : Cursor := ⟨tx, .scan table label source, position⟩
        cursor.rewind.scan? = some (table, .start) ∧ (cursor.start pool).2.1.scan? = some (table, .start) := by
  obtain ⟨came, still, stands⟩ := scanning.stands reached
  have total : session.pool.rowsBefore table (session.pool.pageCount table) =
      origin.pool.rowsBefore table (origin.pool.pageCount table) := by
    rw [still.count, still.rowsBefore (Nat.le_refl _)]
  refine ⟨_, reached.inFiles.pool.lists_rowsBefore table _, ?_, fun action cursor enabled calls reads => ?_,
    fun action cursor enabled calls reads => ?_, fun _ _ _ _ => ⟨rfl, rfl⟩⟩
  · rw [← total]
    exact (List.prefix_append_of_prefix (List.prefix_append _ _)).trans stands.isPrefix
  · have within := came.inFiles.within enabled calls
    rw [act_of_call calls, pool_run, ← total]
    exact Pool.tells_hasNext reads within stands
  · have within := came.inFiles.within enabled calls
    rw [act_of_call calls, pool_run, ← total]
    exact Pool.gives_next reads within stands

/-! ## A page without rows, and one with a row -/

def gapBytes : List UInt8 := List.replicate 9 0 ++ [1, 3, 0, 0, 0, 0, 0, 0, 0]

def gapFile : TableFile := { oddFile with pageCount := 2 }

def gapSession : Session := ofDatabase ⟨⟨['/']⟩, .empty, (Pool.empty .default (oddDisk gapBytes)).addTable gapFile⟩

theorem reached_gapSession : Reached gapSession :=
  .developed (@Reached.opened (oddDisk gapBytes) ⟨['/']⟩ .default _ (Disk.sound_empty.replaceFile _ _) rfl)
    (@Develops.registered Enabled _ ⟨⟨['/', 't']⟩, .ofTypes [.int], 9⟩ _ _ rfl)

def gapRow : Row := ⟨[.int 3], some ⟨⟨gapFile.id, 1⟩, 0⟩⟩

def gapCursor (position : ScanPosition) : Cursor :=
  ⟨⟨1⟩, .scanOf gapFile "t", (some position : Option ScanPosition)⟩

def gapNext (position : ScanPosition) : SessionAction := .call ⟨1⟩ (.next (gapCursor position))

/-- The page with the row is locked to write by another transaction, and the wait for it will be
interrupted. -/
def blockedSession : Session :=
  (((gapSession.act (.call ⟨2⟩ (.fetch ⟨gapFile.id, 1⟩ .exclusive))).1.act
    (.call ⟨1⟩ (.fetch ⟨gapFile.id, 0⟩ .shared))).1.act (.interrupt ⟨1⟩)).1

theorem reached_blockedSession : Reached blockedSession := by
  have claimed := reached_gapSession.developed
    (.acted (show Session.Enabled _ (.call ⟨2⟩ (.fetch ⟨gapFile.id, 1⟩ .exclusive)) from ⟨rfl, trivial⟩))
  have read := claimed.developed
    (.acted (show Session.Enabled _ (.call ⟨1⟩ (.fetch ⟨gapFile.id, 0⟩ .shared)) from ⟨by decide +kernel, trivial⟩))
  exact read.developed (.acted (show Session.Enabled _ (.interrupt ⟨1⟩) from trivial))

/-- The row was handed out. -/
def takenSession : Session := (gapSession.act (gapNext .start)).1

def takenPass : Pass := ⟨⟨2, []⟩, [gapRow], []⟩

theorem enabled_gapNext (position : ScanPosition) {session : Session} (free : session.isParked ⟨1⟩ = false) :
    session.Enabled (gapNext position) := ⟨free, rfl, _, _, _, rfl⟩

theorem scanning_takenSession (keeping : Prop) :
    Scanning keeping ⟨1⟩ gapFile.id gapSession takenSession takenPass :=
  .onward .begun (enabled_gapNext .start rfl) rfl rfl (by decide +kernel)

set_option maxRecDepth 4000 in
/-- After its one row a scan finds no other one. -/
theorem scan_of_gap : ∃ rows next, gapSession.pool.Lists gapFile.id 2 rows ∧
    Gives True ⟨1⟩ gapFile.id rows takenSession.pool (takenSession.act (gapNext ⟨2, []⟩)).1.pool takenPass next
      (some (.error .noMoreRows)) := by
  obtain ⟨rows, lists, _, _, gives, _⟩ := scan_of_reached reached_gapSession (scanning_takenSession True)
  obtain ⟨next, _, given⟩ := gives (gapNext ⟨2, []⟩) _ (enabled_gapNext _ (by decide +kernel)) rfl rfl
  refine ⟨rows, next, lists, ?_⟩
  rwa [show (takenSession.act (gapNext ⟨2, []⟩)).2 = some (.error .noMoreRows) by decide +kernel] at given

set_option maxRecDepth 4000 in
/-- A call that cannot have a page leaves its cursor past the empty page before; and a transaction that
completes before it asks for the last time has no page locked at the end of the scan. -/
theorem scan_moves_and_unlocks :
    (Reached blockedSession ∧
      (blockedSession.act (.call ⟨1⟩ (.hasNext (gapCursor .start)))).2 =
        some (.error (.aborted ⟨1⟩ .interrupted)) ∧
      ((gapCursor .start).hasNext blockedSession.pool).2.1.scan? = some (gapFile.id, ⟨1, []⟩)) ∧
    ∃ session, Scanning False ⟨1⟩ gapFile.id gapSession session takenPass ∧
      (session.act (gapNext ⟨2, []⟩)).2 = some (.error .noMoreRows) ∧
      ¬ (session.act (gapNext ⟨2, []⟩)).1.pool.locks.Has ⟨1⟩ ⟨gapFile.id, 0⟩ .shared := by
  refine ⟨⟨reached_blockedSession, by decide +kernel, by decide +kernel⟩, _,
    .aside (scanning_takenSession False) (.acted (show Session.Enabled _ (.complete ⟨1⟩ true) from trivial))
      (Pool.Reads.unaltered (.of_locks takenSession.pool _) gapFile.id) False.elim, by decide +kernel, ?_⟩
  have unlocked : (((takenSession.act (.complete ⟨1⟩ true)).1.act (gapNext ⟨2, []⟩)).1.pool.locks.lockOn
      ⟨gapFile.id, 0⟩).holders = [] := by decide +kernel
  rintro ⟨holder, _⟩
  rw [unlocked] at holder
  contradiction

end Session

end RowStore
