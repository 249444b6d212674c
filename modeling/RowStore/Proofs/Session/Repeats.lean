import RowStore.Proofs.Pool.Passes
import RowStore.Proofs.Session.Steps

namespace RowStore

/-! A transaction that goes through a table twice.

A pass is made in one call, or row by row, and calls of others come in between. What it
read before, a transaction reads again, since nobody else can change the pages. But a
table can have grown in the meantime: the rows of the pages that were appended come
after those that the first pass had.
-/

/-! ## Calls on a pass -/

/-- How far a transaction came in a pass over a table: where the pass stands, what the calls on it
answered, and what the one that is parked has gathered, if one is. -/
structure Pass where
  position : ScanPosition
  handed : List Row
  gathered : List Row
  deriving DecidableEq

namespace Pass

def start : Pass := ⟨.start, [], []⟩

/-- This is said of the pages that the pass has read, and of their rows. -/
def Stands (pass : Pass) (said : Pool → Nat → List Row → Prop) (pool : Pool) : Prop :=
  said pool pass.position.nextPage (pass.handed ++ pass.gathered ++ pass.position.queue)

end Pass

/-- The rows that a call hands out. -/
def handedBy : Except StoreError Answer → List Row
  | .ok (.row row) => [row]
  | .ok (.rows rows) | .ok (.drained rows _) => rows
  | _ => []

/-- The answer says that a pass came to its end. -/
def Exhausts : Except StoreError Answer → Prop
  | .ok (.flag more) => more = false
  | .ok (.rows _) => True
  | .ok (.drained _ failure) => failure = none
  | .ok _ => False
  | .error error => error = .noMoreRows

/-- The table that a call reads on, from where it goes on, and what it has gathered before. -/
def Call.reads? : Call → Option (TableId × ScanPosition × List Row)
  | .scan table position rows => some (table, position, rows)
  | .hasNext cursor | .next cursor => cursor.scan?.map fun (table, position) => (table, position, [])
  | .drain cursor rows => cursor.scan?.map fun (table, position) => (table, position, rows)
  | _ => none

/-- The pass after a call on it stopped. A pass that was made in one call is over when that finished. -/
def Pass.moved (pass : Pass) : Stop → Option Pass
  | .parked again => again.reads?.map fun (_, position, gathered) => ⟨position, pass.handed, gathered⟩
  | .finished ⟨result, cursor⟩ =>
      (cursor.bind Cursor.scan?).map fun (_, position) => ⟨position, pass.handed ++ handedBy result, []⟩

theorem Call.Scans.standing {tx : TxId} {table : TableId} {position : ScanPosition} {cursor : Cursor}
    (scans : Call.Scans tx cursor) (found : cursor.scan? = some (table, position)) :
    ∃ label source, cursor = ⟨tx, .scan table label source, (some position : Option ScanPosition)⟩ := by
  obtain ⟨rfl, other, label, source, plan⟩ := scans
  obtain ⟨tx, _, state⟩ := cursor
  subst plan
  change Option.map (fun position => (other, position)) (state : Option ScanPosition) = _ at found
  obtain ⟨here, rfl, same⟩ := Option.map_eq_some_iff.mp found
  cases same
  exact ⟨label, source, rfl⟩

namespace Pool

variable {pool after : Pool} {tx : TxId} {table : TableId} {call : Call} {pass : Pass} {cursor : Cursor}
variable {said : Pool → Nat → List Row → Prop}

/-- A call on a pass left it where the same is said of it as before, and read all that the table has if it
came to the end. -/
structure Continues (said : Pool → Nat → List Row → Prop) (table : TableId) (pass : Pass) (result : Pool × Stop) :
    Prop where
  moved : ∀ next, pass.moved result.2 = some next → next.Stands said result.1
  ended : ∀ answer, result.2.result? = some answer → Exhausts answer →
    said result.1 (result.1.pageCount table) (pass.handed ++ handedBy answer)

section Calls

variable (readsOn : ReadsOn tx table said) (stands : pass.Stands said pool)
include readsOn stands

theorem ReadsOn.continues_scan :
    Continues said table pass ((Call.scan table pass.position pass.gathered).run tx pool) := by
  obtain ⟨later, ended, failure⟩ := readsOn.empties stands
  simp only [Call.run]
  generalize pool.scanAll tx table pass.position = result at later ended failure ⊢
  obtain ⟨after, reached, more, outcome⟩ := result
  cases outcome with
  | parked =>
      refine ⟨fun next same => ?_, fun _ same => by cases same⟩
      cases same
      simpa [Pass.Stands] using later
  | failed error =>
      refine ⟨fun _ same => ?_, fun answer same exhausts => ?_⟩
      · cases same
      · cases same
        exact absurd (congrArg Outcome.failed exhausts) failure
  | done =>
      refine ⟨fun _ same => ?_, fun answer same _ => ?_⟩
      · cases same
      · cases same
        simpa [handedBy] using ended rfl

variable (scans : Call.Scans tx cursor) (found : cursor.scan? = some (table, pass.position))
include scans found

theorem ReadsOn.continues_drain :
    Continues said table pass ((Call.drain cursor pass.gathered).run tx pool) := by
  obtain ⟨label, source, rfl⟩ := scans.standing found
  obtain ⟨later, ended, failure⟩ := readsOn.empties stands
  simp only [Call.run, Cursor.rest, Plan.rest]
  generalize pool.scanAll tx table pass.position = result at later ended failure ⊢
  obtain ⟨after, reached, more, outcome⟩ := result
  have settled : ∀ failure,
      Pass.Stands ⟨reached, pass.handed ++ handedBy (.ok (.drained (pass.gathered ++ more) failure)), []⟩
        said after := fun _ => by simpa [Pass.Stands, handedBy] using later
  cases outcome with
  | parked =>
      refine ⟨fun next same => ?_, fun _ same => by cases same⟩
      cases same
      simpa [Pass.Stands] using later
  | failed error =>
      refine ⟨fun next same => ?_, fun answer same exhausts => ?_⟩
      · cases same
        exact settled _
      · cases same
        cases exhausts
  | done =>
      refine ⟨fun next same => ?_, fun answer same _ => ?_⟩
      · cases same
        exact settled _
      · cases same
        simpa [handedBy] using ended rfl

variable (nothing : pass.gathered = [])
include nothing

theorem ReadsOn.continues_hasNext : Continues said table pass ((Call.hasNext cursor).run tx pool) := by
  obtain ⟨label, source, rfl⟩ := scans.standing found
  rw [Pass.Stands, nothing, List.append_nil] at stands
  obtain ⟨later, _, ended, failure⟩ := readsOn.asks stands
  simp only [Call.run, Cursor.hasNext, Plan.hasNext]
  generalize pool.scanHasNext tx table pass.position = result at later ended failure ⊢
  obtain ⟨after, reached, outcome⟩ := result
  cases outcome with
  | parked =>
      refine ⟨fun next same => ?_, fun _ same => by cases same⟩
      cases same
      simpa [Pass.Stands] using later
  | failed error =>
      refine ⟨fun next same => ?_, fun answer same exhausts => ?_⟩
      · cases same
        simpa [Pass.Stands, handedBy] using later
      · cases same
        exact absurd (congrArg Outcome.failed exhausts) failure
  | done more =>
      refine ⟨fun next same => ?_, fun answer same exhausts => ?_⟩
      · cases same
        simpa [Pass.Stands, handedBy] using later
      · cases same
        simpa [handedBy] using ended (congrArg Outcome.done exhausts)

theorem ReadsOn.continues_next : Continues said table pass ((Call.next cursor).run tx pool) := by
  obtain ⟨label, source, rfl⟩ := scans.standing found
  rw [Pass.Stands, nothing, List.append_nil] at stands
  obtain ⟨later, ended⟩ := readsOn.takes stands
  simp only [Call.run, Cursor.next, Plan.next]
  generalize pool.scanNext tx table pass.position = result at later ended ⊢
  obtain ⟨after, reached, outcome⟩ := result
  cases outcome with
  | parked =>
      refine ⟨fun next same => ?_, fun _ same => by cases same⟩
      cases same
      simpa [Pass.Stands, handed] using later
  | failed error =>
      refine ⟨fun next same => ?_, fun answer same exhausts => ?_⟩
      · cases same
        simpa [Pass.Stands, handedBy, handed] using later
      · cases same
        simpa [handedBy] using ended (congrArg Outcome.failed exhausts)
  | done row =>
      refine ⟨fun next same => ?_, fun answer same exhausts => ?_⟩
      · cases same
        simpa [Pass.Stands, handedBy, handed] using later
      · cases same
        cases exhausts

end Calls

theorem ReadsOn.continues (readsOn : ReadsOn tx table said) (stands : pass.Stands said pool)
    (resumable : call.Resumable tx pool) (reads : call.reads? = some (table, pass.position, pass.gathered)) :
    Continues said table pass (call.run tx pool) := by
  obtain ⟨position, handed, gathered⟩ := pass
  cases call with
  | scan =>
      cases reads
      exact readsOn.continues_scan stands
  | hasNext cursor =>
      obtain ⟨⟨_, _⟩, found, same⟩ := Option.map_eq_some_iff.mp reads
      cases same
      exact readsOn.continues_hasNext stands resumable found rfl
  | next cursor =>
      obtain ⟨⟨_, _⟩, found, same⟩ := Option.map_eq_some_iff.mp reads
      cases same
      exact readsOn.continues_next stands resumable found rfl
  | drain cursor rows =>
      obtain ⟨⟨_, _⟩, found, same⟩ := Option.map_eq_some_iff.mp reads
      cases same
      exact readsOn.continues_drain stands resumable found
  | fetch | insert | delete | start | place | remove => contradiction

/-- An insert or a delete that does not come through keeps the rows of all pages. -/
theorem Guarded.retains (guarded : pool.Guarded) (writes : call.write? ≠ none)
    (refused : ∀ answer, (call.run tx pool).2.result? ≠ some (.ok answer)) :
    Retains pool (call.run tx pool).1 := by
  cases call with
  | insert table row stage =>
      refine refrains_insert pool tx table row stage fun number done => refused .nothing ?_
      simp only [Call.run, done]
      rfl
  | delete location =>
      refine guarded.retains_delete tx location fun number done => refused .nothing ?_
      simp only [Call.run, done]
      rfl
  | fetch | scan | start | hasNext | next | drain | place | remove => exact absurd rfl writes

end Pool

/-! ## Actions beside a pass -/

namespace Session

variable {session start : Session} {action : SessionAction} {tx : TxId} {table : TableId} {pool : Pool}
variable {history early late : List SessionEvent} {call : Call} {pass : Pass} {rows : List Row} {count : Nat}

/-- Pages are guarded by their locks, and parked calls can go on in their files. -/
structure Orderly (session : Session) : Prop extends Shielded session where
  within : ∀ tx call, session.parked.get? tx = some call → call.Within tx session.pool

section Action

variable (orderly : session.Orderly) (undisturbed : session.Undisturbed action)
include orderly undisturbed

theorem Orderly.proceeds (calls : session.call? action = some (tx, call)) :
    Pool.Proceeds tx call session.pool (call.run tx session.pool) := by
  refine orderly.guarded.named.runCall ?_
  cases action with
  | call other begun =>
      cases calls
      exact undisturbed.2.within session.pool
  | resume other =>
      obtain ⟨waiting, found, same⟩ := Option.map_eq_some_iff.mp calls
      cases same
      exact orderly.within tx call found
  | _ => contradiction

theorem Orderly.act :
    (session.act action).1.Orderly ∧
      ∀ table, session.pool.pageCount table ≤ (session.act action).1.pool.pageCount table := by
  have shielded := (orderly.toShielded.act undisturbed).shielded
  suffices longer : (∀ table, session.pool.pageCount table ≤ (session.act action).1.pool.pageCount table) ∧
      ∀ tx call, (session.act action).1.parked.get? tx = some call →
        call.Within tx (session.act action).1.pool from
    ⟨⟨shielded, longer.2⟩, longer.1⟩
  cases calls : session.call? action with
  | none =>
      obtain ⟨pool, same, tables, _⟩ := act_of_idle calls
      have longer : ∀ table, session.pool.pageCount table ≤ pool.pageCount table := fun table =>
        Nat.le_of_eq (by rw [Pool.pageCount, Pool.pageCount, tables])
      rw [same]
      exact ⟨longer, fun tx call found => (orderly.within tx call found).keep longer⟩
  | some caller =>
      obtain ⟨tx, call⟩ := caller
      have proceeds := orderly.proceeds undisturbed calls
      have longer := fun table => proceeds.steps.grows.pageCount_le table
      rw [act_of_call calls, pool_run]
      refine ⟨longer, fun other waiting found => ?_⟩
      obtain ⟨rfl, parked⟩ | ⟨_, before⟩ := of_parked_run session tx call found
      · exact (proceeds.parked waiting parked).1
      · exact (orderly.within other waiting before).keep longer

end Action

/-- The action puts a row of the transaction into the table, or takes one out of it. -/
def Changes (session : Session) (tx : TxId) (table : TableId) (action : SessionAction) : Prop :=
  ∃ call answer, session.call? action = some (tx, call) ∧ call.write? ≠ none ∧ call.table? = some table ∧
    (session.act action).2 = some (.ok answer)

/-- The transaction does not complete, and changes no row of the table. -/
def Steady (tx : TxId) (table : TableId) (session : Session) (action : SessionAction) : Prop :=
  session.Undisturbed action ∧ action.completes tx = false ∧ ¬ session.Changes tx table action

/-- Pages of the table that the transaction has locked keep their rows. -/
theorem Orderly.shows (orderly : session.Orderly) (steady : session.Steady tx table action) {number : Nat}
    {page : Page} (has : session.pool.locks.Has tx ⟨table, number⟩ .shared)
    (found : session.pool.cache.get? ⟨table, number⟩ = some page) :
    ∃ now, (session.act action).1.pool.cache.get? ⟨table, number⟩ = some now ∧ now.rows = page.rows := by
  obtain ⟨undisturbed, goes, unchanged⟩ := steady
  have advances := orderly.toShielded.act undisturbed
  obtain ⟨now, known, same | ⟨call, calls, writes⟩⟩ := advances.shows tx _ page goes has found
  · refine ⟨now, known, Page.rows_congr ?_ (congrArg Prod.fst same)⟩
    exact (advances.shielded.guarded.named _ _ known).trans (orderly.guarded.named _ _ found).symm
  · -- The transaction writes to another table, or it is refused.
    have proceeds := orderly.proceeds undisturbed calls
    rw [act_of_call calls, pool_run]
    by_cases here : call.table? = some table
    · refine orderly.guarded.retains writes (fun answer answered => unchanged ?_) _ page found
      exact ⟨call, answer, calls, writes, here, (congrArg Prod.snd (act_of_call calls)).trans answered⟩
    · exact ⟨page, (proceeds.steps.get?_of_ne orderly.guarded.named here).trans found, rfl⟩

theorem Orderly.holds (orderly : session.Orderly) (steady : session.Steady tx table action)
    (holds : Pool.Holds tx table session.pool count rows) :
    Pool.Holds tx table (session.act action).1.pool count rows := by
  refine holds.keep ((orderly.act steady.1).2 table) (fun number _ has => ?_) fun number below page found => ?_
  · exact (orderly.toShielded.act steady.1).keeps tx _ _ steady.2.1 has
  · exact orderly.shows steady (holds.has number below) found

/-! ## Passes in a run -/

/-- How far a pass came that a transaction began at some time. Its calls are among the events, and
between them there may be any others. -/
inductive Passes (start : Session) (tx : TxId) (table : TableId) : List SessionEvent → Pass → Prop
  | begun (history : List SessionEvent) : Passes start tx table history .start
  | aside {history : List SessionEvent} {pass : Pass} (before : Passes start tx table history pass)
      (event : SessionEvent) : Passes start tx table (event :: history) pass
  | onward {history : List SessionEvent} {pass next : Pass} {event : SessionEvent} {call : Call}
      (before : Passes start tx table history pass)
      (calls : (start.replay history).call? event.action = some (tx, call))
      (reads : call.reads? = some (table, pass.position, pass.gathered))
      (moved : pass.moved (call.run tx (start.replay history).pool).2 = some next) :
      Passes start tx table (event :: history) next

/-- With the last event a pass came to the end of the table, and these are all rows that it had. -/
inductive Scanned (start : Session) (tx : TxId) (table : TableId) : List SessionEvent → List Row → Prop
  | intro {history : List SessionEvent} {pass : Pass} {event : SessionEvent} {call : Call}
      {answer : Except StoreError Answer} (before : Passes start tx table history pass)
      (calls : (start.replay history).call? event.action = some (tx, call))
      (reads : call.reads? = some (table, pass.position, pass.gathered))
      (answered : event.result = some answer) (exhausts : Exhausts answer) :
      Scanned start tx table (event :: history) (pass.handed ++ handedBy answer)

theorem Run.earlier {allowed : Session → SessionAction → Prop} (run : Run allowed start late session)
    (earlier : early <:+ late) : Run allowed start early (start.replay early) := by
  induction run with
  | start =>
      rw [List.suffix_nil.mp earlier]
      exact .start
  | @step history session before action permitted ih =>
      rcases List.suffix_cons_iff.mp earlier with rfl | inside
      · have run := before.step action permitted
        rwa [run.replay]
      · exact ih inside

section Run

variable (orderly : start.Orderly)
include orderly

theorem Run.ordered (run : Run Undisturbed start history session) : session.Orderly := by
  induction run with
  | start => exact orderly
  | step _ action permitted ih => exact (ih.act permitted).1

theorem Run.steady (run : Run (Steady tx table) start history session) : session.Orderly := by
  induction run with
  | start => exact orderly
  | step _ action permitted ih => exact (ih.act permitted.1).1

theorem Run.continues (run : Run (Steady tx table) start history session)
    (permitted : session.Steady tx table action)
    (stands : pass.Stands (Pool.Held tx table) session.pool) (calls : session.call? action = some (tx, call))
    (reads : call.reads? = some (table, pass.position, pass.gathered)) :
    Pool.Continues (Pool.Held tx table) table pass ((session.act action).1.pool, (call.run tx session.pool).2) := by
  have resumable := ((run.steady orderly).runs permitted.1 calls).1
  rw [act_of_call calls, pool_run]
  exact (Pool.readsOn_held tx table).continues stands resumable reads

theorem Run.stands (run : Run (Steady tx table) start history session)
    (passes : Passes start tx table history pass) : pass.Stands (Pool.Held tx table) session.pool := by
  induction passes generalizing session with
  | begun => exact ⟨(run.steady orderly).guarded, Pool.holds_none tx table session.pool⟩
  | aside _ _ ih =>
      have guarded := (run.steady orderly).guarded
      cases run with
      | step before action permitted => exact ⟨guarded, (before.steady orderly).holds permitted (ih before).2⟩
  | onward _ calls reads moved ih =>
      cases run with
      | step before action permitted =>
          rw [before.replay] at calls moved
          exact (before.continues orderly permitted (ih before) calls reads).moved _ moved

/-- A pass that came to its end has the rows of all pages, and all are locked. -/
theorem Run.holds_of_scanned (run : Run (Steady tx table) start history session)
    (scanned : Scanned start tx table history rows) :
    Pool.Holds tx table session.pool (session.pool.pageCount table) rows := by
  cases scanned with
  | intro passes calls reads answered exhausts =>
      cases run with
      | step before action permitted =>
          rw [before.replay] at calls
          have continued := before.continues orderly permitted (before.stands orderly passes) calls reads
          exact (continued.ended _ ((congrArg Prod.snd (act_of_call calls)).symm.trans answered) exhausts).2

theorem Run.holds_later (run : Run (Steady tx table) start late session) (earlier : early <:+ late)
    (holds : Pool.Holds tx table (start.replay early).pool count rows) :
    Pool.Holds tx table session.pool count rows := by
  induction run with
  | start =>
      rw [List.suffix_nil.mp earlier] at holds
      exact holds
  | @step history session before action permitted ih =>
      rcases List.suffix_cons_iff.mp earlier with rfl | inside
      · rwa [(before.step action permitted).replay] at holds
      · exact (before.steady orderly).holds permitted (ih inside)

end Run

/-- When two passes of a transaction came to their ends, and it changed no row of the table and did not
complete meanwhile, then the later one had the rows of the earlier one, in the same order, and after
them those of the pages that the table has grown by in between. -/
theorem repeats_of_passes {origin : Session} {config : Config} {past : List SessionEvent}
    {firstRows secondRows : List Row} (cache : origin.pool.cache = .empty)
    (locks : origin.pool.locks = .empty config) (parked : origin.parked = .empty)
    (before : Run Undisturbed origin past start) (run : Run (Steady tx table) start late session)
    (earlier : early <:+ late) (first : Scanned start tx table early firstRows)
    (second : Scanned start tx table late secondRows) :
    let count := (start.replay early).pool.pageCount table
    count ≤ session.pool.pageCount table ∧
      secondRows = firstRows ++
        session.pool.rowsIn table (List.range' count (session.pool.pageCount table - count)) ∧
      (session.pool.pageCount table = count → secondRows = firstRows) := by
  intro count
  have initial : origin.Orderly :=
    { guarded := Pool.guarded_of_empty cache (locks ▸ LockTable.sound_empty config)
      parked := by simp [parked]
      within := by simp [parked] }
  have orderly := before.ordered initial
  have kept := run.holds_later orderly earlier ((run.earlier earlier).holds_of_scanned orderly first)
  have whole := run.holds_of_scanned orderly second
  have same : secondRows = firstRows ++
      session.pool.rowsIn table (List.range' count (session.pool.pageCount table - count)) := by
    have pages : List.range (session.pool.pageCount table) =
        List.range count ++ List.range' count (session.pool.pageCount table - count) := by
      have joined := @List.range'_append_1 0 count (session.pool.pageCount table - count)
      rw [Nat.zero_add, Nat.add_sub_cancel' kept.inside] at joined
      rw [List.range_eq_range', List.range_eq_range', joined]
    rw [whole.rows, kept.rows, pages]
    simp only [Pool.rowsIn, List.flatMap_append]
    rfl
  refine ⟨kept.inside, same, fun equal => ?_⟩
  rw [same, equal, Nat.sub_self]
  exact List.append_nil _

/-! ## A table that grows -/

theorem steady_of_reads (free : session.isParked tx = false) (client : call.Client tx)
    (reads : call.write? = none) : session.Steady tx table (.call tx call) := by
  refine ⟨⟨free, client⟩, rfl, ?_⟩
  rintro ⟨_, _, calls, writes, _⟩
  cases calls
  exact writes reads

theorem steady_of_other {other : TxId} (differs : other ≠ tx) (free : session.isParked other = false)
    (client : call.Client other) : session.Steady tx table (.call other call) := by
  refine ⟨⟨free, client⟩, rfl, ?_⟩
  rintro ⟨_, _, calls, _⟩
  cases calls
  exact differs rfl

theorem steady_of_complete {other : TxId} (differs : other ≠ tx) (commit : Bool) :
    session.Steady tx table (.complete other commit) := by
  refine ⟨trivial, by simpa [SessionAction.completes] using differs, ?_⟩
  rintro ⟨_, _, calls, _⟩
  cases calls

/-- A call that goes through the whole table at once. -/
theorem Run.scanned {allowed : Session → SessionAction → Prop} {answer : Except StoreError Answer}
    (run : Run allowed start history session) (action : SessionAction)
    (calls : session.call? action = some (tx, call)) (reads : call.reads? = some (table, .start, []))
    (exhausts : Exhausts answer) (answered : (session.act action).2 = some answer) :
    Scanned start tx table (session.event action :: history) (handedBy answer) :=
  .intro (.begun history) (run.replay.symm ▸ calls) reads answered exhausts

def integerRow (page slot : Nat) (number : Int32) : Row :=
  ⟨[.int number], some ⟨⟨integerFile.id, page⟩, slot⟩⟩

def integerScan : Call := .scan integerFile.id .start []

/-- Drains a query on the table of integers that was just started. -/
def integerDrain : Call :=
  .drain ⟨⟨1⟩, .scanOf integerFile "t", (some .start : Option ScanPosition)⟩ []

/-- Three rows were committed, which fill a page. -/
def fullSession : Session :=
  ([7, 8, 9].foldl (fun session number => (session.act (.call ⟨3⟩ (integerInsert number))).1)
    integerSession).act (.complete ⟨3⟩ true) |>.1

theorem run_fullSession : ∃ history, Run Undisturbed integerSession history fullSession :=
  ⟨_, ((((@Run.start Undisturbed integerSession).step
    (.call ⟨3⟩ (integerInsert 7)) ⟨rfl, by decide, rfl⟩).step
    (.call ⟨3⟩ (integerInsert 8)) ⟨by decide +kernel, by decide, rfl⟩).step
    (.call ⟨3⟩ (integerInsert 9)) ⟨by decide +kernel, by decide, rfl⟩).step (.complete ⟨3⟩ true) trivial⟩

/-- The page of three rows is full when another transaction inserts, so its row comes to a new page. -/
theorem repeats_of_fullPage :
    ∃ early late session first second,
      Run (Steady ⟨1⟩ integerFile.id) fullSession late session ∧
      Scanned fullSession ⟨1⟩ integerFile.id early first ∧
      Scanned fullSession ⟨1⟩ integerFile.id late second ∧
      first.length = 3 ∧ second.length = 4 ∧
      second = first ++ session.pool.rowsIn integerFile.id
        (List.range' ((fullSession.replay early).pool.pageCount integerFile.id)
          (session.pool.pageCount integerFile.id - (fullSession.replay early).pool.pageCount integerFile.id)) := by
  obtain ⟨past, fill⟩ := run_fullSession
  have scan := (@Run.start (Steady ⟨1⟩ integerFile.id) fullSession).step (.call ⟨1⟩ integerScan)
    (steady_of_reads (by decide +kernel) trivial rfl)
  have grow := (scan.step (.call ⟨2⟩ (integerInsert 10))
    (steady_of_other (by decide) (by decide +kernel) ⟨by decide, rfl⟩)).step
    (.complete ⟨2⟩ true) (steady_of_complete (by decide) true)
  have drain := grow.step (.call ⟨1⟩ integerDrain)
    (steady_of_reads (by decide +kernel) ⟨rfl, _, _, _, rfl⟩ rfl)
  have first : Scanned fullSession ⟨1⟩ integerFile.id _
      (handedBy (.ok (.rows [integerRow 0 0 7, integerRow 0 1 8, integerRow 0 2 9]))) :=
    (@Run.start (Steady ⟨1⟩ integerFile.id) fullSession).scanned (.call ⟨1⟩ integerScan) rfl rfl trivial
      (by decide +kernel)
  have second : Scanned fullSession ⟨1⟩ integerFile.id _
      (handedBy (.ok (.drained [integerRow 0 0 7, integerRow 0 1 8, integerRow 0 2 9, integerRow 1 0 10] none))) :=
    grow.scanned (.call ⟨1⟩ integerDrain) rfl rfl rfl (by decide +kernel)
  exact ⟨_, _, _, _, _, drain, first, second, rfl, rfl,
    (repeats_of_passes rfl rfl rfl fill drain
      (.trans (.trans (List.suffix_cons _ _) (List.suffix_cons _ _)) (List.suffix_cons _ _)) first second).2.1⟩

/-- In an empty table nobody has anything locked. A row that is inserted and committed there between
two scans is in the second one. -/
theorem strays_of_append :
    ∃ early late session first second, Run (Steady ⟨1⟩ integerFile.id) integerSession late session ∧
      early <:+ late ∧ Scanned integerSession ⟨1⟩ integerFile.id early first ∧
      Scanned integerSession ⟨1⟩ integerFile.id late second ∧ second ≠ first := by
  have run₁ := (@Run.start (Steady ⟨1⟩ integerFile.id) integerSession).step (.call ⟨1⟩ integerScan)
    (steady_of_reads rfl trivial rfl)
  have run₂ := (run₁.step (.call ⟨2⟩ (integerInsert 7))
      (steady_of_other (by decide) (by decide +kernel) ⟨by decide, rfl⟩)).step
    (.complete ⟨2⟩ true) (steady_of_complete (by decide) true)
  have run₃ := run₂.step (.call ⟨1⟩ integerScan) (steady_of_reads (by decide +kernel) trivial rfl)
  have first : Scanned integerSession ⟨1⟩ integerFile.id _ (handedBy (.ok (.rows []))) :=
    (@Run.start (Steady ⟨1⟩ integerFile.id) integerSession).scanned (.call ⟨1⟩ integerScan) rfl rfl trivial
      (by decide +kernel)
  have second : Scanned integerSession ⟨1⟩ integerFile.id _ (handedBy (.ok (.rows [integerRow 0 0 7]))) :=
    run₂.scanned (.call ⟨1⟩ integerScan) rfl rfl trivial (by decide +kernel)
  exact ⟨_, _, _, _, _, run₃,
    .trans (.trans (List.suffix_cons _ _) (List.suffix_cons _ _)) (List.suffix_cons _ _),
    first, second, by simp [handedBy]⟩

end Session
end RowStore
