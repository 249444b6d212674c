import RowStore.Proofs.Query.Replay
import RowStore.Proofs.Query.Feedback
import RowStore.Proofs.Session.Failures
import RowStore.Proofs.Session.PastEnd
import RowStore.Proofs.Session.Repeats

namespace RowStore

/-! Inserting what a query hands out.

A transaction works alone, and storage does not fail. Then the insert stores each row that
its child had when it was opened, once, tells how many there were, and has nothing more to
say. Only a child that scans the table that is written can come by new rows; it does not
when they go behind it.
-/

namespace Cursor

variable {tx : TxId} {child : Plan} {table : TableId} {start cursor : Cursor} {history : List CursorEvent}

/-- Until it is opened or rewound the query has no row, whatever else is called. -/
def Spent (cursor : Cursor) : Prop :=
  ∀ history later, Run cursor history later → (∀ event ∈ history, event.action ≠ .start ∧ event.action ≠ .rewind) →
    ∀ pool, later.hasNext pool = (pool, later, .done false) ∧ later.next pool = (pool, later, .failed .noMoreRows)

/-- An insert that is closed, or that told its count. -/
def Finished (child : Plan) (table : TableId) (cursor : Cursor) : Prop :=
  ∃ tx, ∃ state : InsertState child.State, cursor = ⟨tx, .insert child table, state⟩ ∧
    (state.opened && !state.finished) = false

theorem Finished.run (finished : Finished child table start) (run : Run start history cursor)
    (calm : ∀ event ∈ history, event.action ≠ .start ∧ event.action ≠ .rewind) : Finished child table cursor := by
  induction run with
  | start => exact finished
  | @step history cursor before action pool ih =>
      obtain ⟨now, earlier⟩ := List.forall_mem_cons.mp calm
      obtain ⟨tx, state, rfl, still⟩ := ih earlier
      cases action with
      | start => exact absurd rfl now.1
      | rewind => exact absurd rfl now.2
      | hasNext => exact ⟨tx, state, rfl, still⟩
      | next =>
          refine ⟨tx, state, ?_, still⟩
          simp only [Cursor.act, Cursor.next, Plan.next, still, Bool.false_eq_true, if_false]
      | close => exact ⟨tx, { state with child := child.close state.child, opened := false }, rfl, rfl⟩

theorem Finished.spent (finished : Finished child table cursor) : Spent cursor := by
  intro history later run calm pool
  obtain ⟨tx, state, rfl, still⟩ := finished.run run calm
  constructor
  · simp only [Cursor.hasNext, Plan.hasNext, still]
  · simp only [Cursor.next, Plan.next, still, Bool.false_eq_true, if_false]

end Cursor

namespace Session

variable {before session : Session} {tx : TxId} {child : Plan} {file : TableFile} {table : TableId}

theorem Reached.alone (reached : Reached session) (unlocked : session.pool.Unlocked tx)
    (whole : ∀ found, session.pool.tables.get? table = some found → found.remainder session.pool.disk = []) :
    Pool.Alone tx table session.pool :=
  ⟨reached.inFiles.pool, reached.typed.pool, reached.tailsAndWaits.tails, whole, unlocked⟩

/-- An insert into a table was opened in one state, and has led to another one. Its child is made of given
rows, or is an aggregate, or scans a table; drained now, it would hand out the given rows. -/
structure Opened (tx : TxId) (child : Plan) (file : TableFile) (rows : List Row) (before session : Session)
    (reached : InsertState child.State) : Prop where
  made : child.Made before.pool
  direct : ∀ below place, child ≠ .insert below place
  checked : Plan.insertOf child file = .ok (.insert child file.id)
  started : ∃ state : InsertState child.State, (Plan.insert child file.id).Idle state ∧
    (Plan.insert child file.id).start tx state before.pool = (session.pool, reached, .done ())
  offered : ∃ last drained, child.rest tx reached.child session.pool = (last, drained, rows, .done ())

/-- If the child scans the table that is written, then its first pages, however many, have as many free slots as
rows. -/
def Roomy (child : Plan) (file : TableFile) (pool : Pool) : Prop :=
  ∀ label schema, child = .scan file.id label schema → ∀ count ≤ pool.pageCount file.id,
    2 * (pool.rowsBefore file.id count).length ≤ count * file.capacity

section Opened

variable {reached : InsertState child.State} {rows : List Row}
variable (opened : Opened tx child file rows before session reached) (earlier : Reached before)
include opened

/-- The child was started before it was drained. -/
theorem Opened.begun : ∃ state source, child.Idle state ∧
    child.start tx state before.pool = (session.pool, source, .done ()) ∧
      reached = InsertState.mk source true false none := by
  obtain ⟨state, ⟨idle, below⟩, started⟩ := opened.started
  obtain ⟨source, begun, rfl⟩ := Plan.of_start_insert started
  exact ⟨state.child, source, below, begun, by rw [idle]⟩

include earlier

theorem Opened.conforms : ∀ row ∈ rows, row.Conforms file.schema := by
  intro row listed
  obtain ⟨state, source, below, begun, rfl⟩ := opened.begun
  obtain ⟨last, drained, read⟩ := opened.offered
  obtain ⟨_, types⟩ := Plan.of_insertOf opened.checked
  have own := opened.made.conforming earlier.inFiles.pool earlier.typed.pool _ _ _ _ _ _ below begun read row listed
  exact ⟨own.types.trans types, own.kept⟩

variable (alone : Pool.Alone tx file.id session.pool) (serves : session.pool.Serves file.id file)
include alone serves

theorem Opened.copies (few : rows.length < 2 ^ 31) (roomy : Roomy child file session.pool) :
    ∃ after cursor records, ∃ count : Int32,
    Cursor.next ⟨tx, .insert child file.id, reached⟩ session.pool = (after, cursor, .done ⟨[.int count], none⟩) ∧
      count.toInt = rows.length ∧ Pool.Gains file.id rows records session.pool after ∧ cursor.Spent := by
  have conforms := opened.conforms earlier
  obtain ⟨state, source, below, begun, rfl⟩ := opened.begun
  obtain ⟨last, drained, read⟩ := opened.offered
  have offers := opened.made.offers earlier.inFiles.pool earlier.typed.pool file.id file opened.direct
    (fun label schema scans => Pool.ample_start_iff.mpr (roomy label schema scans)) below begun read
  obtain ⟨after, reached, records, copied, gains⟩ := (Plan.feeds_offers tx file.id file child).copies offers alone
    serves conforms copyLimit 0 (by rw [copyLimit]; omega)
  rw [Nat.zero_add] at copied
  have counted := Plan.next_insert_iff.mpr ⟨reached, rows.length, copied, rfl, rfl⟩
  refine ⟨after, ⟨tx, .insert child file.id, InsertState.mk reached true true none⟩, records, Int32.ofNat rows.length,
    ?_, Int32.toInt_ofNat_of_lt few, gains, Cursor.Finished.spent ⟨tx, _, rfl, rfl⟩⟩
  simp only [Cursor.next, counted, Plan.countRow]

/-- The right number is told only if there was room behind the scan. -/
theorem Opened.roomy {after : Pool} {cursor : Cursor} {count : Int32}
    (counted : Cursor.next ⟨tx, .insert child file.id, reached⟩ session.pool =
      (after, cursor, .done ⟨[.int count], none⟩))
    (all : count.toInt = rows.length) : Roomy child file session.pool := by
  rintro label schema rfl number inside
  have conforms := opened.conforms earlier
  obtain ⟨state, source, below, begun, rfl⟩ := opened.begun
  obtain ⟨last, drained, read⟩ := opened.offered
  obtain ⟨same, rfl, position, scanned⟩ := Plan.of_rest_scan begun read
  rw [← same] at scanned
  have ahead := (Pool.ahead_of_scanAll scanned).1
  simp only [Cursor.next, Prod.mk.injEq] at counted
  obtain ⟨drained, total, copied, _, row⟩ := Plan.next_insert_iff.mp (Prod.ext counted.1 (Prod.ext rfl counted.2.2))
  obtain ⟨_, most, ample⟩ := Plan.ample_of_copied copyLimit ahead alone serves conforms copied
  simp only [Plan.countRow, Row.mk.injEq, List.cons.injEq, Value.int.injEq] at row
  have exact_count : count.toInt = total := by
    rw [row.1.1, Int32.toInt_ofNat_of_lt]
    rw [copyLimit] at most
    omega
  exact Pool.ample_start_iff.mp (ample (by omega)) number inside

end Opened

/-- In a table whose file has whole pages, the next call stores each row that the child had once, in a slot that
was free, tells how many there were, and leaves nothing to say. For a scan of the table that is written this
takes room behind the scan: without it the call never tells the number of rows. -/
theorem copy_of_reached (earlier : Reached before) (now : Reached session) {reached : InsertState child.State}
    {rows : List Row} (opened : Opened tx child file rows before session reached)
    (unlocked : session.pool.Unlocked tx) (serves : session.pool.Serves file.id file)
    (whole : ∀ found, session.pool.tables.get? file.id = some found → found.remainder session.pool.disk = [])
    (few : rows.length < 2 ^ 31) :
    (Roomy child file session.pool → ∃ after cursor records, ∃ count : Int32,
      Cursor.next ⟨tx, .insert child file.id, reached⟩ session.pool = (after, cursor, .done ⟨[.int count], none⟩) ∧
        count.toInt = rows.length ∧ Pool.Gains file.id rows records session.pool after ∧ cursor.Spent) ∧
    ∀ after cursor, ∀ count : Int32,
      Cursor.next ⟨tx, .insert child file.id, reached⟩ session.pool = (after, cursor, .done ⟨[.int count], none⟩) →
        count.toInt = rows.length → Roomy child file session.pool := by
  have alone := now.alone unlocked whole
  exact ⟨opened.copies earlier alone serves few,
    fun _ _ _ counted all => opened.roomy earlier alone serves counted all⟩

/-! ## A table copied into itself -/

theorem alone_integerSession : Pool.Alone ⟨1⟩ integerFile.id integerSession.pool :=
  evenlyReached_integerSession.reached.alone (fun _ _ listed => by cases listed) fun _ =>
    evenlyReached_integerSession.whole

set_option maxRecDepth 4000 in
theorem serves_integerSession : integerSession.pool.Serves integerFile.id integerFile := by
  refine ⟨⟨0, rfl⟩, nofun, rfl, fun number inside => ?_⟩
  have none : integerSession.pool.pageCount integerFile.id = 0 := rfl
  omega

theorem serves_unplacedInteger (number : Int32) (alone : Pool.Alone ⟨1⟩ integerFile.id session.pool)
    (serves : session.pool.Serves integerFile.id integerFile) :
    Pool.Alone ⟨1⟩ integerFile.id
        (session.act (.insert ⟨1⟩ integerFile.id (unplacedInteger number))).1.pool ∧
      (session.act (.insert ⟨1⟩ integerFile.id (unplacedInteger number))).1.pool.Serves integerFile.id integerFile := by
  have kept : (unplacedInteger number).Kept := by
    intro value listed
    cases List.mem_singleton.mp listed
    rfl
  have conforms : (unplacedInteger number).Conforms integerFile.schema := ⟨rfl, kept⟩
  obtain ⟨_, _, after, inserted, stores⟩ := alone.stores serves conforms
  rw [pool_of_insert rfl, inserted]
  exact ⟨stores.alone, stores.serves⟩

def oneRowSession : Session := (integerSession.act (.insert ⟨1⟩ integerFile.id (unplacedInteger 7))).1

def twoRowSession : Session := (oneRowSession.act (.insert ⟨1⟩ integerFile.id (unplacedInteger 8))).1

/-- A scan of the table, which is to be inserted into it. -/
def integerSource : Plan := .scanOf integerFile "s"

def begunCopy : InsertState integerSource.State := .mk (some .start : Option ScanPosition) true false none

theorem opened_integerSource (serves : session.pool.Serves integerFile.id integerFile) {rows : List Row}
    (read : (integerSource.rest ⟨1⟩ begunCopy.child session.pool).2.2 = (rows, .done ())) :
    Opened ⟨1⟩ integerSource integerFile rows session session begunCopy := by
  obtain ⟨count, known⟩ := serves.known
  have made : (Plan.scanOf { integerFile with pageCount := count } "s").Made session.pool := .scan "s" known
  exact ⟨made, fun _ _ same => by simp [integerSource, Plan.scanOf] at same, rfl, ⟨_, Plan.idle_fresh _, rfl⟩,
    ⟨_, _, Prod.ext rfl (Prod.ext rfl read)⟩⟩

theorem rest_oneRowSession : (integerSource.rest ⟨1⟩ begunCopy.child oneRowSession.pool).2.2 =
    ([integerRow 0 0 7], .done ()) := by decide +kernel

theorem rest_twoRowSession : (integerSource.rest ⟨1⟩ begunCopy.child twoRowSession.pool).2.2 =
    ([integerRow 0 0 7, integerRow 0 1 8], .done ()) := by decide +kernel

theorem evenlyReached_oneRowSession : EvenlyReached oneRowSession :=
  evenlyReached_integerSession.act (enabled_unplacedInteger ⟨1⟩ 7 rfl)

theorem evenlyReached_twoRowSession : EvenlyReached twoRowSession :=
  evenlyReached_oneRowSession.act (enabled_unplacedInteger ⟨1⟩ 8 (by decide +kernel))

set_option maxRecDepth 4000 in
/-- One row on a page of three: its copy goes to the same page. -/
theorem copy_of_oneRow :
    EvenlyReached oneRowSession ∧
      Opened ⟨1⟩ integerSource integerFile [integerRow 0 0 7] oneRowSession oneRowSession begunCopy ∧
      ∃ after cursor records, ∃ count : Int32,
        Cursor.next ⟨⟨1⟩, .insert integerSource integerFile.id, begunCopy⟩ oneRowSession.pool =
          (after, cursor, .done ⟨[.int count], none⟩) ∧ count.toInt = 1 ∧
        Pool.Gains integerFile.id [integerRow 0 0 7] records oneRowSession.pool after ∧ cursor.Spent := by
  have even := evenlyReached_oneRowSession
  obtain ⟨alone, serves⟩ := serves_unplacedInteger 7 alone_integerSession serves_integerSession
  have opened := opened_integerSource serves rest_oneRowSession
  have roomy : Roomy integerSource integerFile oneRowSession.pool := by
    intro _ _ _ count inside
    have one : oneRowSession.pool.pageCount integerFile.id = 1 := by decide +kernel
    rw [one] at inside
    interval_cases count
    · decide
    · decide +kernel
  exact ⟨even, opened, (copy_of_reached even.reached even.reached opened alone.unlocked serves alone.whole
    (by decide)).1 roomy⟩

/-- One row for a table of a single column. -/
def oddSource : Plan := .values (.ofTypes [.int]) [unplacedInteger 3]

def begunOdd : InsertState oddSource.State := .mk (some 0 : Option Nat) true false none

theorem opened_oddSource (bytes : List UInt8) :
    Opened ⟨1⟩ oddSource oddFile [unplacedInteger 3] (oddSession bytes) (oddSession bytes) begunOdd := by
  have given : ∀ row ∈ [unplacedInteger 3], row.Built := by
    intro row listed
    cases List.mem_singleton.mp listed
    exact ⟨.ofTypes [.int], [.int 3], rfl⟩
  have made : Plan.ofRows (.ofTypes [.int]) [unplacedInteger 3] = .ok oddSource := rfl
  exact ⟨.values given made, fun _ _ same => by simp [oddSource] at same, rfl, ⟨_, Plan.idle_fresh _, rfl⟩, ⟨_, _, rfl⟩⟩

theorem unlocked_oddSession (bytes : List UInt8) : (oddSession bytes).pool.Unlocked ⟨1⟩ := by
  intro id holder listed
  cases listed

theorem serves_oddSession (bytes : List UInt8) : (oddSession bytes).pool.Serves oddFile.id oddFile := by
  refine ⟨⟨0, known_oddSession bytes⟩, nofun, rfl, fun number inside => ?_⟩
  rw [Pool.pageCount_eq (known_oddSession bytes)] at inside
  contradiction

set_option maxRecDepth 4000 in
/-- Two rows on a page of three: the copy of the second one goes to a new page, which is scanned as well. And
a file of five bytes: the insert that lengthens it makes a row of them, besides the one that it stores. -/
theorem copy_of_twoRows_and_usedBytes :
    (EvenlyReached twoRowSession ∧
      Opened ⟨1⟩ integerSource integerFile [integerRow 0 0 7, integerRow 0 1 8] twoRowSession twoRowSession begunCopy ∧
      twoRowSession.pool.Unlocked ⟨1⟩ ∧ twoRowSession.pool.Serves integerFile.id integerFile ∧
      (Cursor.next ⟨⟨1⟩, .insert integerSource integerFile.id, begunCopy⟩ twoRowSession.pool).2.2 =
        .done ⟨[.int 3], none⟩) ∧
    ∃ session after cursor, Reached session ∧
      Opened ⟨1⟩ oddSource oddFile [unplacedInteger 3] session session begunOdd ∧
      session.pool.Unlocked ⟨1⟩ ∧ session.pool.Serves oddFile.id oddFile ∧
      (session.pool.scanAll ⟨1⟩ oddFile.id .start).2.2 = ([], .done ()) ∧
      Cursor.next ⟨⟨1⟩, .insert oddSource oddFile.id, begunOdd⟩ session.pool =
        (after, cursor, .done ⟨[.int 1], none⟩) ∧
      (after.scanAll ⟨1⟩ oddFile.id .start).2.2 =
        ([⟨[.int 7], some ⟨⟨oddFile.id, 0⟩, 0⟩⟩, ⟨[.int 3], some ⟨⟨oddFile.id, 0⟩, 1⟩⟩], .done ()) := by
  obtain ⟨alone, serves⟩ := serves_unplacedInteger 7 alone_integerSession serves_integerSession
  obtain ⟨alone, serves⟩ := serves_unplacedInteger 8 alone serves
  constructor
  · exact ⟨evenlyReached_twoRowSession, opened_integerSource serves rest_twoRowSession, alone.unlocked, serves,
      by decide +kernel⟩
  · refine ⟨oddSession [1, 7, 0, 0, 0], _, _, reached_oddSession _ rfl, opened_oddSource _,
      unlocked_oddSession _, serves_oddSession _, by decide +kernel, Prod.ext rfl (Prod.ext rfl ?_), ?_⟩
    · decide +kernel
    · decide +kernel

end Session

end RowStore
