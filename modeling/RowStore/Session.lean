import RowStore.Database
import RowStore.Pool.Delete
import RowStore.Query.Cursor

namespace RowStore

/-! Calls of many transactions on one database.

A call runs until it answers or parks on a lock. A parked call goes on when its
transaction is resumed, which is allowed once its request was woken; in which
order woken calls go on is up to the scheduler.
-/

/-- A call, with all that is needed to go on after a wait. -/
inductive Call where
  | fetch (page : PageId) (mode : LockMode)
  | insert (table : TableId) (row : Row) (stage : InsertStage)
  /-- An insert that leaves the page unmarked. -/
  | place (table : TableId) (row : Row) (stage : InsertStage)
  | delete (location : Option RecordId)
  /-- A delete that leaves the page unmarked. -/
  | remove (table : TableId) (location : Option RecordId)
  | scan (table : TableId) (position : ScanPosition) (rows : List Row)
  | start (cursor : Cursor)
  | hasNext (cursor : Cursor)
  | next (cursor : Cursor)
  | drain (cursor : Cursor) (rows : List Row)

inductive Answer where
  | nothing
  | flag (value : Bool)
  | page (page : Page)
  | pageNumber (number : Nat)
  | row (row : Row)
  | rows (rows : List Row)
  /-- Rows of a query up to its end or to a failure. -/
  | drained (rows : List Row) (failure : Option StoreError)
  deriving DecidableEq

/-- What a finished call leaves: its answer, and the query that it moved. -/
structure Reply where
  result : Except StoreError Answer
  cursor : Option Cursor

/-- A call that stopped: finished, or parked and to be run again from the call. -/
inductive Stop where
  | finished (reply : Reply)
  | parked (call : Call)

namespace Call

def settle {σ α : Type} (outcome : Outcome σ α) (again : σ → Call) (write : α → Answer) : Stop :=
  match outcome with
  | .done value => .finished ⟨.ok (write value), none⟩
  | .failed error => .finished ⟨.error error, none⟩
  | .parked stage => .parked (again stage)

/-- A call that leaves a query where it now stands. -/
def settleQuery {α : Type} (cursor : Cursor) (outcome : Outcome Unit α) (again : Cursor → Call)
    (write : α → Answer) : Stop :=
  match outcome with
  | .done value => .finished ⟨.ok (write value), some cursor⟩
  | .failed error => .finished ⟨.error error, some cursor⟩
  | .parked _ => .parked (again cursor)

def run (tx : TxId) (pool : Pool) : Call → Pool × Stop
  | .fetch page mode =>
      let (pool, outcome) := pool.fetch tx page mode
      (pool, settle outcome (fun _ => .fetch page mode) .page)
  | .insert table row stage =>
      let (pool, outcome) := pool.insert tx table row stage
      (pool, settle outcome (.insert table row) fun _ => .nothing)
  | .place table row stage =>
      let (pool, outcome) := pool.place tx table row stage
      (pool, settle outcome (.place table row) .pageNumber)
  | .delete location =>
      let (pool, outcome) := pool.delete tx location
      (pool, settle outcome (fun _ => .delete location) fun _ => .nothing)
  | .remove table location =>
      match pool.table? table with
      | .error error => (pool, .finished ⟨.error error, none⟩)
      | .ok file =>
          let (pool, outcome) := pool.remove tx file location
          (pool, settle outcome (fun _ => .remove table location) .pageNumber)
  | .scan table position rows =>
      let (pool, position, more, outcome) := pool.scanAll tx table position
      (pool, settle outcome (fun _ => .scan table position (rows ++ more))
        fun _ => .rows (rows ++ more))
  | .start cursor =>
      let (pool, cursor, outcome) := cursor.start pool
      (pool, settleQuery cursor outcome .start fun _ => .nothing)
  | .hasNext cursor =>
      let (pool, cursor, outcome) := cursor.hasNext pool
      (pool, settleQuery cursor outcome .hasNext .flag)
  | .next cursor =>
      let (pool, cursor, outcome) := cursor.next pool
      (pool, settleQuery cursor outcome .next .row)
  | .drain cursor rows =>
      let (pool, cursor, more, outcome) := cursor.rest pool
      match outcome with
      | .parked _ => (pool, .parked (.drain cursor (rows ++ more)))
      | .done () => (pool, .finished ⟨.ok (.drained (rows ++ more) none), some cursor⟩)
      | .failed error => (pool, .finished ⟨.ok (.drained (rows ++ more) (some error)), some cursor⟩)

end Call

structure Session where
  db : Database
  parked : FinMap TxId Call
  nextTx : Nat

namespace Session

def ofDatabase (db : Database) : Session := ⟨db, .empty, 0⟩

def pool (session : Session) : Pool := session.db.pool

def withPool (session : Session) (pool : Pool) : Session :=
  { session with db := { session.db with pool } }

/-- A new transaction; numbers are never used again. -/
def begin (session : Session) : Session × TxId :=
  ({ session with nextTx := session.nextTx + 1 }, ⟨session.nextTx⟩)

def isParked (session : Session) (tx : TxId) : Bool := session.parked.contains tx

def run (session : Session) (tx : TxId) (call : Call) : Session × Option Reply :=
  match call.run tx session.pool with
  | (pool, .finished reply) =>
      ({ session with parked := session.parked.erase tx }.withPool pool, some reply)
  | (pool, .parked call) =>
      ({ session with parked := session.parked.insert tx call }.withPool pool, none)

def resume (session : Session) (tx : TxId) : Session × Option Reply :=
  match session.parked.get? tx with
  | some call => session.run tx call
  | none => (session, none)

/-- Ends the wait of a transaction, and with it the parked call. -/
def cancel (session : Session) (tx : TxId) : Session :=
  ((session.withPool (session.pool.interrupt tx)).resume tx).1

/-- Ends every parked call. Nobody hears what they answer; what the transactions hold stays. -/
def cancelParked (session : Session) : Session := session.parked.keys.foldl cancel session

/-- Lets time go by, which ends waits that have a limit. -/
def elapse (session : Session) (milliseconds : Nat) : Session :=
  session.withPool { session.pool with locks := session.pool.locks.elapse milliseconds }

/-- Resumes woken calls, the longest parked one first, until none is woken or the given number of
calls was resumed. Tells what the finished ones answered. -/
def settle (session : Session) : (limit : Nat) → Session × List (TxId × Reply)
  | 0 => (session, [])
  | limit + 1 =>
      match session.pool.locks.awake with
      | [] => (session, [])
      | tx :: _ =>
          let (session, reply) := session.resume tx
          let (session, replies) := session.settle limit
          (session, (reply.map fun reply => (tx, reply)).toList ++ replies)

end Session

end RowStore
