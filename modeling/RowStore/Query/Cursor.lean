import RowStore.Query.Copy
import RowStore.Query.Plan

namespace RowStore

/-! Where a query stands, and how it moves.

A query is started, asked whether it has another row, asked for it, rewound and
closed. Opening, asking and taking can park on a lock: they are then called
again with the state that they left, and go on where they stopped.
-/

/-- An aggregate folds all rows of its child when it is started; `reading` holds the groups while
that is under way. -/
structure AggregateState (σ : Type) where
  child : σ
  reading : Option Aggregator
  results : Option GroupCursor

/-- An insert copies all rows of its child when its one row is taken; `copying` tells how far it
is. -/
structure InsertState (σ : Type) where
  child : σ
  opened : Bool
  finished : Bool
  copying : Option CopyStage

namespace Plan

def State : Plan → Type
  | .values _ _ => Option Nat
  | .scan _ _ _ => Option ScanPosition
  | .aggregate child _ _ _ => AggregateState child.State
  | .insert child _ => InsertState child.State

def fresh : (plan : Plan) → plan.State
  | .values _ _ => (none : Option Nat)
  | .scan _ _ _ => (none : Option ScanPosition)
  | .aggregate child _ _ _ => AggregateState.mk child.fresh none none
  | .insert child _ => InsertState.mk child.fresh false false none

def close : (plan : Plan) → plan.State → plan.State
  | .values _ _, _ => (none : Option Nat)
  | .scan _ _ _, _ => (none : Option ScanPosition)
  | .aggregate child _ _ _, (state : AggregateState child.State) =>
      { state with child := child.close state.child, results := none }
  | .insert child _, (state : InsertState child.State) =>
      { state with child := child.close state.child, opened := false }

/-- Back to the first row. An aggregate replays its groups without reading its child again. -/
def rewind : (plan : Plan) → plan.State → plan.State
  | .values _ _, _ => (some 0 : Option Nat)
  | .scan _ _ _, _ => (some .start : Option ScanPosition)
  | .aggregate _ _ _ _, (state : AggregateState _) =>
      { state with results := state.results.map GroupCursor.rewind }
  | .insert child _, (state : InsertState child.State) =>
      { state with child := child.rewind state.child, finished := false }

def hasNext (tx : TxId) : (plan : Plan) → plan.State → Pool → Ran plan.State Bool
  | .values _ rows, (position : Option Nat), pool =>
      (pool, position, .done (position.any fun position => position < rows.length))
  | .scan table _ _, (position : Option ScanPosition), pool =>
      match position with
      | none => (pool, position, .done false)
      | some position =>
          let (pool, position, outcome) := pool.scanHasNext tx table position
          (pool, some position, outcome)
  | .aggregate _ _ _ _, (state : AggregateState _), pool =>
      (pool, state, .done (state.results.any GroupCursor.hasNext))
  | .insert _ _, (state : InsertState _), pool =>
      (pool, state, .done (state.opened && !state.finished))

def countRow (count : Nat) : Row := ⟨[.int (Int32.ofNat count)], none⟩

def next (tx : TxId) : (plan : Plan) → plan.State → Pool → Ran plan.State Row
  | .values _ rows, (position : Option Nat), pool =>
      match position with
      | none => (pool, position, .failed .noMoreRows)
      | some index =>
          match rows[index]? with
          | none => (pool, position, .failed .noMoreRows)
          | some row => (pool, some (index + 1), .done row)
  | .scan table _ _, (position : Option ScanPosition), pool =>
      match position with
      | none => (pool, position, .failed .noMoreRows)
      | some position =>
          let (pool, position, outcome) := pool.scanNext tx table position
          (pool, some position, outcome)
  | .aggregate _ _ _ _, (state : AggregateState _), pool =>
      match state.results with
      | none => (pool, state, .failed .noMoreRows)
      | some results =>
          match results.next with
          | (results, .error error) => (pool, { state with results := some results }, .failed error)
          | (results, .ok row) => (pool, { state with results := some results }, .done row)
  | .insert child table, (state : InsertState child.State), pool =>
      if state.opened && !state.finished then
        match Copy.run (child.hasNext tx) (child.next tx) tx table
            (state.copying.getD (.asking 0)) state.child pool with
        | (pool, source, .parked stage) =>
            (pool, { state with child := source, copying := some stage }, .parked ())
        | (pool, source, .failed error) =>
            (pool, { state with child := source, copying := none }, .failed error)
        | (pool, source, .done count) =>
            (pool, { state with child := source, copying := none, finished := true },
              .done (countRow count))
      else (pool, state, .failed .noMoreRows)

def rest (tx : TxId) : (plan : Plan) → plan.State → Pool →
    Pool × plan.State × List Row × Outcome Unit Unit
  | .values _ rows, (position : Option Nat), pool =>
      match position with
      | none => (pool, position, [], .done ())
      | some index => (pool, some (max index rows.length), rows.drop index, .done ())
  | .scan table _ _, (position : Option ScanPosition), pool =>
      match position with
      | none => (pool, position, [], .done ())
      | some position =>
          let (pool, position, rows, outcome) := pool.scanAll tx table position
          (pool, some position, rows, outcome)
  | .aggregate _ _ _ _, (state : AggregateState _), pool =>
      match state.results with
      | none => (pool, state, [], .done ())
      | some results =>
          match results.rest with
          | (results, rows, .error error) =>
              (pool, { state with results := some results }, rows, .failed error)
          | (results, rows, .ok ()) => (pool, { state with results := some results }, rows, .done ())
  | .insert child table, (state : InsertState child.State), pool =>
      if state.opened && !state.finished then
        match next tx (.insert child table) state pool with
        | (pool, state, .parked stage) => (pool, state, [], .parked stage)
        | (pool, state, .failed error) => (pool, state, [], .failed error)
        | (pool, state, .done row) => (pool, state, [row], .done ())
      else (pool, state, [], .done ())

/-- Folds the rest of the child and opens the groups. An aggregate that fails keeps the results
that it had. -/
def readAll {σ : Type} (rest : σ → Pool → Pool × σ × List Row × Outcome Unit Unit)
    (aggregator : Aggregator) (state : AggregateState σ) (pool : Pool) :
    Ran (AggregateState σ) Unit :=
  match rest state.child pool with
  | (pool, source, rows, outcome) =>
      match aggregator.mergeEach rows with
      | .error error => (pool, { state with child := source, reading := none }, .failed error)
      | .ok aggregator =>
          match outcome with
          | .parked stage =>
              (pool, { state with child := source, reading := some aggregator }, .parked stage)
          | .failed error => (pool, { state with child := source, reading := none }, .failed error)
          | .done () =>
              (pool, ⟨source, none, some (GroupCursor.ofAggregator aggregator).rewind⟩, .done ())

def start (tx : TxId) : (plan : Plan) → plan.State → Pool → Ran plan.State Unit
  | .values _ _, _, pool => (pool, (some 0 : Option Nat), .done ())
  | .scan _ _ _, _, pool => (pool, (some .start : Option ScanPosition), .done ())
  | .aggregate child column group fn, (state : AggregateState child.State), pool =>
      match state.reading with
      | some aggregator => readAll (child.rest tx) aggregator state pool
      | none =>
          match child.start tx state.child pool with
          | (pool, source, .parked stage) => (pool, { state with child := source }, .parked stage)
          | (pool, source, .failed error) => (pool, { state with child := source }, .failed error)
          | (pool, source, .done ()) =>
              match aggregator? child.schema column group fn with
              | .error error => (pool, { state with child := source }, .failed error)
              | .ok aggregator => readAll (child.rest tx) aggregator { state with child := source } pool
  | .insert child _, (state : InsertState child.State), pool =>
      match child.start tx state.child pool with
      | (pool, source, .parked stage) => (pool, { state with child := source }, .parked stage)
      | (pool, source, .failed error) => (pool, { state with child := source }, .failed error)
      | (pool, source, .done ()) =>
          (pool, { state with child := source, opened := true, finished := false }, .done ())

end Plan

structure Cursor where
  tx : TxId
  plan : Plan
  state : plan.State

namespace Cursor

def ofPlan (tx : TxId) (plan : Plan) : Cursor := ⟨tx, plan, plan.fresh⟩

def close (cursor : Cursor) : Cursor := { cursor with state := cursor.plan.close cursor.state }

def rewind (cursor : Cursor) : Cursor := { cursor with state := cursor.plan.rewind cursor.state }

def start (cursor : Cursor) (pool : Pool) : Ran Cursor Unit :=
  let (pool, state, outcome) := cursor.plan.start cursor.tx cursor.state pool
  (pool, { cursor with state }, outcome)

def hasNext (cursor : Cursor) (pool : Pool) : Ran Cursor Bool :=
  let (pool, state, outcome) := cursor.plan.hasNext cursor.tx cursor.state pool
  (pool, { cursor with state }, outcome)

def next (cursor : Cursor) (pool : Pool) : Ran Cursor Row :=
  let (pool, state, outcome) := cursor.plan.next cursor.tx cursor.state pool
  (pool, { cursor with state }, outcome)

def rest (cursor : Cursor) (pool : Pool) : Pool × Cursor × List Row × Outcome Unit Unit :=
  let (pool, state, rows, outcome) := cursor.plan.rest cursor.tx cursor.state pool
  (pool, { cursor with state }, rows, outcome)

end Cursor

end RowStore
