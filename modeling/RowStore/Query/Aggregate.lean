import RowStore.Row

namespace RowStore

/-! Aggregates of the rows of each group.

An aggregator folds rows into one summary for each group. A group cursor replays
the groups seen so far as rows, in ascending order of the group.
-/

/-- What is known of a group: its least and greatest integer, their total, and how many rows it
has. -/
structure Summary where
  least : Int32
  greatest : Int32
  total : Int
  count : Nat
  deriving DecidableEq

namespace Summary

def empty : Summary := ⟨Int32.maxValue, Int32.minValue, 0, 0⟩

def add (summary : Summary) (value : Int32) : Summary where
  least := if value < summary.least then value else summary.least
  greatest := if summary.greatest < value then value else summary.greatest
  total := summary.total + value.toInt
  count := summary.count + 1

def addRow (summary : Summary) : Summary := { summary with count := summary.count + 1 }

/-- A number as the value of a column, if it has room there. -/
def fit (fn : AggregateFn) (number : Int) : Except StoreError Int32 :=
  if Int32.minValue.toInt ≤ number ∧ number ≤ Int32.maxValue.toInt then .ok (Int32.ofInt number)
  else .error (.overflow (.aggregate fn))

/-- The mean is cut toward zero. -/
def value (summary : Summary) : AggregateFn → Except StoreError Int32
  | .min => .ok summary.least
  | .max => .ok summary.greatest
  | .sum => fit .sum summary.total
  | .avg => fit .avg (summary.total.tdiv summary.count)
  | .count => fit .count summary.count

end Summary

/-- A group: its key, absent when all rows are one group, and its summary. -/
abbrev Group := Option Value × Summary

/-- Changes the summary of a group in an ascending list of groups, which gets the group if it
lacks it. -/
def updateGroup (key : Option Value) (change : Summary → Summary) : List Group → List Group
  | [] => [(key, change .empty)]
  | (other, summary) :: rest =>
      match Value.compareOption key other with
      | .lt => (key, change .empty) :: (other, summary) :: rest
      | .eq => (other, change summary) :: rest
      | .gt => (other, summary) :: updateGroup key change rest

/-- What is folded: the integers of a column, or only that there is a row. -/
inductive Measure where
  | integers (column : Nat)
  | rows
  deriving DecidableEq, Repr

structure Aggregator where
  measure : Measure
  groupBy : Option (Nat × ColumnType)
  fn : AggregateFn
  groups : List Group

namespace Aggregator

def ofIntegers (groupBy : Option (Nat × ColumnType)) (column : Nat) (fn : AggregateFn) :
    Aggregator :=
  ⟨.integers column, groupBy, fn, []⟩

/-- Texts can only be counted. -/
def ofTexts (groupBy : Option (Nat × ColumnType)) (fn : AggregateFn) :
    Except StoreError Aggregator :=
  if fn = .count then .ok ⟨.rows, groupBy, fn, []⟩ else .error (.unsupportedAggregate fn)

def clear (aggregator : Aggregator) : Aggregator := { aggregator with groups := [] }

/-- How a row changes the summary of its group. -/
def change (aggregator : Aggregator) (row : Row) : Except StoreError (Summary → Summary) :=
  match aggregator.measure with
  | .rows => .ok Summary.addRow
  | .integers column =>
      match row.at? column with
      | .error error => .error error
      | .ok value =>
          match value.int? with
          | some number => .ok fun summary => summary.add number
          | none => .error (.typeMismatch (.notInteger column))

def key (aggregator : Aggregator) (row : Row) : Except StoreError (Option Value) :=
  match aggregator.groupBy with
  | none => .ok none
  | some (column, _) => (row.at? column).map some

/-- Folds a row into its group. A row that cannot be folded changes nothing. -/
def merge (aggregator : Aggregator) (row : Row) : Except StoreError Aggregator :=
  match aggregator.change row with
  | .error error => .error error
  | .ok change =>
      match aggregator.key row with
      | .error error => .error error
      | .ok key => .ok { aggregator with groups := updateGroup key change aggregator.groups }

def mergeEach (aggregator : Aggregator) : List Row → Except StoreError Aggregator
  | [] => .ok aggregator
  | row :: rows =>
      match aggregator.merge row with
      | .error error => .error error
      | .ok aggregator => aggregator.mergeEach rows

def schema (aggregator : Aggregator) : Schema :=
  .ofTypes ((aggregator.groupBy.map Prod.snd).toList ++ [.int])

end Aggregator

/-- Replays groups as rows. It is closed while it has no position. -/
structure GroupCursor where
  schema : Schema
  fn : AggregateFn
  groups : List Group
  position : Option Nat

namespace GroupCursor

def ofAggregator (aggregator : Aggregator) : GroupCursor :=
  ⟨aggregator.schema, aggregator.fn, aggregator.groups, none⟩

def rewind (cursor : GroupCursor) : GroupCursor := { cursor with position := some 0 }

def close (cursor : GroupCursor) : GroupCursor := { cursor with position := none }

def hasNext (cursor : GroupCursor) : Bool :=
  cursor.position.any fun position => position < cursor.groups.length

/-- Hands out the next group. A value without room is refused and stays next; a key of another
type than declared is passed over. -/
def next (cursor : GroupCursor) : GroupCursor × Except StoreError Row :=
  match cursor.position with
  | none => (cursor, .error .noMoreRows)
  | some position =>
      match cursor.groups[position]? with
      | none => (cursor, .error .noMoreRows)
      | some (key, summary) =>
          match summary.value cursor.fn with
          | .error error => (cursor, .error error)
          | .ok value =>
              ({ cursor with position := some (position + 1) },
                cursor.schema.row (key.toList ++ [.int value]))

/-- Hands out a row for each of these groups, up to one that is refused. -/
def nextEach (cursor : GroupCursor) : List Group → GroupCursor × List Row × Except StoreError Unit
  | [] => (cursor, [], .ok ())
  | _ :: groups =>
      match cursor.next with
      | (cursor, .error error) => (cursor, [], .error error)
      | (cursor, .ok row) =>
          let (cursor, rows, result) := cursor.nextEach groups
          (cursor, row :: rows, result)

def rest (cursor : GroupCursor) : GroupCursor × List Row × Except StoreError Unit :=
  match cursor.position with
  | none => (cursor, [], .ok ())
  | some position => cursor.nextEach (cursor.groups.drop position)

end GroupCursor

end RowStore
