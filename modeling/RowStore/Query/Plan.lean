import RowStore.Pool.Insert
import RowStore.Pool.Scan
import RowStore.Query.Aggregate

namespace RowStore

/-! Queries: what is computed, without where the computation stands. -/

inductive Plan where
  | values (schema : Schema) (rows : List Row)
  /-- The rows of a table, whose columns are named after the label. -/
  | scan (table : TableId) (label : String) (source : Schema)
  /-- One aggregate of a column of the child, for each value of the group column if there is one. -/
  | aggregate (child : Plan) (column : Nat) (group : Option Nat) (fn : AggregateFn)
  /-- Inserts the rows of the child into a table and counts them. -/
  | insert (child : Plan) (table : TableId)

namespace Plan

/-- The aggregated column is named after the aggregate and the column of the child. -/
def aggregateSchema (child : Schema) (column : Nat) (group : Option Nat) (fn : AggregateFn) :
    Schema :=
  let label := ((child.column? column).map Column.label).getD "null"
  ⟨(group.bind child.column?).toList ++ [⟨.int, some (fn.name ++ "(" ++ label ++ ")")⟩]⟩

def schema : Plan → Schema
  | .values schema _ => schema
  | .scan _ label source => source.aliased label
  | .aggregate child column group fn => aggregateSchema child.schema column group fn
  | .insert _ _ => ⟨[⟨.int, some "count"⟩]⟩

/-- Given rows have to agree with the schema; the first that does not is named. -/
def ofRows (schema : Schema) (rows : List Row) : Except StoreError Plan :=
  match rows.find? fun row => row.types ≠ schema.types with
  | some row => .error (.typeMismatch (.row row.values schema))
  | none => .ok (.values schema rows)

def scanOf (file : TableFile) (label : String) : Plan := .scan file.id label file.schema

def groupBy? (schema : Schema) (group : Option Nat) :
    Except StoreError (Option (Nat × ColumnType)) :=
  match group with
  | none => .ok none
  | some index =>
      match schema.column? index with
      | some column => .ok (some (index, column.type))
      | none => .error (.noSuchColumn index)

/-- The aggregator of a column of a schema: integers take every aggregate, texts only a count. -/
def aggregator? (schema : Schema) (column : Nat) (group : Option Nat) (fn : AggregateFn) :
    Except StoreError Aggregator :=
  match schema.column? column with
  | none => .error (.noSuchColumn column)
  | some source =>
      match groupBy? schema group with
      | .error error => .error error
      | .ok groupBy =>
          match source.type with
          | .int => .ok (Aggregator.ofIntegers groupBy column fn)
          | .text => Aggregator.ofTexts groupBy fn

def aggregateOf (child : Plan) (column : Nat) (group : Option Nat) (fn : AggregateFn) :
    Except StoreError Plan :=
  match aggregator? child.schema column group fn with
  | .error error => .error error
  | .ok _ => .ok (.aggregate child column group fn)

/-- The rows of the child have to agree with the table. -/
def insertOf (child : Plan) (file : TableFile) : Except StoreError Plan :=
  if child.schema.types = file.schema.types then .ok (.insert child file.id)
  else .error (.schemaMismatch file.id)

end Plan

end RowStore
