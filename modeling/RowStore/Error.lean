import RowStore.Address
import RowStore.Schema

namespace RowStore

/-! Why a request is refused, and how the refusal reads. -/

inductive AbortReason where
  | interrupted
  | deadlock
  | timeout
  deriving DecidableEq, Repr

def AbortReason.name : AbortReason → String
  | .interrupted => "Interrupted"
  | .deadlock => "Deadlock"
  | .timeout => "Timeout"

inductive AggregateFn where
  | min
  | max
  | sum
  | avg
  | count
  deriving DecidableEq, Repr

namespace AggregateFn

def name : AggregateFn → String
  | .min => "min"
  | .max => "max"
  | .sum => "sum"
  | .avg => "avg"
  | .count => "count"

def title : AggregateFn → String
  | .min => "Min"
  | .max => "Max"
  | .sum => "Sum"
  | .avg => "Avg"
  | .count => "Count"

def all : List AggregateFn := [.min, .max, .sum, .avg, .count]

end AggregateFn

/-- Values that do not fit where they are put. -/
inductive TypeClash where
  | arity (expected given : Nat)
  | column (index : Nat) (given expected : ColumnType)
  | notInteger (index : Nat)
  | row (values : List Value) (schema : Schema)
  | encoding (fault : Text.Utf8Fault)
  deriving DecidableEq

inductive Counter where
  | aggregate (fn : AggregateFn)
  | inserted
  deriving DecidableEq, Repr

inductive StoreError where
  | aborted (tx : TxId) (reason : AbortReason)
  | schemaMismatch (table : TableId)
  | foreignPage (page : PageId)
  | pageOutOfBounds (page : PageId) (pageCount : Nat)
  | slotEmpty (page : PageId) (slot : Nat)
  | pageFull (page : PageId)
  | pageTooSmall (pageSize rowWidth : Nat)
  | zeroPageSize
  | notStored
  | unsupportedAggregate (fn : AggregateFn)
  | noSuchTable (table : TableId)
  | unknownTable (name : String)
  | noSuchColumn (index : Nat)
  | noSuchColumnName (name : String)
  | typeMismatch (clash : TypeClash)
  | overflow (counter : Counter)
  | noMoreRows
  | storage
  /-- An index past the end, which the caller was to rule out. -/
  | indexOutOfRange
  deriving DecidableEq

def displayValues (values : List Value) : String :=
  "\t".intercalate (values.map Value.display)

def TypeClash.message : TypeClash → String
  | .arity expected given => s!"expected {expected} fields, got {given}"
  | .column index given expected =>
      s!"field {index} is {given.name}, expected {expected.name}"
  | .notInteger index => s!"field {index} is not an int"
  | .row values schema => s!"tuple ({displayValues values}) does not match {schema.display}"
  | .encoding fault => fault.message

def Counter.name : Counter → String
  | .aggregate fn => fn.name
  | .inserted => "insert count"

namespace StoreError

def message : StoreError → String
  | .aborted tx reason => s!"transaction {tx.display} aborted: {reason.name}"
  | .schemaMismatch table => s!"tuple descriptor does not match table {table.toNat}"
  | .foreignPage page => s!"page {page.display} does not belong to this table"
  | .pageOutOfBounds page pageCount => s!"page {page.display} out of bounds ({pageCount} pages)"
  | .slotEmpty page slot => s!"slot {slot} of page {page.display} is already empty"
  | .pageFull page => s!"page {page.display} has no empty slot"
  | .pageTooSmall pageSize rowWidth =>
      s!"a {pageSize} byte page cannot hold a single {rowWidth} byte tuple"
  | .zeroPageSize => "invalid configuration: page_size must be positive"
  | .notStored => "tuple has not been stored in a page"
  | .unsupportedAggregate fn => s!"unsupported aggregate: {fn.name} over a string field"
  | .noSuchTable table => s!"no table with id {hexText table.toNat}"
  | .unknownTable name => s!"no table named '{name}'"
  | .noSuchColumn index => s!"no field '{index}'"
  | .noSuchColumnName name => s!"no field '{name}'"
  | .typeMismatch clash => s!"type mismatch: {clash.message}"
  | .overflow counter => s!"arithmetic overflow in {counter.name}"
  | .noMoreRows => "iterator has no more tuples"
  | .storage => "storage error"
  | .indexOutOfRange => "index out of range"

def table? : StoreError → Option TableId
  | .schemaMismatch table => some table
  | .noSuchTable table => some table
  | .foreignPage page => some page.table
  | .pageOutOfBounds page _ => some page.table
  | .slotEmpty page _ => some page.table
  | .pageFull page => some page.table
  | _ => none

def isAbort : StoreError → Bool
  | .aborted _ _ => true
  | _ => false

end StoreError

end RowStore
