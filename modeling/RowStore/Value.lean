import RowStore.Text.Utf8

namespace RowStore

/-! Column types and the values of a row. -/

inductive ColumnType where
  | int
  | text
  deriving DecidableEq, Repr

/-- The most bytes of a text that a row keeps. -/
def textCapacity : Nat := 128

namespace ColumnType

def name : ColumnType → String
  | .int => "Int"
  | .text => "String"

def all : List ColumnType := [.int, .text]

/-- Bytes of a slot that a value of this type takes: an integer is four bytes, a text is four
bytes of length and then room for the longest text. -/
def width : ColumnType → Nat
  | .int => 4
  | .text => 4 + textCapacity

def rowWidth : List ColumnType → Nat
  | [] => 0
  | type :: types => type.width + rowWidth types

end ColumnType

inductive Value where
  | int (value : Int32)
  | text (value : String)
  deriving DecidableEq

namespace Value

instance : Inhabited Value := ⟨.int 0⟩

def type : Value → ColumnType
  | .int _ => .int
  | .text _ => .text

def int? : Value → Option Int32
  | .int value => some value
  | .text _ => none

def display : Value → String
  | .int value => toString value.toInt
  | .text value => value

/-- The value as a row keeps it: a text is cut between two characters. -/
def clipped : Value → Value
  | .int value => .int value
  | .text value => .text (String.ofList (Text.clip textCapacity value.toList))

/-- Integers stand before texts; texts compare as their bytes do. -/
def compare : Value → Value → Ordering
  | .int left, .int right => Ord.compare left.toInt right.toInt
  | .int _, .text _ => .lt
  | .text _, .int _ => .gt
  | .text left, .text right => compareOfLessAndEq left right

/-- An absent value stands before every value. -/
def compareOption : Option Value → Option Value → Ordering
  | none, none => .eq
  | none, some _ => .lt
  | some _, none => .gt
  | some left, some right => compare left right

@[simp] theorem type_clipped (value : Value) : value.clipped.type = value.type := by
  cases value <;> rfl

end Value

/-- Values, some absent, in ascending order; equal ones keep their order. -/
def sortValues (values : List (Option Value)) : List (Option Value) :=
  values.mergeSort fun left right => Value.compareOption left right ≠ .gt

end RowStore
