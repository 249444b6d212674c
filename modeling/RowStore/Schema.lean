import RowStore.Value

namespace RowStore

/-! The schema of a table or of a query: typed columns that may carry a name.

Two schemas accept the same rows when their column types agree; names only label
the columns.
-/

structure Column where
  type : ColumnType
  name : Option String
  deriving DecidableEq

namespace Column

def label (column : Column) : String := column.name.getD "null"

def display (column : Column) : String := column.type.name ++ "(" ++ column.label ++ ")"

end Column

structure Schema where
  columns : List Column
  deriving DecidableEq

namespace Schema

instance : Inhabited Schema := ⟨⟨[]⟩⟩

def ofTypes (types : List ColumnType) : Schema := ⟨types.map fun type => ⟨type, none⟩⟩

def types (schema : Schema) : List ColumnType := schema.columns.map Column.type

def size (schema : Schema) : Nat := schema.columns.length

def column? (schema : Schema) (index : Nat) : Option Column := schema.columns[index]?

def indexOf? (schema : Schema) (name : String) : Option Nat :=
  schema.columns.findIdx? fun column => column.name = some name

def agrees (left right : Schema) : Bool := left.types = right.types

def rowWidth (schema : Schema) : Nat := ColumnType.rowWidth schema.types

/-- Bytes of a row that stand before a column; there is one offset past the last column. -/
def offset? (schema : Schema) (index : Nat) : Option Nat :=
  if index ≤ schema.size then some (ColumnType.rowWidth (schema.types.take index)) else none

def append (left right : Schema) : Schema := ⟨left.columns ++ right.columns⟩

def aliased (schema : Schema) (label : String) : Schema :=
  ⟨schema.columns.map fun column => ⟨column.type, some (label ++ "." ++ column.label)⟩⟩

def display (schema : Schema) : String :=
  ", ".intercalate (schema.columns.map Column.display)

@[simp] theorem types_aliased (schema : Schema) (label : String) :
    (schema.aliased label).types = schema.types := by
  simp [aliased, types]

@[simp] theorem types_ofTypes (types : List ColumnType) : (ofTypes types).types = types := by
  simp [ofTypes, Schema.types, Function.comp_def]

@[simp] theorem length_types (schema : Schema) : schema.types.length = schema.size := by
  simp [types, size]

end Schema

end RowStore
