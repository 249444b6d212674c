import RowStore.Error

namespace RowStore

/-! Rows: checked values, with the place they were read from, if any. -/

structure Row where
  values : List Value
  location : Option RecordId
  deriving DecidableEq

namespace Row

def types (row : Row) : List ColumnType := row.values.map Value.type

def display (row : Row) : String := displayValues row.values

def value? (row : Row) (index : Nat) : Option Value := row.values[index]?

def at? (row : Row) (index : Nat) : Except StoreError Value :=
  match row.value? index with
  | some value => .ok value
  | none => .error (.noSuchColumn index)

def unstored (row : Row) : Row := { row with location := none }

end Row

/-- The first column whose value has another type, counted from `index`. -/
def firstClash (index : Nat) : List ColumnType → List Value → Option TypeClash
  | type :: types, value :: values =>
      if value.type = type then firstClash (index + 1) types values
      else some (.column index value.type type)
  | _, _ => none

/-- A row of these values. Their number is checked before their types; texts are cut to what a
row keeps. -/
def Schema.row (schema : Schema) (values : List Value) : Except StoreError Row :=
  if values.length = schema.size then
    match firstClash 0 schema.types values with
    | some clash => .error (.typeMismatch clash)
    | none => .ok ⟨values.map Value.clipped, none⟩
  else .error (.typeMismatch (.arity schema.size values.length))

theorem map_type_of_firstClash {index : Nat} {types : List ColumnType} {values : List Value}
    (same : values.length = types.length) (accepted : firstClash index types values = none) :
    values.map Value.type = types := by
  induction types generalizing index values with
  | nil => simpa using same
  | cons type types ih =>
      cases values with
      | nil => simp at same
      | cons value values =>
          simp only [firstClash] at accepted
          split at accepted
          · next agrees =>
            simp only [List.length_cons, Nat.add_right_cancel_iff] at same
            simp [agrees, ih same accepted]
          · contradiction

theorem Schema.types_row {schema : Schema} {values : List Value} {row : Row}
    (built : schema.row values = .ok row) : row.types = schema.types := by
  unfold Schema.row at built
  split at built
  · next same =>
    split at built
    · contradiction
    · next accepted =>
      cases built
      rw [← map_type_of_firstClash (by simpa using same) accepted]
      simp [Row.types, Function.comp_def]
  · contradiction

end RowStore
