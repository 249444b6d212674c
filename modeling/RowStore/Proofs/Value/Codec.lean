import RowStore.Proofs.Text.Utf8
import RowStore.Row
import RowStore.Value.Codec

namespace RowStore

/-! Values that a row keeps are read back from their bytes, and only such values are read. -/

variable {value : Value} {type : ColumnType} {bytes : List UInt8}

namespace Value

/-- The value is one that a row keeps: a text is short enough. -/
def Kept (value : Value) : Prop := value.clipped = value

instance (value : Value) : Decidable value.Kept := inferInstanceAs (Decidable (_ = _))

theorem kept_clipped (value : Value) : value.clipped.Kept := by
  cases value with
  | int number => rfl
  | text string =>
      simp only [Kept, clipped, String.toList_ofList]
      rw [Text.clip_of_fits (Text.byteCount_clip_le _ _)]

theorem kept_text_iff {string : String} :
    (text string).Kept ↔ Text.byteCount string.toList ≤ textCapacity := by
  constructor
  · intro kept
    have bound := Text.byteCount_clip_le textCapacity string.toList
    have same := congrArg String.toList (text.inj kept)
    rwa [← same, String.toList_ofList]
  · intro fits
    rw [Kept, clipped, Text.clip_of_fits fits, String.ofList_toList]

end Value

theorem decodeText_encode {chars : List Char} (fits : Text.byteCount chars ≤ textCapacity)
    (rest : List UInt8) :
    ColumnType.text.decode (encodeText chars ++ rest) = .ok (.text (String.ofList chars)) := by
  have size : (UInt32.ofNat (Text.encode chars).length).toNat = Text.byteCount chars := by
    rw [UInt32.toNat_ofNat', Text.length_encode]
    exact Nat.mod_eq_of_lt (Nat.lt_of_le_of_lt fits (by decide))
  have count : min (Text.byteCount chars) textCapacity = (Text.encode chars).length := by
    rw [Text.length_encode]
    omega
  simp only [ColumnType.decode, encodeText, List.append_assoc, readWord?_wordBytes, decodeText, size,
    count]
  rw [if_pos (by simp), List.take_left, Text.decode?_encode]

theorem ColumnType.decode_encode (fits : value.type = type) (kept : value.Kept)
    (rest : List UInt8) : type.decode (value.encode ++ rest) = .ok value := by
  subst fits
  rw [Value.encode, kept]
  cases value with
  | int number => simp only [Value.type, decode, readWord?_wordBytes]
  | text string =>
      rw [Value.type, decodeText_encode (Value.kept_text_iff.mp kept), String.ofList_toList]

theorem ColumnType.type_of_decode (read : type.decode bytes = .ok value) :
    value.type = type ∧ value.Kept := by
  unfold decode at read
  split at read
  · contradiction
  · next word rest _ =>
    cases type with
    | int =>
        cases read
        exact ⟨rfl, rfl⟩
    | text =>
        simp only [decodeText] at read
        split at read
        · split at read
          · next chars text =>
            cases read
            refine ⟨rfl, Value.kept_text_iff.mpr ?_⟩
            have short := Text.byteCount_of_decode? text
            rw [List.length_take] at short
            rw [String.toList_ofList]
            omega
          · contradiction
        · contradiction

/-- The row keeps its values as they are. -/
def Row.Kept (row : Row) : Prop := ∀ value ∈ row.values, value.Kept

instance (row : Row) : Decidable row.Kept :=
  inferInstanceAs (Decidable (∀ value ∈ row.values, value.Kept))

theorem firstClash_map_type (index : Nat) (values : List Value) :
    firstClash index (values.map Value.type) values = none := by
  induction values generalizing index with
  | nil => rfl
  | cons value values ih => simp only [List.map_cons, firstClash, if_pos, ih]

theorem Schema.row_of_types {schema : Schema} {values : List Value}
    (same : values.map Value.type = schema.types) :
    schema.row values = .ok ⟨values.map Value.clipped, none⟩ := by
  have count : values.length = schema.size := by
    rw [← schema.length_types, ← same, List.length_map]
  rw [row, if_pos count, ← same, firstClash_map_type]

/-- A row is built of values of the types of its columns, each as far as it is kept. -/
theorem Schema.row_eq_ok_iff {schema : Schema} {values : List Value} {row : Row} :
    schema.row values = .ok row ↔
      values.map Value.type = schema.types ∧ row = ⟨values.map Value.clipped, none⟩ := by
  constructor
  · intro built
    unfold Schema.row at built
    split at built
    · next count =>
      split at built
      · contradiction
      · next accepted =>
        cases built
        exact ⟨map_type_of_firstClash (by simpa using count) accepted, rfl⟩
    · contradiction
  · rintro ⟨same, rfl⟩
    exact row_of_types same

theorem Schema.kept_row {schema : Schema} {values : List Value} {row : Row}
    (built : schema.row values = .ok row) : row.Kept := by
  obtain ⟨_, rfl⟩ := row_eq_ok_iff.mp built
  simp only [Row.Kept, List.mem_map]
  rintro _ ⟨value, _, rfl⟩
  exact value.kept_clipped

/-- The row has the types of a schema, and none of its texts is too long. -/
structure Row.Conforms (schema : Schema) (row : Row) : Prop where
  types : row.types = schema.types
  kept : row.Kept

theorem Row.Conforms.unstored {schema : Schema} {row : Row} (conforms : row.Conforms schema) :
    row.unstored.Conforms schema :=
  ⟨conforms.types, conforms.kept⟩

/-- The row was built for some schema, wherever it was put since. -/
def Row.Built (row : Row) : Prop :=
  ∃ (schema : Schema) (values : List Value), schema.row values = .ok row.unstored

theorem Row.Built.kept {row : Row} (built : row.Built) : row.Kept := by
  obtain ⟨_, _, made⟩ := built
  have kept : row.unstored.Kept := Schema.kept_row made
  exact kept

end RowStore
