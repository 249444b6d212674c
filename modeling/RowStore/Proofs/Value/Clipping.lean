import RowStore.Proofs.Text.Clip
import RowStore.Proofs.Value.Codec

namespace RowStore

/-! What is kept of a value, and where it is cut.

A value is cut when a row is built of it and when it is written. What is read is never cut,
so that it makes no difference how often a value was written, read or put in a row.
-/

variable {value other : Value} {buffer written : List UInt8}

/-- What is left of a text: its longest beginning of as many bytes as a row keeps, cut between two
characters. -/
structure KeptOf (text kept : String) : Prop where
  beginning : ∃ rest, text = kept ++ rest
  longest : IsGreatest {size | size ≤ textCapacity ∧ String.Pos.Raw.IsValid text ⟨size⟩} kept.utf8ByteSize
  /-- No room is left for a character of four bytes. -/
  full : textCapacity < text.utf8ByteSize → textCapacity < kept.utf8ByteSize + 4

theorem keptOf_clip (text : String) :
    KeptOf text (String.ofList (Text.clip textCapacity text.toList)) where
  beginning := by
    obtain ⟨rest, whole⟩ := Text.clip_isPrefix textCapacity text.toList
    refine ⟨String.ofList rest, ?_⟩
    rw [← String.ofList_append, whole, String.ofList_toList]
  longest := by
    rw [Text.utf8ByteSize_ofList]
    exact Text.isGreatest_clip textCapacity text
  full := by
    intro long
    rw [← String.ofList_toList (s := text), Text.utf8ByteSize_ofList] at long
    rw [Text.utf8ByteSize_ofList]
    exact Text.lt_byteCount_clip long

namespace Value

theorem encode_congr (same : other.clipped = value.clipped) : other.encode = value.encode := by
  rw [encode, encode, same]

theorem write?_eq_some_iff :
    value.write? buffer = some written ↔
      value.type.width ≤ buffer.length ∧ written = value.encode ++ buffer.drop value.type.width := by
  rw [write?]
  split
  · next fits => simp [fits, eq_comm]
  · next short => simp [short]

theorem take_of_write? (done : value.write? buffer = some written) :
    written.take value.type.width = value.encode := by
  obtain ⟨_, rfl⟩ := write?_eq_some_iff.mp done
  exact List.take_left' value.length_encode

/-- What becomes of a buffer that a value is written over. -/
structure Written (value : Value) (buffer written : List UInt8) : Prop where
  length : written.length = buffer.length
  untouched : written.drop value.type.width = buffer.drop value.type.width
  read : value.type.decode written = .ok value.clipped

theorem written_of_write? (done : value.write? buffer = some written) : Written value buffer written := by
  obtain ⟨fits, rfl⟩ := write?_eq_some_iff.mp done
  have same : value.clipped.encode = value.encode := encode_congr value.kept_clipped
  refine ⟨?_, List.drop_left' value.length_encode, ?_⟩
  · rw [List.length_append, value.length_encode, List.length_drop]
    omega
  · rw [← same]
    exact ColumnType.decode_encode value.type_clipped value.kept_clipped _

end Value

/-- How a value is written, what is kept of it, and that nothing is lost of one that was read. -/
structure FieldCodec (value : Value) : Prop where
  writes : ∀ buffer : List UInt8, value.type.width ≤ buffer.length →
    ∃ written, value.write? buffer = some written ∧ Value.Written value buffer written
  /-- The bytes are those of every value of which the same is kept, whatever was there before. -/
  bytes : ∀ (other : Value) (buffer stale written rewritten : List UInt8),
    other.clipped = value.clipped → value.write? buffer = some written →
      other.write? stale = some rewritten →
        rewritten.take value.type.width = written.take value.type.width
  number : ∀ number, value = .int number → value.clipped = .int number
  text : ∀ text, value = .text text → ∃ kept, value.clipped = .text kept ∧ KeptOf text kept
  again : value.clipped.clipped = value.clipped
  read : ∀ (type : ColumnType) (bytes : List UInt8), type.decode bytes = .ok value → value.clipped = value
  /-- Rows are built of values of the right types, and have one that was read as it was read. -/
  row : ∀ (type : ColumnType) (bytes : List UInt8), type.decode bytes = .ok value →
    ∀ (schema : Schema) (values : List Value),
      ((∃ row, schema.row values = .ok row) ↔ values.map Value.type = schema.types) ∧
        ∀ (row : Row) (index : Nat), schema.row values = .ok row → values[index]? = some value →
          row.values[index]? = some value

theorem fieldCodec_of_value (value : Value) : FieldCodec value where
  writes := fun buffer fits => by
    have done : value.write? buffer = some (value.encode ++ buffer.drop value.type.width) :=
      Value.write?_eq_some_iff.mpr ⟨fits, rfl⟩
    exact ⟨_, done, Value.written_of_write? done⟩
  bytes := fun other buffer stale written rewritten same done redone => by
    have type : other.type = value.type := by rw [← other.type_clipped, same, value.type_clipped]
    rw [Value.take_of_write? done, ← type, Value.take_of_write? redone, Value.encode_congr same]
  number := by
    rintro number rfl
    rfl
  text := by
    rintro text rfl
    exact ⟨_, rfl, keptOf_clip text⟩
  again := value.kept_clipped
  read := fun _ _ read => (ColumnType.type_of_decode read).2
  row := fun type bytes read schema values => by
    have kept : value.clipped = value := (ColumnType.type_of_decode read).2
    constructor
    · simp [Schema.row_eq_ok_iff]
    · intro row index built here
      obtain ⟨_, rfl⟩ := Schema.row_eq_ok_iff.mp built
      simp only [List.getElem?_map, here, Option.map_some, kept]

end RowStore
