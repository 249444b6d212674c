import RowStore.Error

namespace RowStore

/-! The bytes of a value.

A value of a type takes exactly the width of the type: an integer as four bytes,
low byte first; a text as the count of its bytes in four bytes, the bytes, and
zeros up to the capacity.
-/

def wordBytes (word : UInt32) : List UInt8 :=
  [UInt8.ofNat word.toNat, UInt8.ofNat (word.toNat / 256), UInt8.ofNat (word.toNat / 65536),
    UInt8.ofNat (word.toNat / 16777216)]

def wordOfBytes (b0 b1 b2 b3 : UInt8) : UInt32 :=
  UInt32.ofNat (b0.toNat + 256 * (b1.toNat + 256 * (b2.toNat + 256 * b3.toNat)))

/-- The word that the first four bytes hold, with the bytes after it. -/
def readWord? : List UInt8 → Option (UInt32 × List UInt8)
  | b0 :: b1 :: b2 :: b3 :: rest => some (wordOfBytes b0 b1 b2 b3, rest)
  | _ => none

def encodeText (chars : List Char) : List UInt8 :=
  let bytes := Text.encode chars
  wordBytes (UInt32.ofNat bytes.length) ++ bytes ++ List.replicate (textCapacity - bytes.length) 0

namespace Value

def encode (value : Value) : List UInt8 :=
  match value.clipped with
  | .int number => wordBytes number.toUInt32
  | .text string => encodeText string.toList

/-- Writes over the start of a buffer. A buffer that is too short is refused. -/
def write? (value : Value) (buffer : List UInt8) : Option (List UInt8) :=
  if value.type.width ≤ buffer.length then
    some (value.encode ++ buffer.drop value.type.width)
  else none

end Value

/-- Reads a text whose length word has been read. A length above the capacity counts as the
capacity. -/
def decodeText (length : UInt32) (rest : List UInt8) : Except StoreError Value :=
  let count := min length.toNat textCapacity
  if count ≤ rest.length then
    match Text.decode? (rest.take count) with
    | .ok chars => .ok (.text (String.ofList chars))
    | .error fault => .error (.typeMismatch (.encoding fault))
  else .error .indexOutOfRange

def ColumnType.decode (type : ColumnType) (bytes : List UInt8) : Except StoreError Value :=
  match readWord? bytes with
  | none => .error .indexOutOfRange
  | some (word, rest) =>
      match type with
      | .int => .ok (.int ⟨word⟩)
      | .text => decodeText word rest

theorem readWord?_wordBytes (word : UInt32) (rest : List UInt8) :
    readWord? (wordBytes word ++ rest) = some (word, rest) := by
  have bound := word.toNat_lt
  simp only [wordBytes, readWord?, wordOfBytes, List.cons_append, List.nil_append,
    UInt8.toNat_ofNat', Option.some.injEq, Prod.mk.injEq, and_true]
  apply UInt32.toNat_inj.mp
  rw [UInt32.toNat_ofNat']
  omega

theorem length_wordBytes (word : UInt32) : (wordBytes word).length = 4 := rfl

theorem length_encodeText {chars : List Char} (fits : Text.byteCount chars ≤ textCapacity) :
    (encodeText chars).length = ColumnType.text.width := by
  simp only [encodeText, List.length_append, length_wordBytes, List.length_replicate,
    Text.length_encode, ColumnType.width]
  omega

theorem Value.length_encode (value : Value) : value.encode.length = value.type.width := by
  cases value with
  | int number => rfl
  | text string =>
      simp only [Value.encode, Value.clipped, Value.type, String.toList_ofList]
      exact length_encodeText (Text.byteCount_clip_le _ _)

end RowStore
