import Mathlib.Data.Nat.Digits.Defs
import RowStore.Proofs.Page.Header

namespace RowStore

/-! Which bytes are a page.

Every byte sequence is read as a page, of whatever length it is and for whatever
schema, unless a used slot has a text that is not UTF-8. Slots, and columns within
them, stand where the layout puts them, which is always inside the page; whatever
else the bytes hold is not looked at.
-/

open ColumnType (rowWidth)

variable {types : List ColumnType} {type : ColumnType} {bytes other : List UInt8}

/-! ## Where things stand -/

/-- The byte at which a slot begins. -/
def slotStart (size width slot : Nat) : Nat := headerSize (slotCount size width) + slot * width

/-- The byte at which a column of a slot begins. -/
def fieldStart (schema : Schema) (size slot index : Nat) : Nat :=
  slotStart size schema.rowWidth slot + rowWidth (schema.types.take index)

/-- How long a stored text says it is: four bytes, low byte first. -/
def textLength (field : List UInt8) : Nat := Nat.ofDigits 256 ((field.take 4).map UInt8.toNat)

/-- The bytes of a stored text: as many as it says, up to as many as it can have. -/
def textBytes (field : List UInt8) : List UInt8 :=
  (field.drop 4).take (min (textLength field) textCapacity)

/-- A column that begins with these bytes should hold a text and does not. -/
def Garbled (type : ColumnType) (field : List UInt8) : Prop :=
  type = .text ∧ ¬ (textBytes field).toByteArray.IsValidUTF8

/-- Some column of a row that begins with these bytes is garbled. -/
def GarbledRow (types : List ColumnType) (row : List UInt8) : Prop :=
  ∃ index type, types[index]? = some type ∧ Garbled type (row.drop (rowWidth (types.take index)))

theorem garbledRow_cons :
    GarbledRow (type :: types) bytes ↔ Garbled type bytes ∨ GarbledRow types (bytes.drop type.width) := by
  constructor
  · rintro ⟨index, found, here, garbled⟩
    cases index with
    | zero =>
        cases here
        exact .inl garbled
    | succ index =>
        refine .inr ⟨index, found, here, ?_⟩
        rwa [List.take_succ_cons, rowWidth, ← List.drop_drop] at garbled
  · rintro (garbled | ⟨index, found, here, garbled⟩)
    · exact ⟨0, type, rfl, garbled⟩
    · refine ⟨index + 1, found, here, ?_⟩
      rwa [List.take_succ_cons, rowWidth, ← List.drop_drop]

theorem rowWidth_take_add_le {index : Nat} (here : types[index]? = some type) :
    rowWidth (types.take index) + type.width ≤ rowWidth types := by
  induction types generalizing index with
  | nil => simp at here
  | cons first types ih =>
      cases index with
      | zero =>
          cases here
          simp [rowWidth]
      | succ index =>
          have inner := ih here
          simp only [List.take_succ_cons, rowWidth]
          omega

/-! ## Reading them -/

/-- A reading that gives something, or is refused since a text is not UTF-8, and is refused just
if it is `garbled`. -/
inductive Decodes {α : Type} (garbled : Prop) : Except StoreError α → Prop where
  | clean (value : α) (none : ¬ garbled) : Decodes garbled (.ok value)
  | refused (fault : Text.Utf8Fault) (found : garbled) : Decodes garbled (.error (.typeMismatch (.encoding fault)))

theorem Decodes.congr {α : Type} {garbled same : Prop} {result : Except StoreError α}
    (decodes : Decodes garbled result) (iff : same ↔ garbled) : Decodes same result := by
  rwa [propext iff]

theorem Decodes.error_iff {α : Type} {garbled : Prop} {result : Except StoreError α}
    (decodes : Decodes garbled result) : (∃ error, result = .error error) ↔ garbled := by
  cases decodes with
  | clean value none => simp [none]
  | refused fault found => simp [found]

theorem Decodes.of_map {α β : Type} {garbled : Prop} {result : Except StoreError α} {f : α → β}
    (decodes : Decodes garbled (result.map f)) : Decodes garbled result := by
  cases result with
  | ok value =>
      cases decodes with
      | clean _ none => exact .clean value none
  | error error =>
      cases decodes with
      | refused fault found => exact .refused fault found

theorem Decodes.cons {α : Type} {garbled later : Prop} {first : Except StoreError α}
    {others : Except StoreError (List α)} (head : Decodes garbled first) (tail : Decodes later others) :
    Decodes (garbled ∨ later) (first.bind fun value => others.map (value :: ·)) := by
  cases head with
  | refused fault found => exact .refused fault (.inl found)
  | clean value none =>
      cases tail with
      | refused fault found => exact .refused fault (.inr found)
      | clean values noneLater => exact .clean _ (not_or.mpr ⟨none, noneLater⟩)

theorem exists_cons_four (enough : 4 ≤ bytes.length) :
    ∃ b0 b1 b2 b3 rest, bytes = b0 :: b1 :: b2 :: b3 :: rest := by
  match bytes, enough with
  | b0 :: b1 :: b2 :: b3 :: rest, _ => exact ⟨b0, b1, b2, b3, rest, rfl⟩

theorem textLength_cons (b0 b1 b2 b3 : UInt8) (rest : List UInt8) :
    textLength (b0 :: b1 :: b2 :: b3 :: rest) = (wordOfBytes b0 b1 b2 b3).toNat := by
  have first := b0.toNat_lt
  have second := b1.toNat_lt
  have third := b2.toNat_lt
  have fourth := b3.toNat_lt
  simp only [textLength, List.take_succ_cons, List.take_zero, List.map_cons, List.map_nil,
    Nat.ofDigits_cons, Nat.ofDigits_nil, wordOfBytes, UInt32.toNat_ofNat']
  omega

theorem ColumnType.decodes (enough : type.width ≤ bytes.length) :
    Decodes (Garbled type bytes) (type.decode bytes) := by
  have four : 4 ≤ bytes.length := by
    cases type <;> simp only [ColumnType.width] at enough <;> omega
  obtain ⟨b0, b1, b2, b3, rest, rfl⟩ := exists_cons_four four
  cases type with
  | int => exact .clean _ (by simp [Garbled])
  | text =>
      have room : min (wordOfBytes b0 b1 b2 b3).toNat textCapacity ≤ rest.length := by
        simp only [ColumnType.width, List.length_cons] at enough
        omega
      have text : textBytes (b0 :: b1 :: b2 :: b3 :: rest) =
          rest.take (min (wordOfBytes b0 b1 b2 b3).toNat textCapacity) := by
        rw [textBytes, textLength_cons]
        rfl
      simp only [Garbled, text, ColumnType.decode, readWord?, decodeText, if_pos room, true_and,
        ← Text.decode?_isOk_iff]
      cases Text.decode? (rest.take (min (wordOfBytes b0 b1 b2 b3).toNat textCapacity)) with
      | ok chars => exact .clean _ (by simp)
      | error fault => exact .refused fault (by simp)

theorem decodeValues_cons :
    decodeValues (type :: types) bytes =
      (type.decode bytes).bind fun value => (decodeValues types (bytes.drop type.width)).map (value :: ·) := by
  rw [decodeValues]
  cases type.decode bytes with
  | error => rfl
  | ok => cases decodeValues types (bytes.drop type.width) <;> rfl

theorem decodes_values (enough : rowWidth types ≤ bytes.length) :
    Decodes (GarbledRow types bytes) (decodeValues types bytes) := by
  induction types generalizing bytes with
  | nil => exact .clean _ (by simp [GarbledRow])
  | cons type types ih =>
      rw [rowWidth] at enough
      -- What follows the first column is a row of the other types.
      have first := @ColumnType.decodes type bytes (by omega)
      have others := @ih (bytes.drop type.width) (by rw [List.length_drop]; omega)
      rw [decodeValues_cons]
      exact (first.cons others).congr garbledRow_cons

/-- Some slot that is used has a garbled row. -/
def GarbledSlots (types : List ColumnType) (used : List Bool) (bytes : List UInt8) : Prop :=
  ∃ slot, used[slot]? = some true ∧ GarbledRow types (bytes.drop (slot * rowWidth types))

theorem garbledSlots_cons {bit : Bool} {used : List Bool} :
    GarbledSlots types (bit :: used) bytes ↔
      (bit = true ∧ GarbledRow types bytes) ∨ GarbledSlots types used (bytes.drop (rowWidth types)) := by
  constructor
  · rintro ⟨slot, marked, garbled⟩
    cases slot with
    | zero =>
        rw [Nat.zero_mul, List.drop_zero] at garbled
        exact .inl ⟨by simpa using marked, garbled⟩
    | succ slot =>
        refine .inr ⟨slot, marked, ?_⟩
        rwa [Nat.succ_mul, Nat.add_comm, ← List.drop_drop] at garbled
  · rintro (⟨rfl, garbled⟩ | ⟨slot, marked, garbled⟩)
    · exact ⟨0, rfl, by rwa [Nat.zero_mul, List.drop_zero]⟩
    · refine ⟨slot + 1, marked, ?_⟩
      rwa [Nat.succ_mul, Nat.add_comm, ← List.drop_drop]

theorem decodeSlots_cons {width : Nat} {bit : Bool} {used : List Bool} :
    decodeSlots types width (bit :: used) bytes =
      (if bit then (decodeValues types bytes).map some else .ok none).bind fun slot =>
        (decodeSlots types width used (bytes.drop width)).map (slot :: ·) := by
  rw [decodeSlots]
  cases (if bit then (decodeValues types bytes).map some else .ok none) with
  | error => rfl
  | ok => cases decodeSlots types width used (bytes.drop width) <;> rfl

theorem decodes_slots {used : List Bool} (enough : used.length * rowWidth types ≤ bytes.length) :
    Decodes (GarbledSlots types used bytes) (decodeSlots types (rowWidth types) used bytes) := by
  induction used generalizing bytes with
  | nil => exact .clean _ (by simp [GarbledSlots])
  | cons bit used ih =>
      rw [List.length_cons, Nat.succ_mul] at enough
      have others := @ih (bytes.drop (rowWidth types)) (by rw [List.length_drop]; omega)
      have first : Decodes (bit = true ∧ GarbledRow types bytes)
          (if bit then (decodeValues types bytes).map some else .ok none) := by
        cases bit with
        | false => exact .clean _ (by simp)
        | true =>
            rw [if_pos rfl]
            have row := @decodes_values types bytes (by omega)
            generalize decodeValues types bytes = values at row
            cases row with
            | clean values none => exact .clean _ (by simp [none])
            | refused fault found => exact .refused fault ⟨rfl, found⟩
      rw [decodeSlots_cons]
      exact (first.cons others).congr garbledSlots_cons

/-! ## What is not looked at -/

theorem ColumnType.decode_take {count : Nat} (wide : type.width ≤ count) (enough : type.width ≤ bytes.length) :
    type.decode (bytes.take count) = type.decode bytes := by
  have four : 4 ≤ type.width := by
    cases type <;> simp [ColumnType.width]
  obtain ⟨b0, b1, b2, b3, rest, rfl⟩ := exists_cons_four (Nat.le_trans four enough)
  obtain ⟨count, rfl⟩ := Nat.exists_eq_add_of_le' (Nat.le_trans four wide)
  cases type with
  | int => rfl
  | text =>
      simp only [ColumnType.width, List.length_cons] at wide enough
      simp only [List.take_succ_cons, ColumnType.decode, readWord?, decodeText, List.length_take,
        List.take_take]
      rw [if_pos (by omega), if_pos (by omega), Nat.min_eq_left (by omega)]

theorem decodeValues_take (enough : rowWidth types ≤ bytes.length) :
    decodeValues types (bytes.take (rowWidth types)) = decodeValues types bytes := by
  induction types generalizing bytes with
  | nil => rfl
  | cons type types ih =>
      rw [rowWidth] at enough ⊢
      have others := @ih (bytes.drop type.width) (by rw [List.length_drop]; omega)
      rw [decodeValues, decodeValues, ColumnType.decode_take (by omega) (by omega), List.drop_take,
        Nat.add_sub_cancel_left, others]

/-- Rows are read from the bytes of the slots that are used, and from nothing else. -/
theorem decodeSlots_congr {used : List Bool} (enough : used.length * rowWidth types ≤ bytes.length)
    (enoughOther : used.length * rowWidth types ≤ other.length)
    (same : ∀ slot, used[slot]? = some true →
      (other.drop (slot * rowWidth types)).take (rowWidth types) =
        (bytes.drop (slot * rowWidth types)).take (rowWidth types)) :
    decodeSlots types (rowWidth types) used other = decodeSlots types (rowWidth types) used bytes := by
  induction used generalizing bytes other with
  | nil => rfl
  | cons bit used ih =>
      rw [List.length_cons, Nat.succ_mul] at enough enoughOther
      have others := @ih (bytes.drop (rowWidth types)) (other.drop (rowWidth types))
        (by rw [List.length_drop]; omega) (by rw [List.length_drop]; omega) fun slot marked => by
          have next := same (slot + 1) marked
          rwa [Nat.succ_mul, Nat.add_comm, ← List.drop_drop, ← List.drop_drop] at next
      have first : (if bit then (decodeValues types other).map some else .ok none) =
          if bit then (decodeValues types bytes).map some else .ok none := by
        cases bit with
        | false => rfl
        | true =>
            -- The bytes of the slots agree, the bytes after them need not.
            have here := same 0 rfl
            rw [Nat.zero_mul, List.drop_zero, List.drop_zero] at here
            rw [← @decodeValues_take types other (by omega), here, decodeValues_take (by omega)]
      rw [decodeSlots, decodeSlots, first, others]

namespace Page

variable {id : PageId} {schema : Schema} {size : Nat} {data image : List UInt8}

/-- A text of a used slot is not UTF-8. -/
structure GarbledAt (schema : Schema) (size : Nat) (image : List UInt8) (slot index : Nat) : Prop where
  inside : slot < slotCount size schema.rowWidth
  used : headerBit image slot
  text : schema.types[index]? = some .text
  garbled : ¬ (textBytes (image.drop (fieldStart schema size slot index))).toByteArray.IsValidUTF8

/-- The images mark the same slots as used, and hold the same bytes there. -/
structure SameRows (schema : Schema) (size : Nat) (image other : List UInt8) : Prop where
  used : ∀ slot, slot < slotCount size schema.rowWidth → headerBit other slot = headerBit image slot
  bytes : ∀ slot, slot < slotCount size schema.rowWidth → headerBit image slot →
    (other.drop (slotStart size schema.rowWidth slot)).take schema.rowWidth =
      (image.drop (slotStart size schema.rowWidth slot)).take schema.rowWidth

def usedBits (schema : Schema) (size : Nat) (image : List UInt8) : List Bool :=
  (List.range (slotCount size schema.rowWidth)).map (headerBit image)

@[simp] theorem length_usedBits : (usedBits schema size image).length = slotCount size schema.rowWidth := by
  rw [usedBits, List.length_map, List.length_range]

theorem getElem?_usedBits_eq_true {slot : Nat} :
    (usedBits schema size image)[slot]? = some true ↔
      slot < slotCount size schema.rowWidth ∧ headerBit image slot := by
  rw [usedBits, List.getElem?_map]
  by_cases inside : slot < slotCount size schema.rowWidth <;> simp [inside]

theorem take_header_eq (whole : image.length = size) :
    (bitsOfBytes (image.take (headerSize (slotCount size schema.rowWidth)))).take
      (slotCount size schema.rowWidth) = usedBits schema size image := by
  have covered := le_headerSize (slotCount size schema.rowWidth)
  have room := header_and_slots_fit size schema.rowWidth
  rw [take_bitsOfBytes (by rw [List.length_take]; omega), usedBits]
  refine List.map_congr_left fun slot listed => headerBit_take ?_
  have inside := List.mem_range.mp listed
  omega

theorem garbledSlots_iff :
    GarbledSlots schema.types (usedBits schema size image)
        (image.drop (headerSize (slotCount size schema.rowWidth))) ↔
      ∃ slot index, GarbledAt schema size image slot index := by
  constructor
  · rintro ⟨slot, marked, index, _, text, rfl, garbled⟩
    obtain ⟨inside, used⟩ := getElem?_usedBits_eq_true.mp marked
    rw [List.drop_drop, List.drop_drop, ← Nat.add_assoc] at garbled
    exact ⟨slot, index, inside, used, text, garbled⟩
  · rintro ⟨slot, index, inside, used, text, garbled⟩
    refine ⟨slot, getElem?_usedBits_eq_true.mpr ⟨inside, used⟩, index, _, text, rfl, ?_⟩
    rwa [List.drop_drop, List.drop_drop, ← Nat.add_assoc]

theorem map_slots_decode :
    (decode id schema size data).map slots =
      decodeSlots schema.types schema.rowWidth (usedBits schema size (fitBytes size data))
        ((fitBytes size data).drop (headerSize (slotCount size schema.rowWidth))) := by
  simp only [decode, take_header_eq (length_fitBytes size data)]
  split
  · next failed => rw [failed]; rfl
  · next read => rw [read]; rfl

theorem length_usedBits_mul_le (whole : image.length = size) :
    (usedBits schema size image).length * schema.rowWidth ≤
      (image.drop (headerSize (slotCount size schema.rowWidth))).length := by
  have room := header_and_slots_fit size schema.rowWidth
  rw [length_usedBits, List.length_drop, whole]
  omega

theorem decodes_page :
    Decodes (∃ slot index, GarbledAt schema size (fitBytes size data) slot index)
      (decode id schema size data) := by
  have decodes := @decodes_slots schema.types
    ((fitBytes size data).drop (headerSize (slotCount size schema.rowWidth))) _
    (length_usedBits_mul_le (length_fitBytes size data))
  -- What a page has beside its slots does not decide whether it can be read.
  have slots : (decode id schema size data).map slots = decodeSlots schema.types (rowWidth schema.types)
      (usedBits schema size (fitBytes size data)) _ := map_slots_decode
  rw [← slots] at decodes
  exact decodes.of_map.congr garbledSlots_iff.symm

theorem fieldStart_add_le {slot index : Nat} {type : ColumnType}
    (inside : slot < slotCount size schema.rowWidth) (column : schema.types[index]? = some type) :
    fieldStart schema size slot index + type.width ≤ size := by
  have room := header_and_slots_fit size schema.rowWidth
  have row : (slot + 1) * schema.rowWidth ≤ slotCount size schema.rowWidth * schema.rowWidth :=
    Nat.mul_le_mul_right _ inside
  have within : rowWidth (schema.types.take index) + type.width ≤ schema.rowWidth :=
    rowWidth_take_add_le column
  rw [Nat.succ_mul] at row
  rw [fieldStart, slotStart]
  omega

theorem SameRows.map_slots {other : List UInt8}
    (same : SameRows schema size (fitBytes size data) (fitBytes size other)) :
    (decode id schema size other).map slots = (decode id schema size data).map slots := by
  have used : usedBits schema size (fitBytes size other) = usedBits schema size (fitBytes size data) :=
    List.map_congr_left fun slot listed => same.used slot (List.mem_range.mp listed)
  have enough := @length_usedBits_mul_le schema _ _ (length_fitBytes size other)
  rw [used] at enough
  rw [map_slots_decode, map_slots_decode, used]
  refine decodeSlots_congr (length_usedBits_mul_le (length_fitBytes size data)) enough fun slot marked => ?_
  obtain ⟨inside, used⟩ := getElem?_usedBits_eq_true.mp marked
  rw [List.drop_drop, List.drop_drop]
  exact same.bytes slot inside used

/-- What becomes of bytes that are read as a page. -/
structure Acceptance (id : PageId) (schema : Schema) (size : Nat) (data : List UInt8) : Prop where
  header : headerSize (slotCount size schema.rowWidth) ≤ size
  /-- Every column of every slot has its bytes within the page. -/
  fields : ∀ slot, slot < slotCount size schema.rowWidth → ∀ index type,
    schema.types[index]? = some type → fieldStart schema size slot index + type.width ≤ size
  /-- Nothing can go wrong but that a text is not UTF-8. -/
  total : (∃ page, decode id schema size data = .ok page) ∨
    ∃ fault, decode id schema size data = .error (.typeMismatch (.encoding fault))
  /-- It does go wrong just if a text of a used slot is not UTF-8. -/
  refused : (∃ error, decode id schema size data = .error error) ↔
    ∃ slot index, GarbledAt schema size (fitBytes size data) slot index
  /-- The answer depends on the used slots only. -/
  unread : ∀ other, SameRows schema size (fitBytes size data) (fitBytes size other) →
    (decode id schema size other).map slots = (decode id schema size data).map slots
  short : data.length ≤ size →
    decode id schema size (data ++ List.replicate (size - data.length) 0) = decode id schema size data
  long : size ≤ data.length → decode id schema size (data.take size) = decode id schema size data

/-- All bytes are read as a page, but for those with a text in a used slot that is not UTF-8. -/
theorem acceptance_of_bytes (id : PageId) (schema : Schema) (size : Nat) (data : List UInt8) :
    Acceptance id schema size data where
  header := Nat.le_trans (Nat.le_add_right _ _) (header_and_slots_fit size schema.rowWidth)
  fields := fun _ inside _ _ column => fieldStart_add_le inside column
  total := by
    have decodes := @decodes_page id schema size data
    cases result : decode id schema size data with
    | ok page => exact .inl ⟨page, rfl⟩
    | error error =>
        rw [result] at decodes
        cases decodes with
        | refused fault _ => exact .inr ⟨fault, rfl⟩
  refused := decodes_page.error_iff
  unread := fun _ same => same.map_slots
  short := fun short => by rw [← fitBytes_of_le short, decode_fitBytes]
  long := fun long => by
    rw [← decode_fitBytes id schema size data, fitBytes, Nat.sub_eq_zero_of_le long, List.replicate_zero,
      List.append_nil]

set_option maxRecDepth 1024 in
/-- The same text that is not UTF-8, in a slot that is used and in one that is not. -/
example :
    (decode ⟨1, 0⟩ (.ofTypes [.text]) 133 [1, 1, 0, 0, 0, 0xFF]).map slots =
        .error (.typeMismatch (.encoding (.invalid 0 1))) ∧
      (decode ⟨1, 0⟩ (.ofTypes [.text]) 133 [0, 1, 0, 0, 0, 0xFF]).map slots = .ok [none] :=
  ⟨rfl, rfl⟩

end Page

end RowStore
