import Mathlib.Algebra.Order.Floor.Div
import Mathlib.Data.Set.Pairwise.Basic
import Mathlib.GroupTheory.GroupAction.Ring
import Mathlib.Order.CompletePartialOrder
import Mathlib.Order.Interval.Set.Disjoint
import RowStore.Proofs.Page.Acceptance
import RowStore.Proofs.Page.History
import RowStore.Proofs.TableFile
import RowStore.Proofs.Value.Clipping

namespace RowStore

/-! How a page is laid out.

A page has as many slots as there is room for beside their bits. The header and the columns
of the slots have bytes of their own. So the image of a page can be made in place, one value
after the other, and no value is written over another or over the header.
-/

open ColumnType (rowWidth)

variable {value : Value} {values : List Value} {types : List ColumnType} {data front : List UInt8}
variable {slots : List (Option (List Value))}

/-! ## Values that are written in place -/

/-- Writes a value over the bytes from a place on. -/
def Value.writeAt? (value : Value) (start : Nat) (data : List UInt8) : Option (List UInt8) :=
  (value.write? (data.drop start)).map (data.take start ++ ·)

theorem Value.writeAt?_of_le {start : Nat} (room : start + value.type.width ≤ data.length) :
    value.writeAt? start data = some (Disk.overwrite data start value.encode) := by
  have fits : value.type.width ≤ (data.drop start).length := by
    rw [List.length_drop]
    omega
  have held : start - data.length = 0 := by omega
  simp only [writeAt?, write?, if_pos fits, Option.map_some, Disk.overwrite, held, List.replicate_zero,
    List.append_nil, List.append_assoc, List.drop_drop, value.length_encode]

theorem Value.writeAt?_append (value : Value) (front : List UInt8) (room : Nat) :
    value.writeAt? front.length (front ++ List.replicate (value.type.width + room) 0) =
      some (front ++ value.encode ++ List.replicate room 0) := by
  simp only [writeAt?, write?, List.drop_left, List.take_left, List.length_replicate]
  rw [if_pos (Nat.le_add_right _ _), List.drop_replicate, Nat.add_sub_cancel_left, Option.map_some,
    List.append_assoc]

/-- Writes values one after the other, each at its place. -/
def writeEach : List (Nat × Value) → List UInt8 → Option (List UInt8)
  | [], data => some data
  | (start, value) :: rest, data => (value.writeAt? start data).bind (writeEach rest)

theorem writeEach_append (first second : List (Nat × Value)) (data : List UInt8) :
    writeEach (first ++ second) data = (writeEach first data).bind (writeEach second) := by
  induction first generalizing data with
  | nil => rfl
  | cons head rest ih =>
      obtain ⟨start, value⟩ := head
      simp only [List.cons_append, writeEach]
      cases value.writeAt? start data with
      | none => rfl
      | some data => exact ih data

def rowPlaces (place : Nat → Nat) (values : List Value) : List (Nat × Value) :=
  values.zipIdx.map fun (value, index) => (place index, value)

def slotPlaces (place : Nat → Nat → Nat) (slots : List (Option (List Value))) : List (Nat × Value) :=
  slots.zipIdx.flatMap fun (held, slot) => rowPlaces (place slot) (held.getD [])

theorem rowPlaces_cons (place : Nat → Nat) (value : Value) (values : List Value) :
    rowPlaces place (value :: values) = (place 0, value) :: rowPlaces (fun index => place (index + 1)) values := by
  simp only [rowPlaces, List.zipIdx_cons, List.zipIdx_succ, List.map_cons, List.map_map]
  rfl

theorem slotPlaces_cons (place : Nat → Nat → Nat) (held : Option (List Value))
    (slots : List (Option (List Value))) :
    slotPlaces place (held :: slots) =
      rowPlaces (place 0) (held.getD []) ++ slotPlaces (fun slot => place (slot + 1)) slots := by
  simp only [slotPlaces, List.zipIdx_cons, List.zipIdx_succ, List.flatMap_cons, List.flatMap_map]

theorem writeEach_row {place : Nat → Nat} (fits : values.map Value.type = types)
    (places : ∀ index, place index = front.length + rowWidth (types.take index)) (room : Nat) :
    writeEach (rowPlaces place values) (front ++ List.replicate (rowWidth types + room) 0) =
      some (front ++ values.flatMap Value.encode ++ List.replicate room 0) := by
  induction values generalizing types front place with
  | nil =>
      subst fits
      simp [rowPlaces, writeEach, rowWidth]
  | cons value values ih =>
      subst fits
      have here : place 0 = front.length := places 0
      have next : ∀ index, place (index + 1) =
          (front ++ value.encode).length + rowWidth ((values.map Value.type).take index) := by
        intro index
        rw [places, List.map_cons, List.take_succ_cons, rowWidth, List.length_append, value.length_encode,
          Nat.add_assoc]
      rw [rowPlaces_cons, writeEach, here, List.map_cons, rowWidth, Nat.add_assoc, value.writeAt?_append,
        Option.bind_some, ih rfl next, List.flatMap_cons, ← List.append_assoc]

theorem writeEach_slots {place : Nat → Nat → Nat} (fits : ∀ held ∈ slots, SlotFits types held)
    (places : ∀ slot index, place slot index =
      front.length + slot * rowWidth types + rowWidth (types.take index)) (room : Nat) :
    writeEach (slotPlaces place slots) (front ++ List.replicate (slots.length * rowWidth types + room) 0) =
      some (front ++ slots.flatMap (Page.slotBytes (rowWidth types)) ++ List.replicate room 0) := by
  induction slots generalizing front place with
  | nil => simp [slotPlaces, writeEach]
  | cons held slots ih =>
      obtain ⟨first, others⟩ := List.forall_mem_cons.mp fits
      have length := Page.length_slotBytes first rfl
      have next : ∀ slot index, place (slot + 1) index =
          (front ++ Page.slotBytes (rowWidth types) held).length + slot * rowWidth types +
            rowWidth (types.take index) := by
        intro slot index
        rw [places, List.length_append, length, Nat.succ_mul]
        omega
      have row : writeEach (rowPlaces (place 0) (held.getD []))
          (front ++ List.replicate (rowWidth types + (slots.length * rowWidth types + room)) 0) =
          some (front ++ Page.slotBytes (rowWidth types) held ++
            List.replicate (slots.length * rowWidth types + room) 0) := by
        cases held with
        | none =>
            rw [Page.slotBytes, List.replicate_add, ← List.append_assoc]
            rfl
        | some values =>
            have here : ∀ index, place 0 index = front.length + rowWidth (types.take index) := by
              intro index
              rw [places, Nat.zero_mul, Nat.add_zero]
            exact writeEach_row (first values rfl).1 here _
      have total : (held :: slots).length * rowWidth types + room =
          rowWidth types + (slots.length * rowWidth types + room) := by
        rw [List.length_cons, Nat.succ_mul]
        omega
      rw [slotPlaces_cons, writeEach_append, total, row, Option.bind_some, ih others next,
        List.flatMap_cons, ← List.append_assoc]

/-! ## Slots and their bits -/

theorem headerSize_eq_ceilDiv (count : Nat) : headerSize count = count ⌈/⌉ 8 :=
  (Nat.ceilDiv_eq_add_pred_div count 8).symm

theorem le_slotCount_iff {size width count : Nat} :
    count ≤ slotCount size width ↔ headerSize count + count * width ≤ size := by
  have total : count * (width * 8 + 1) = count * width * 8 + count := by
    rw [Nat.mul_add, Nat.mul_one, Nat.mul_assoc]
  rw [slotCount, Nat.le_div_iff_mul_le (Nat.succ_pos _), total, headerSize]
  omega

theorem isGreatest_slotCount (size width : Nat) :
    IsGreatest {count | count ⌈/⌉ 8 + count * width ≤ size} (slotCount size width) := by
  constructor
  · have room := header_and_slots_fit size width
    rw [headerSize_eq_ceilDiv] at room
    exact room
  · intro count fits
    apply le_slotCount_iff.mpr
    rw [headerSize_eq_ceilDiv]
    exact fits

/-- Rows of eight bytes, and rows that take nothing but a bit. -/
example : slotCount 32 8 = 3 ∧ slotCount 4096 8 = 504 ∧ slotCount 32 0 = 256 := by decide

namespace Page

variable {page : Page} {schema : Schema} {size slot index later other : Nat} {type : ColumnType}

/-! ## The parts of a page -/

/-- What is written by itself: the header, or a column of a slot. -/
inductive Part where
  | header
  | field (slot index : Nat)

namespace Part

def start (schema : Schema) (size : Nat) : Part → Nat
  | header => 0
  | field slot index => fieldStart schema size slot index

def width (schema : Schema) (size : Nat) : Part → Nat
  | header => headerSize (slotCount size schema.rowWidth)
  | field _ index => schema.types[index]?.elim 0 ColumnType.width

def bytes (schema : Schema) (size : Nat) (part : Part) : Set Nat :=
  Set.Ico (part.start schema size) (part.start schema size + part.width schema size)

end Part

def parts (schema : Schema) (size : Nat) : Set Part :=
  {part | ∀ slot index, part = .field slot index → slot < slotCount size schema.rowWidth ∧ index < schema.size}

theorem field_mem_parts (inside : slot < slotCount size schema.rowWidth)
    (column : schema.types[index]? = some type) : Part.field slot index ∈ parts schema size := by
  rintro _ _ ⟨rfl, rfl⟩
  refine ⟨inside, ?_⟩
  rw [← Schema.length_types]
  exact (List.getElem?_eq_some_iff.mp column).1

theorem width_field (column : schema.types[index]? = some type) :
    (Part.field slot index).width schema size = type.width := by
  rw [Part.width, column, Option.elim_some]

theorem column_exists (inside : index < schema.size) : ∃ type, schema.types[index]? = some type := by
  rw [← Schema.length_types] at inside
  exact ⟨_, List.getElem?_eq_getElem inside⟩

/-- Fields stand in the order of their slots, and in a slot in the order of its columns. -/
theorem field_end_le (column : schema.types[index]? = some type)
    (before : slot < other ∨ slot = other ∧ index < later) :
    fieldStart schema size slot index + type.width ≤ fieldStart schema size other later := by
  rw [fieldStart, fieldStart, slotStart, slotStart]
  rcases before with earlier | ⟨rfl, earlier⟩
  · have within : rowWidth (schema.types.take index) + type.width ≤ schema.rowWidth :=
      rowWidth_take_add_le column
    have rows : (slot + 1) * schema.rowWidth ≤ other * schema.rowWidth := Nat.mul_le_mul_right _ earlier
    rw [Nat.succ_mul] at rows
    omega
  · have taken : (schema.types.take later)[index]? = some type := by
      rw [List.getElem?_take_of_lt earlier, column]
    have within := rowWidth_take_add_le taken
    rw [List.take_take, Nat.min_eq_left (Nat.le_of_lt earlier)] at within
    omega

theorem disjoint_of_le {part next : Part}
    (before : part.start schema size + part.width schema size ≤ next.start schema size) :
    Disjoint (part.bytes schema size) (next.bytes schema size) := by
  rw [Part.bytes, Part.bytes, Set.Ico_disjoint_Ico]
  omega

theorem disjoint_header (slot index : Nat) :
    Disjoint (Part.header.bytes schema size) ((Part.field slot index).bytes schema size) := by
  apply disjoint_of_le
  rw [Part.start, Part.width, Part.start, fieldStart, slotStart]
  omega

theorem disjoint_fields (column : schema.types[index]? = some type)
    (before : slot < other ∨ slot = other ∧ index < later) :
    Disjoint ((Part.field slot index).bytes schema size) ((Part.field other later).bytes schema size) := by
  apply disjoint_of_le
  rw [width_field column]
  exact field_end_le column before

theorem pairwiseDisjoint_parts (schema : Schema) (size : Nat) :
    (parts schema size).PairwiseDisjoint (Part.bytes schema size) := by
  intro part listed next nextListed differs
  cases part with
  | header =>
      cases next with
      | header => contradiction
      | field other later => exact disjoint_header other later
  | field slot index =>
      cases next with
      | header => exact (disjoint_header slot index).symm
      | field other later =>
          obtain ⟨type, column⟩ := column_exists (listed slot index rfl).2
          obtain ⟨laterType, laterColumn⟩ := column_exists (nextListed other later rfl).2
          rcases Nat.lt_trichotomy slot other with before | rfl | after
          · exact disjoint_fields column (Or.inl before)
          · rcases Nat.lt_trichotomy index later with before | rfl | after
            · exact disjoint_fields column (Or.inr ⟨rfl, before⟩)
            · contradiction
            · exact (disjoint_fields laterColumn (Or.inr ⟨rfl, after⟩)).symm
          · exact (disjoint_fields laterColumn (Or.inl after)).symm

theorem bytes_subset {part : Part} (listed : part ∈ parts schema size) :
    part.bytes schema size ⊆ Set.Iio size := by
  intro position covered
  rw [Part.bytes, Set.mem_Ico] at covered
  rw [Set.mem_Iio]
  cases part with
  | header =>
      have room := header_and_slots_fit size schema.rowWidth
      rw [Part.start, Part.width] at covered
      omega
  | field slot index =>
      obtain ⟨inside, held⟩ := listed slot index rfl
      obtain ⟨type, column⟩ := column_exists held
      have room := fieldStart_add_le inside column
      rw [width_field column, Part.start] at covered
      omega

/-! ## Writing a page -/

/-- What a value changes that is written to a column of a slot. -/
structure FieldWrite (schema : Schema) (size slot index : Nat) (value : Value)
    (data after : List UInt8) : Prop where
  length : after.length = data.length
  field : (after.drop (fieldStart schema size slot index)).take value.type.width = value.encode
  header : ∀ bit, bit / 8 < headerSize (slotCount size schema.rowWidth) → headerBit after bit = headerBit data bit
  others : ∀ part ∈ parts schema size, part ≠ .field slot index →
    ∀ position ∈ part.bytes schema size, after[position]? = data[position]?

theorem fieldWrite_exists (inside : slot < slotCount size schema.rowWidth)
    (column : schema.types[index]? = some value.type) (whole : data.length = size) :
    ∃ after, value.writeAt? (fieldStart schema size slot index) data = some after ∧
      FieldWrite schema size slot index value data after := by
  have room : fieldStart schema size slot index + value.type.width ≤ data.length := by
    rw [whole]
    exact fieldStart_add_le inside column
  have fits : fieldStart schema size slot index + value.encode.length ≤ data.length := by
    rwa [value.length_encode]
  have others : ∀ part ∈ parts schema size, part ≠ .field slot index → ∀ position ∈ part.bytes schema size,
      (Disk.overwrite data (fieldStart schema size slot index) value.encode)[position]? = data[position]? := by
    intro part listed differs position covered
    have apart := pairwiseDisjoint_parts schema size (field_mem_parts inside column) listed differs.symm
    have outside : position ∉ (Part.field slot index).bytes schema size :=
      fun here => Set.disjoint_left.mp apart here covered
    rw [Part.bytes, width_field column, Part.start, Set.mem_Ico] at outside
    rw [Disk.getElem?_overwrite fits, value.length_encode, if_neg outside]
  refine ⟨_, Value.writeAt?_of_le room, Disk.length_overwrite fits, ?_, ?_, others⟩
  · rw [← value.length_encode, Disk.take_drop_overwrite fits]
  · intro bit held
    have header : Part.header ∈ parts schema size := nofun
    have same := others .header header nofun (bit / 8) (by
      rw [Part.bytes, Part.start, Part.width, Set.mem_Ico]
      omega)
    rw [headerBit, headerBit, same]

def places (page : Page) : List (Nat × Value) :=
  slotPlaces (fieldStart page.schema page.size) page.slots

/-- The image of a page is its header on a blank page, and each of its values written there. -/
theorem WellFormed.writeEach_places (wellFormed : page.WellFormed) :
    writeEach page.places (fitBytes page.size page.header) = some page.image := by
  have header : page.header.length = headerSize page.slots.length := wellFormed.length_header
  have slots : (page.slots.flatMap (slotBytes page.schema.rowWidth)).length =
      page.slots.length * page.schema.rowWidth := length_slotsBytes wellFormed.fits rfl
  have fit := header_and_slots_fit page.size page.schema.rowWidth
  rw [← wellFormed.count] at fit
  have blank : fitBytes page.size page.header = page.header ++ List.replicate
      (page.slots.length * page.schema.rowWidth +
        (page.size - (headerSize page.slots.length + page.slots.length * page.schema.rowWidth))) 0 := by
    rw [fitBytes_of_le (by omega), header]
    congr 2
    omega
  have image : page.image = page.header ++ page.slots.flatMap (slotBytes page.schema.rowWidth) ++
      List.replicate (page.size - (headerSize page.slots.length +
        page.slots.length * page.schema.rowWidth)) 0 := by
    rw [Page.image, fitBytes_of_le (by rw [List.length_append, ← Page.header, header, slots]; exact fit),
      List.length_append, ← Page.header, header, slots]
  have starts : ∀ slot index, fieldStart page.schema page.size slot index =
      page.header.length + slot * rowWidth page.schema.types + rowWidth (page.schema.types.take index) := by
    intro slot index
    rw [fieldStart, slotStart, header, wellFormed.count, Schema.rowWidth]
  rw [places, blank, image]
  exact writeEach_slots wellFormed.fits starts _

/-- A value belongs at the place: it is that of a column of its type, in a slot of the page. -/
def Belongs (schema : Schema) (size : Nat) (place : Nat × Value) : Prop :=
  ∃ slot index, slot < slotCount size schema.rowWidth ∧ schema.types[index]? = some place.2.type ∧
    place.1 = fieldStart schema size slot index

theorem WellFormed.belongs (wellFormed : page.WellFormed) {place : Nat × Value}
    (listed : place ∈ page.places) : Belongs page.schema page.size place := by
  simp only [places, slotPlaces, rowPlaces, List.mem_flatMap, List.mem_map] at listed
  obtain ⟨⟨held, slot⟩, slotListed, ⟨value, index⟩, valueListed, rfl⟩ := listed
  have here : page.slots[slot]? = some held := List.mem_zipIdx_iff_getElem?.mp slotListed
  have column : (held.getD [])[index]? = some value := List.mem_zipIdx_iff_getElem?.mp valueListed
  have inside := (List.getElem?_eq_some_iff.mp here).1
  cases held with
  | none => simp at column
  | some values =>
      have types := (wellFormed.fits _ (List.mem_of_getElem? here) values rfl).1
      refine ⟨slot, index, ?_, ?_, rfl⟩
      · rwa [← wellFormed.count]
      · rw [Option.getD_some] at column
        rw [← types, List.getElem?_map, column, Option.map_some]

/-- Where the parts of a page stand, and that they are written without a change to each other. -/
structure Layout (schema : Schema) (size : Nat) : Prop where
  slots : IsGreatest {count | count ⌈/⌉ 8 + count * schema.rowWidth ≤ size} (slotCount size schema.rowWidth)
  inside : ∀ part ∈ parts schema size, part.bytes schema size ⊆ Set.Iio size
  apart : (parts schema size).PairwiseDisjoint (Part.bytes schema size)
  writes : ∀ (value : Value) (slot index : Nat) (data : List UInt8), slot < slotCount size schema.rowWidth →
    schema.types[index]? = some value.type → data.length = size →
      ∃ after, value.writeAt? (fieldStart schema size slot index) data = some after ∧
        FieldWrite schema size slot index value data after
  /-- Every page that was read and then changed is written so. -/
  image : ∀ (id : PageId) (data : List UInt8) (start page : Page) (history : List PageEvent),
    decode id schema size data = .ok start → Run Builds start history page →
      (∀ place ∈ page.places, Belongs schema size place) ∧
        writeEach page.places (fitBytes size page.header) = some page.image

theorem layout_of_schema (schema : Schema) (size : Nat) : Layout schema size where
  slots := isGreatest_slotCount size schema.rowWidth
  inside := fun _ => bytes_subset
  apart := pairwiseDisjoint_parts schema size
  writes := fun _ _ _ _ => fieldWrite_exists
  image := fun id data start page history read run => by
    obtain ⟨_, rfl, rfl, _, _, wellFormed⟩ := of_decode read
    obtain ⟨alike, wellFormed⟩ := run.wellFormed (fun _ _ builds => builds) wellFormed
    rw [← alike.schema, ← alike.size]
    exact ⟨fun _ => wellFormed.belongs, wellFormed.writeEach_places⟩

end Page

end RowStore
