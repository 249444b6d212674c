import RowStore.Proofs.Page.Deletes

namespace RowStore

/-! A page with a packed header is a map from its slots to rows.

What it does is what the page does whose slots tell alone which of them are used: each
call leads from the packed form of a page to the packed form of the page that the same
call leads to. So the header bits and the cells, which are changed one after the
other, never come apart.
-/

variable {page : Page} {row : Row} {slot : Nat} {held : Option (List Value)}
variable {record : RecordId} {action : PageAction} {history : List PageEvent}
variable {id : PageId} {schema : Schema} {size : Nat} {data : List UInt8}

namespace BitmapPage

/-- The row that a slot holds. -/
def row? (page : BitmapPage) (slot : Nat) : Option Row := page.cells[slot]?.join

def replaceBy (page : BitmapPage) : Except StoreError BitmapPage → BitmapPage × Except StoreError Unit
  | .ok other => (other, .ok ())
  | .error error => (page, .error error)

def act (page : BitmapPage) : PageAction → BitmapPage × Except StoreError Unit
  | .insert row => page.replaceBy ((page.insert row).map Prod.fst)
  | .delete location => page.delete location
  | .markDirty owner => (page.markDirty owner, .ok ())
  | .keepImage => (page.keepImage, .ok ())
  | .restore => page.replaceBy page.restored
  | .reload => page.replaceBy (decode page.id page.schema page.size page.image)

end BitmapPage

namespace Page

/-- The page with its header packed and the place of each row noted. -/
def bitmap (page : Page) : BitmapPage where
  id := page.id
  schema := page.schema
  size := page.size
  header := page.header.toArray
  cells := (List.range page.slotTotal).map page.row?
  dirty := page.dirty
  before := page.before

/-! ## What is read from the packed form -/

@[simp] theorem id_bitmap : page.bitmap.id = page.id := rfl

@[simp] theorem schema_bitmap : page.bitmap.schema = page.schema := rfl

@[simp] theorem slotTotal_bitmap : page.bitmap.slotTotal = page.slotTotal := by
  rw [BitmapPage.slotTotal, bitmap, List.length_map, List.length_range]

@[simp] theorem row?_bitmap : page.bitmap.row? = page.row? := by
  funext slot
  rw [BitmapPage.row?, bitmap, List.getElem?_map]
  by_cases inside : slot < page.slotTotal
  · rw [List.getElem?_range inside]
    rfl
  · rw [List.getElem?_eq_none (by simpa using inside), row?_eq_none_of_le (Nat.not_lt.mp inside)]
    rfl

theorem WellFormed.isUsed_bitmap (wellFormed : page.WellFormed) :
    page.bitmap.isUsed slot = page.isUsed slot := by
  rw [← wellFormed.headerBit_header, ← hasBit_toArray]
  rfl

theorem rows_bitmap : page.bitmap.rows = page.rows := by
  rw [BitmapPage.rows, bitmap, List.filterMap_map, rows_eq_filterMap]
  rfl

theorem WellFormed.freeCount_bitmap (wellFormed : page.WellFormed) :
    page.bitmap.freeCount = page.freeCount := by
  rw [wellFormed.freeCount_eq, BitmapPage.freeCount, slotTotal_bitmap]
  simp only [wellFormed.isUsed_bitmap, wellFormed.headerBit_header]

theorem map_values_row? :
    (List.range page.slotTotal).map (fun slot => (page.row? slot).map Row.values) = page.slots := by
  apply List.ext_getElem
  · rw [List.length_map, List.length_range, slotTotal]
  · intro slot _ inside
    simp [row?, List.getElem?_eq_getElem inside, Function.comp_def]

theorem image_bitmap : page.bitmap.image = page.image := by
  have cells : page.bitmap.cells.flatMap (BitmapPage.cellBytes page.schema.rowWidth) =
      page.slots.flatMap (slotBytes page.schema.rowWidth) := by
    rw [← @map_values_row? page, List.flatMap_map, bitmap, List.flatMap_map]
    rfl
  rw [BitmapPage.image, image, ← cells]
  rfl

/-! ## What is changed in the packed form -/

theorem WellFormed.bitmap_setSlot (wellFormed : page.WellFormed) (inside : slot < page.slotTotal) :
    (page.setSlot slot held).bitmap =
      (page.bitmap.setUsed slot held.isSome).setCell slot
        (held.map fun values => ⟨values, some ⟨page.id, slot⟩⟩) := by
  have cells : (page.setSlot slot held).bitmap.cells =
      page.bitmap.cells.set slot (held.map fun values => ⟨values, some ⟨page.id, slot⟩⟩) := by
    apply List.ext_getElem
    · simp [bitmap, slotTotal, Page.setSlot]
    · intro other _ _
      simp [bitmap, row?_setSlot inside, List.getElem_set, eq_comm]
  rw [BitmapPage.setCell, BitmapPage.setUsed, ← cells]
  simp only [bitmap, wellFormed.header_setSlot inside, modify_toArray_maskByte]
  rfl

theorem WellFormed.bitmap_clearPadding (wellFormed : page.WellFormed) (past : page.slotTotal ≤ slot) :
    (page.clearPadding slot).bitmap = page.bitmap.setUsed slot false := by
  have header := (wellFormed.changes_clearPadding past).header
  simp only [BitmapPage.setUsed, bitmap, header, modify_toArray_maskByte]
  rfl

/-- The first header bit that is unset is that of the first slot that holds nothing. -/
theorem WellFormed.find?_bitmap (wellFormed : page.WellFormed) :
    ((List.range page.bitmap.slotTotal).find? fun slot => !page.bitmap.isUsed slot) =
      page.slots.findIdx? Option.isNone := by
  have bit : ∀ slot < page.slotTotal, page.bitmap.isUsed slot = (page.row? slot).isSome :=
    fun slot inside => wellFormed.isUsed_bitmap.trans (isUsed_eq_isSome inside)
  rw [slotTotal_bitmap]
  cases found : page.slots.findIdx? Option.isNone with
  | none =>
      refine List.find?_eq_none.mpr fun slot listed => ?_
      have inside := List.mem_range.mp listed
      rw [bit slot inside, findIdx?_eq_none_iff_full.mp found slot inside]
      decide
  | some slot =>
      obtain ⟨inside, free, before⟩ := firstFree_of_findIdx? found
      refine List.find?_range_eq_some.mpr ⟨?_, List.mem_range.mpr inside, fun other earlier => ?_⟩
      · rw [bit slot inside, free]
        rfl
      · rw [bit other (Nat.lt_trans earlier inside), before other earlier]
        rfl

/-! ## Each call leads to the packed form of what it leads to -/

theorem WellFormed.insert_bitmap (wellFormed : page.WellFormed) :
    page.bitmap.insert row = (page.insert row).map fun (changed, record) => (changed.bitmap, record) := by
  simp only [BitmapPage.insert, Page.insert, wellFormed.find?_bitmap, schema_bitmap]
  split
  · cases found : page.slots.findIdx? Option.isNone with
    | none => rfl
    | some slot =>
        have inside := (firstFree_of_findIdx? found).1
        have filled := @WellFormed.bitmap_setSlot page slot (some row.values) wellFormed inside
        rw [Page.setSlot] at filled
        simp only [Except.map, filled]
        rfl
  · rfl

theorem WellFormed.delete_bitmap (wellFormed : page.WellFormed) (location : Option RecordId) :
    page.bitmap.delete location = ((page.delete location).1.bitmap, (page.delete location).2) := by
  rcases page.delete_cases location with
    ⟨record, rfl, here, held⟩ | ⟨record, rfl, here, past, set⟩ | ⟨error, refuses⟩
  · have inside := slot_lt_of_isSome held
    have used : page.bitmap.isUsed record.slot = true :=
      wellFormed.isUsed_bitmap.trans ((isUsed_eq_isSome inside).trans held)
    have room : record.slot < (page.bitmap.setUsed record.slot false).slotTotal :=
      slotTotal_bitmap.symm ▸ inside
    rw [delete_stored here held, wellFormed.bitmap_setSlot inside]
    simp only [BitmapPage.delete, id_bitmap, if_pos here, if_pos used, if_pos room]
    rfl
  · have used : page.bitmap.isUsed record.slot = true := wellFormed.isUsed_bitmap.trans set
    have missing : ¬ record.slot < (page.bitmap.setUsed record.slot false).slotTotal :=
      Nat.not_lt.mpr (slotTotal_bitmap.symm ▸ past)
    rw [delete_stray here past set, wellFormed.bitmap_clearPadding past]
    simp only [BitmapPage.delete, id_bitmap, if_pos here, if_pos used, if_neg missing]
  · rw [refuses.delete]
    cases refuses with
    | unplaced => rfl
    | elsewhere apart => simp [BitmapPage.delete, apart]
    | empty here unused =>
        rw [← wellFormed.isUsed_bitmap] at unused
        simp [BitmapPage.delete, here, unused]

/-- The values that are read at a slot are a row of the page as they are. -/
theorem decodeCell_eq (header body : List UInt8) (slot : Nat) :
    BitmapPage.decodeCell id schema header.toArray body slot =
      (if headerBit header slot then
        (decodeValues schema.types (body.drop (slot * schema.rowWidth))).map some else .ok none).map
          (Option.map fun values => ⟨values, some ⟨id, slot⟩⟩) := by
  rw [BitmapPage.decodeCell, hasBit_toArray]
  split
  · cases read : decodeValues schema.types (body.drop (slot * schema.rowWidth)) with
    | error error => rfl
    | ok values =>
        obtain ⟨types, kept⟩ := fits_of_decodeValues read
        have row : schema.row values = .ok ⟨values, none⟩ := by
          rw [Schema.row_of_types types, List.map_congr_left kept, List.map_id']
        simp only [bind, Except.bind, row]
        rfl
  · rfl

/-- What the cells of a page are read to, told by what its slots are read to. -/
theorem decodeCells_eq (header body : List UInt8) (first count : Nat) :
    (List.range' first count).mapM (BitmapPage.decodeCell id schema header.toArray body) =
      (decodeSlots schema.types schema.rowWidth ((List.range' first count).map (headerBit header))
        (body.drop (first * schema.rowWidth))).map fun slots =>
          (slots.zipIdx first).map fun (slot, index) => slot.map fun values => ⟨values, some ⟨id, index⟩⟩ := by
  induction count generalizing first with
  | zero => rfl
  | succ count ih =>
      have next : (body.drop (first * schema.rowWidth)).drop schema.rowWidth =
          body.drop ((first + 1) * schema.rowWidth) := by
        rw [List.drop_drop, Nat.succ_mul]
      rw [List.range'_succ, List.mapM_cons, ih, decodeCell_eq, List.map_cons, decodeSlots, next]
      cases (if headerBit header first then
        (decodeValues schema.types (body.drop (first * schema.rowWidth))).map some else .ok none) with
      | error error => rfl
      | ok slot =>
          cases decodeSlots schema.types schema.rowWidth ((List.range' (first + 1) count).map (headerBit header))
              (body.drop ((first + 1) * schema.rowWidth)) with
          | error error => rfl
          | ok slots => rfl

theorem cells_bitmap : page.bitmap.cells =
    page.slots.zipIdx.map fun (slot, index) => slot.map fun values => ⟨values, some ⟨page.id, index⟩⟩ := by
  apply List.ext_getElem
  · simp [bitmap, slotTotal]
  · intro slot _ listed
    have inside : slot < page.slots.length := by simpa using listed
    simp [bitmap, row?, List.getElem?_eq_getElem inside]

/-- The packed form of a page is read from the same bytes. -/
theorem decode_bitmap :
    BitmapPage.decode id schema size data = (decode id schema size data).map bitmap := by
  have room := header_and_slots_fit size schema.rowWidth
  have enough := le_headerSize (slotCount size schema.rowWidth)
  simp only [BitmapPage.decode]
  rw [List.range_eq_range', decodeCells_eq, Nat.zero_mul, List.drop_zero, ← List.range_eq_range',
    ← take_bitsOfBytes (by rw [List.length_take, length_fitBytes]; omega)]
  cases read : decode id schema size data with
  | error error =>
      simp only [decode] at read
      split at read
      · next found =>
        rw [found]
        cases read
        rfl
      · contradiction
  | ok page =>
      have bits := headerBits_of_decode read
      simp only [decode] at read
      split at read
      · contradiction
      · next slots found =>
        have header : page.header = (fitBytes size data).take (headerSize (slotCount size schema.rowWidth)) := by
          rw [Page.header, bits, bytesOfBits_bitsOfBytes]
        have parts : page.bitmap =
            ⟨page.id, page.schema, page.size, page.header.toArray, page.bitmap.cells, page.dirty, page.before⟩ := rfl
        have whole := (Except.ok.inj read).symm
        rw [found]
        change Except.ok _ = Except.ok page.bitmap
        rw [parts, header, cells_bitmap, whole]

theorem replaceBy_bitmap {other : Except StoreError Page} :
    page.bitmap.replaceBy (other.map bitmap) = ((page.replaceBy other).1.bitmap, (page.replaceBy other).2) := by
  cases other <;> rfl

/-- What happens to a page happens to its packed form. -/
theorem WellFormed.act_bitmap (wellFormed : page.WellFormed) (action : PageAction) :
    page.bitmap.act action = ((page.act action).1.bitmap, (page.act action).2) := by
  cases action with
  | insert row =>
      have changed : (page.bitmap.insert row).map Prod.fst = ((page.insert row).map Prod.fst).map bitmap := by
        rw [wellFormed.insert_bitmap]
        cases page.insert row <;> rfl
      rw [BitmapPage.act, changed, replaceBy_bitmap]
      rfl
  | delete location => exact wellFormed.delete_bitmap location
  | markDirty owner => rfl
  | keepImage =>
      rw [BitmapPage.act, BitmapPage.keepImage, image_bitmap]
      rfl
  | restore =>
      rw [BitmapPage.act, BitmapPage.restored, decode_bitmap, replaceBy_bitmap]
      rfl
  | reload =>
      rw [BitmapPage.act, image_bitmap, decode_bitmap, replaceBy_bitmap]
      rfl

end Page

namespace BitmapPage

variable {page start : BitmapPage} {cell : Option Row} {allowed : BitmapPage → PageAction → Prop}

/-! ## Histories -/

/-- The histories of a page under allowed actions, with the page that each leads to. The newest
event comes first. -/
inductive Run (allowed : BitmapPage → PageAction → Prop) (start : BitmapPage) :
    List PageEvent → BitmapPage → Prop where
  | start : Run allowed start [] start
  | step {history : List PageEvent} {page : BitmapPage} (before : Run allowed start history page)
      (action : PageAction) (permitted : allowed page action) :
      Run allowed start (⟨action, (page.act action).2⟩ :: history) (page.act action).1

theorem Run.answered (before : Run allowed start history page) (action : PageAction)
    (permitted : allowed page action) {result : Except StoreError Unit}
    (same : (page.act action).2 = result) :
    Run allowed start (⟨action, result⟩ :: history) (page.act action).1 := by
  subst same
  exact before.step action permitted

/-- A history of the packed form of a page is one of the page, with the same answers. -/
theorem Run.unpacked {first : Page} (run : Run allowed first.bitmap history page)
    (builds : ∀ (page : Page) (action : PageAction), allowed page.bitmap action → page.Builds action)
    (wellFormed : first.WellFormed) :
    ∃ last : Page, Page.Run (fun page => allowed page.bitmap) first history last ∧ page = last.bitmap := by
  induction run with
  | start => exact ⟨first, .start, rfl⟩
  | step before action permitted ih =>
      obtain ⟨last, ran, rfl⟩ := ih
      have fits := (ran.wellFormed builds wellFormed).2
      rw [fits.act_bitmap]
      exact ⟨_, ran.step action permitted, rfl⟩

/-! ## The map -/

/-- Rows that were built are put on the page, and rows are taken from slots that it has. -/
def Addresses (page : BitmapPage) (action : PageAction) : Prop := action.Addresses page.id page.slotTotal

def FirstFree (page : BitmapPage) (slot : Nat) : Prop :=
  slot < page.slotTotal ∧ page.row? slot = none ∧ ∀ before < slot, (page.row? before).isSome

/-- The bit and the cell of one slot were changed, and nothing else. -/
structure Changes (slot : Nat) (cell : Option Row) (page changed : BitmapPage) : Prop where
  bit : ∀ other, changed.isUsed other = if other = slot then cell.isSome else page.isUsed other
  row : ∀ other, changed.row? other = if other = slot then cell else page.row? other
  rest : changed = { page with header := changed.header, cells := changed.cells }

/-- The page is used as one map from its slots to rows. -/
structure SlotMap (page : BitmapPage) : Prop where
  /-- The image of the page begins with the header. -/
  image : page.image.take (headerSize page.slotTotal) = page.header.toList
  used : ∀ slot < page.slotTotal, page.isUsed slot = (page.row? slot).isSome
  bounded : ∀ slot, page.slotTotal ≤ slot → page.row? slot = none
  located : ∀ slot row, page.row? slot = some row → row.location = some ⟨page.id, slot⟩
  /-- The rows are listed from the first slot on. -/
  listed : page.rows = (List.range page.slotTotal).filterMap page.row?
  total : page.freeCount + page.rows.length = page.slotTotal
  full : ∀ row, row.types = page.schema.types →
    (page.insert row = .error (.pageFull page.id) ↔ ∀ slot < page.slotTotal, page.isUsed slot)
  fills : ∀ row, row.types = page.schema.types → (∃ slot < page.slotTotal, page.row? slot = none) →
    ∃ slot changed, page.FirstFree slot ∧ page.insert row = .ok (changed, ⟨page.id, slot⟩) ∧
      Changes slot (some (row.storedAt ⟨page.id, slot⟩)) page changed
  frees : ∀ record, record.page = page.id → record.slot < page.slotTotal →
    (page.row? record.slot).isSome →
    ∃ changed, page.delete (some record) = (changed, .ok ()) ∧ Changes record.slot none page changed ∧
      changed.delete (some record) = (changed, .error (.slotEmpty page.id record.slot))
  empty : ∀ record, record.page = page.id → record.slot < page.slotTotal → page.row? record.slot = none →
    page.delete (some record) = (page, .error (.slotEmpty page.id record.slot))
  refused : ∀ action error, page.Addresses action → (page.act action).2 = .error error →
    (page.act action).1 = page

theorem row?_setCell (inside : slot < page.slotTotal) (other : Nat) :
    (page.setCell slot cell).row? other = if other = slot then cell else page.row? other := by
  rw [slotTotal] at inside
  rw [row?, row?, setCell, List.getElem?_set]
  by_cases here : slot = other
  · rw [if_pos here, if_pos inside, if_pos here.symm]
    rfl
  · rw [if_neg here, if_neg (Ne.symm here)]

theorem isUsed_eq_headerBit : page.isUsed slot = headerBit page.header.toList slot :=
  hasBit_toArray page.header.toList slot

theorem isUsed_setUsed {used : Bool} (covered : slot < 8 * page.header.size) (other : Nat) :
    (page.setUsed slot used).isUsed other = if other = slot then used else page.isUsed other := by
  have masked : (page.setUsed slot used).header.toList = setHeaderBit page.header.toList slot used :=
    congrArg Array.toList (modify_toArray_maskByte page.header.toList slot used)
  rw [isUsed_eq_headerBit, isUsed_eq_headerBit, masked, headerBit_eq, headerBit_eq,
    bitsOfBytes_setHeaderBit, List.getElem?_set, length_bitsOfBytes]
  by_cases here : slot = other
  · rw [if_pos here, if_pos (by simpa using covered), if_pos here.symm]
    rfl
  · rw [if_neg here, if_neg (Ne.symm here)]

theorem changes_of_set (inside : slot < page.slotTotal) (covered : slot < 8 * page.header.size)
    (cell : Option Row) : Changes slot cell page ((page.setUsed slot cell.isSome).setCell slot cell) :=
  ⟨isUsed_setUsed covered, row?_setCell inside, rfl⟩

end BitmapPage

namespace Page

theorem WellFormed.changes_bitmap (wellFormed : page.WellFormed) (inside : slot < page.slotTotal)
    (held : Option (List Value)) :
    BitmapPage.Changes slot (held.map fun values => ⟨values, some ⟨page.id, slot⟩⟩) page.bitmap
      (page.setSlot slot held).bitmap := by
  have covered : slot < 8 * page.bitmap.header.size := by
    have bytes : page.bitmap.header.size = headerSize page.slotTotal := wellFormed.length_header
    have enough := le_headerSize page.slotTotal
    omega
  rw [wellFormed.bitmap_setSlot inside, ← Option.isSome_map]
  exact BitmapPage.changes_of_set (slotTotal_bitmap.symm ▸ inside) covered _

/-- The packed form of a page is a map from its slots to rows. -/
theorem WellFormed.slotMap (wellFormed : page.WellFormed) : page.bitmap.SlotMap where
  image := by
    rw [image_bitmap, slotTotal_bitmap]
    exact wellFormed.take_image
  used := fun slot inside => by
    rw [wellFormed.isUsed_bitmap, row?_bitmap, isUsed_eq_isSome (slotTotal_bitmap ▸ inside)]
  bounded := fun slot outside => by
    rw [row?_bitmap, row?_eq_none_of_le (slotTotal_bitmap ▸ outside)]
  located := fun slot row held => location_of_row? (row?_bitmap ▸ held)
  listed := by
    rw [rows_bitmap, rows_eq_filterMap, slotTotal_bitmap, row?_bitmap]
  total := by
    rw [wellFormed.freeCount_bitmap, rows_bitmap, slotTotal_bitmap, freeCount_add_length_rows]
  full := fun row types => by
    rw [wellFormed.insert_bitmap, slotTotal_bitmap]
    have all : (∀ slot < page.slotTotal, page.bitmap.isUsed slot = true) ↔
        ∀ slot < page.slotTotal, (page.row? slot).isSome = true :=
      forall₂_congr fun slot inside => by rw [wellFormed.isUsed_bitmap, isUsed_eq_isSome inside]
    rw [all, ← insert_eq_pageFull_iff types]
    cases page.insert row <;> simp [Except.map]
  fills := fun row types free => by
    rw [slotTotal_bitmap, row?_bitmap] at free
    obtain ⟨slot, first, inserted⟩ := insert_firstFree types free
    have changes := wellFormed.changes_bitmap first.1 (some row.values)
    refine ⟨slot, (page.setSlot slot (some row.values)).bitmap, ?_, ?_, changes⟩
    · rwa [BitmapPage.FirstFree, slotTotal_bitmap, row?_bitmap]
    · rw [wellFormed.insert_bitmap, inserted]
      rfl
  frees := fun record here inside used => by
    rw [slotTotal_bitmap] at inside
    rw [row?_bitmap] at used
    have after : (page.setSlot record.slot none).WellFormed := wellFormed.setSlot (slotFits_none _)
    have free : (page.setSlot record.slot none).row? record.slot = none := by
      rw [row?_setSlot inside, if_pos rfl]
      rfl
    have room : record.slot < (page.setSlot record.slot none).slotTotal := by
      rwa [slotTotal, Page.setSlot, List.length_set]
    have same : record.page = (page.setSlot record.slot none).id := here
    refine ⟨(page.setSlot record.slot none).bitmap, ?_, wellFormed.changes_bitmap inside none, ?_⟩
    · rw [wellFormed.delete_bitmap, delete_used here inside used]
    · rw [after.delete_bitmap, delete_free same room free]
      rfl
  empty := fun record here inside free => by
    rw [slotTotal_bitmap] at inside
    rw [row?_bitmap] at free
    rw [wellFormed.delete_bitmap, delete_free here inside free]
    rfl
  refused := fun action error addresses refused => by
    rw [wellFormed.act_bitmap] at refused ⊢
    rw [BitmapPage.Addresses, slotTotal_bitmap] at addresses
    exact congrArg bitmap (act_of_error addresses refused)

end Page

namespace BitmapPage

variable {page start : BitmapPage}

/-- Whatever rows were put on a page and taken from it, and whichever calls were refused, the page is
a map from its slots to rows. -/
theorem slotMap_of_run (read : decode id schema size data = .ok start)
    (run : Run Addresses start history page) :
    page.id = id ∧ page.slotTotal = slotCount size schema.rowWidth ∧ page.SlotMap := by
  rw [Page.decode_bitmap] at read
  cases first : Page.decode id schema size data with
  | error error =>
      rw [first] at read
      contradiction
  | ok first' =>
      rw [first] at read
      obtain rfl : first'.bitmap = start := Except.ok.inj read
      obtain ⟨rfl, rfl, rfl, _, _, wellFormed⟩ := Page.of_decode first
      have builds : ∀ (page : Page) (action : PageAction), page.bitmap.Addresses action → page.Builds action :=
        fun page _ addresses => PageAction.Addresses.builds addresses page
      obtain ⟨last, ran, rfl⟩ := run.unpacked builds wellFormed
      obtain ⟨⟨sameId, sameSchema, sameSize⟩, after⟩ := ran.wellFormed builds wellFormed
      refine ⟨sameId, ?_, after.slotMap⟩
      rw [Page.slotTotal_bitmap, Page.slotTotal, after.count, sameSchema, sameSize]

/-- Room for two integers: an insert fills the first slot, the next one finds no room, and the row of
the second slot can be deleted once. -/
theorem slotMap_of_refusals :
    ∃ page, decode ⟨1, 0⟩ (.ofTypes [.int]) 9 Page.pairImage = .ok Page.pairPage.bitmap ∧
      Run Addresses Page.pairPage.bitmap
          [⟨.delete (some ⟨⟨1, 0⟩, 1⟩), .error (.slotEmpty ⟨1, 0⟩ 1)⟩,
            ⟨.delete (some ⟨⟨1, 0⟩, 1⟩), .ok ()⟩,
            ⟨.insert Page.pairRow, .error (.pageFull ⟨1, 0⟩)⟩,
            ⟨.insert Page.pairRow, .ok ()⟩] page ∧
        page.id = ⟨1, 0⟩ ∧ page.slotTotal = slotCount 9 (Schema.ofTypes [.int]).rowWidth ∧ page.SlotMap := by
  have read : decode ⟨1, 0⟩ (.ofTypes [.int]) 9 Page.pairImage = .ok Page.pairPage.bitmap := by rfl
  have last : ∀ record : RecordId, some ⟨⟨1, 0⟩, 1⟩ = some record → record.page = ⟨1, 0⟩ →
      record.slot < 2 := by
    rintro _ same _
    cases same
    decide
  have run := ((((@Run.start Addresses Page.pairPage.bitmap).answered (.insert Page.pairRow) Page.built_pairRow
    (show _ = .ok () by rfl)).answered (.insert Page.pairRow) Page.built_pairRow
    (show _ = .error (.pageFull ⟨1, 0⟩) by rfl)).answered (.delete (some ⟨⟨1, 0⟩, 1⟩)) last
    (show _ = .ok () by rfl)).answered (.delete (some ⟨⟨1, 0⟩, 1⟩)) last
    (show _ = .error (.slotEmpty ⟨1, 0⟩ 1) by rfl)
  exact ⟨_, read, run, slotMap_of_run read run⟩

end BitmapPage

end RowStore
