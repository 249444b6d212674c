import RowStore.Proofs.Page.Header
import RowStore.Proofs.Page.History

namespace RowStore

/-! What the calls of a page do to the rows at its slots.

An insert fills the first free slot, a delete frees the slot that it names, and a call
that is refused changes nothing.
-/

/-- Rows that were built are put on a page, and rows are taken from slots that it has. -/
def PageAction.Addresses (id : PageId) (slots : Nat) : PageAction → Prop
  | .insert row => row.Built
  | .delete location => ∀ record, location = some record → record.page = id → record.slot < slots
  | _ => False

theorem PageAction.Addresses.builds {action : PageAction} {id : PageId} {slots : Nat}
    (addresses : action.Addresses id slots) (page : Page) : page.Builds action := by
  cases action with
  | insert row => exact addresses
  | delete => trivial
  | markDirty | keepImage | restore | reload => exact addresses.elim

namespace Page

variable {page start changed : Page} {row : Row} {slot : Nat} {held : Option (List Value)}
variable {record : RecordId} {action : PageAction} {history : List PageEvent}

/-- The row that a slot holds, with its place. -/
def row? (page : Page) (slot : Nat) : Option Row :=
  page.slots[slot]?.join.map fun values => ⟨values, some ⟨page.id, slot⟩⟩

def FirstFree (page : Page) (slot : Nat) : Prop :=
  slot < page.slotTotal ∧ page.row? slot = none ∧ ∀ before < slot, (page.row? before).isSome

/-- One slot was changed, in the slots and in the header alike, and no other. -/
structure Changes (slot : Nat) (held : Option (List Value)) (page changed : Page) : Prop where
  row : ∀ other, changed.row? other =
    if other = slot then held.map fun values => ⟨values, some ⟨page.id, slot⟩⟩ else page.row? other
  header : changed.header = setHeaderBit page.header slot held.isSome

/-! ## What a slot holds -/

theorem row?_eq_none_of_le (outside : page.slotTotal ≤ slot) : page.row? slot = none := by
  simp [row?, List.getElem?_eq_none outside]

theorem isSome_row? (inside : slot < page.slots.length) :
    (page.row? slot).isSome = page.slots[slot].isSome := by
  simp [row?, List.getElem?_eq_getElem inside]

theorem isUsed_eq_isSome (inside : slot < page.slotTotal) : page.isUsed slot = (page.row? slot).isSome := by
  have short : slot < page.slots.length := inside
  rw [isSome_row? inside, isUsed, headerBits, List.getElem?_append_left (by rwa [List.length_map]),
    List.getElem?_map, List.getElem?_eq_getElem short]
  rfl

theorem row?_setSlot (inside : slot < page.slotTotal) (other : Nat) :
    (page.setSlot slot held).row? other =
      if other = slot then held.map fun values => ⟨values, some ⟨page.id, slot⟩⟩ else page.row? other := by
  simp only [row?, setSlot, List.getElem?_set]
  by_cases here : other = slot
  · subst here
    have short : other < page.slots.length := inside
    simp [short]
  · simp [here, Ne.symm here]

theorem WellFormed.changes_setSlot (wellFormed : page.WellFormed) (inside : slot < page.slotTotal)
    (held : Option (List Value)) : Changes slot held page (page.setSlot slot held) :=
  ⟨row?_setSlot inside, wellFormed.header_setSlot inside⟩

/-! ## All rows of a page -/

theorem rows_eq_filterMap (page : Page) : page.rows = (List.range page.slotTotal).filterMap page.row? := by
  have places : page.slots.zipIdx =
      (List.range page.slotTotal).map fun slot => (page.slots[slot]?.join, slot) := by
    apply List.ext_getElem
    · simp [slotTotal]
    · intro slot inside _
      have short : slot < page.slots.length := by simpa using inside
      simp [List.getElem?_eq_getElem short]
  rw [rows, places, List.filterMap_map]
  rfl

theorem mem_rows_iff : row ∈ page.rows ↔ ∃ slot, page.row? slot = some row := by
  rw [rows_eq_filterMap, List.mem_filterMap]
  refine ⟨fun ⟨slot, _, held⟩ => ⟨slot, held⟩, fun ⟨slot, held⟩ => ⟨slot, List.mem_range.mpr ?_, held⟩⟩
  by_contra outside
  rw [row?_eq_none_of_le (Nat.not_lt.mp outside)] at held
  contradiction

theorem location_of_row? (held : page.row? slot = some row) : row.location = some ⟨page.id, slot⟩ := by
  obtain ⟨values, _, rfl⟩ := Option.map_eq_some_iff.mp held
  rfl

theorem freeCount_eq_countP (page : Page) :
    page.freeCount = (List.range page.slotTotal).countP fun slot => (page.row? slot).isNone := by
  have free : page.slots.map Option.isNone =
      (List.range page.slotTotal).map fun slot => (page.row? slot).isNone := by
    apply List.ext_getElem
    · simp [slotTotal]
    · intro slot inside _
      have short : slot < page.slots.length := by simpa using inside
      simp [row?, List.getElem?_eq_getElem short]
  have total := congrArg (List.countP fun bit => bit) free
  rwa [List.countP_map, List.countP_map] at total

/-- As many slots are free as have no bit in the header. -/
theorem WellFormed.freeCount_eq (wellFormed : page.WellFormed) :
    page.freeCount = (List.range page.slotTotal).countP fun slot => !headerBit page.header slot := by
  rw [freeCount_eq_countP]
  apply List.countP_congr
  intro slot listed
  rw [wellFormed.headerBit_header, isUsed_eq_isSome (List.mem_range.mp listed), Option.not_isSome]

theorem freeCount_add_length_rows (page : Page) : page.freeCount + page.rows.length = page.slotTotal := by
  have all := (List.range page.slotTotal).length_eq_countP_add_countP fun slot => (page.row? slot).isSome
  have rest : (fun slot => decide ¬(page.row? slot).isSome = true) = fun slot => (page.row? slot).isNone := by
    funext slot
    cases page.row? slot <;> rfl
  rw [rest, List.length_range, Nat.add_comm] at all
  rw [rows_eq_filterMap, List.length_filterMap_eq_countP, freeCount_eq_countP, ← all]

/-! ## Calls -/

theorem firstFree_of_findIdx? (found : page.slots.findIdx? Option.isNone = some slot) :
    page.FirstFree slot := by
  obtain ⟨inside, free, before⟩ := List.findIdx?_eq_some_iff_getElem.mp found
  refine ⟨inside, by simpa [row?, List.getElem?_eq_getElem inside] using free, fun other earlier => ?_⟩
  have within : other < page.slots.length := Nat.lt_trans earlier inside
  have held : page.slots[other] ≠ none := by simpa using before other earlier
  rw [isSome_row? within]
  exact Option.isSome_iff_ne_none.mpr held

theorem findIdx?_eq_none_iff_full :
    page.slots.findIdx? Option.isNone = none ↔ ∀ slot < page.slotTotal, (page.row? slot).isSome := by
  rw [List.findIdx?_eq_none_iff, List.forall_mem_iff_forall_getElem]
  refine forall₂_congr fun slot inside => ?_
  rw [isSome_row? inside]
  cases page.slots[slot] <;> simp

theorem insert_eq_pageFull_iff (types : row.types = page.schema.types) :
    page.insert row = .error (.pageFull page.id) ↔ ∀ slot < page.slotTotal, (page.row? slot).isSome := by
  rw [← findIdx?_eq_none_iff_full, insert, if_pos types]
  cases page.slots.findIdx? Option.isNone <;> simp

theorem insert_firstFree (types : row.types = page.schema.types)
    (free : ∃ slot < page.slotTotal, page.row? slot = none) :
    ∃ slot, page.FirstFree slot ∧
      page.insert row = .ok (page.setSlot slot (some row.values), ⟨page.id, slot⟩) := by
  cases found : page.slots.findIdx? Option.isNone with
  | none =>
      obtain ⟨slot, inside, empty⟩ := free
      have full := findIdx?_eq_none_iff_full.mp found slot inside
      simp [empty] at full
  | some slot =>
      refine ⟨slot, firstFree_of_findIdx? found, ?_⟩
      simp only [insert, if_pos types, found, setSlot]

theorem delete_used (here : record.page = page.id) (inside : record.slot < page.slotTotal)
    (used : (page.row? record.slot).isSome) :
    page.delete (some record) = (page.setSlot record.slot none, .ok ()) := by
  have short : record.slot < page.slots.length := inside
  rw [← isUsed_eq_isSome inside] at used
  simp only [delete, if_pos here, if_pos used, if_pos short, setSlot]

theorem delete_free (here : record.page = page.id) (inside : record.slot < page.slotTotal)
    (free : page.row? record.slot = none) :
    page.delete (some record) = (page, .error (.slotEmpty page.id record.slot)) := by
  have unused : ¬ page.isUsed record.slot = true := by simp [isUsed_eq_isSome inside, free]
  simp only [delete, if_pos here, if_neg unused]

theorem delete_elsewhere (elsewhere : record.page ≠ page.id) :
    page.delete (some record) = (page, .error (.foreignPage record.page)) := by
  simp only [delete, if_neg elsewhere]

/-- A call that is refused leaves the page as it was. -/
theorem act_of_error (addresses : action.Addresses page.id page.slotTotal) {error : StoreError}
    (refused : (page.act action).2 = .error error) : (page.act action).1 = page := by
  cases action with
  | insert row =>
      simp only [act] at refused ⊢
      cases inserted : (page.insert row).map Prod.fst with
      | ok changed => simp [inserted, replaceBy] at refused
      | error => rfl
  | delete location =>
      simp only [act] at refused ⊢
      cases location with
      | none => rfl
      | some record =>
          by_cases here : record.page = page.id
          · have inside := addresses record rfl here
            cases held : page.row? record.slot with
            | none => rw [delete_free here inside held]
            | some row =>
                rw [delete_used here inside (by rw [held]; rfl)] at refused
                contradiction
          · rw [delete_elsewhere here]
  | markDirty | keepImage | restore | reload => exact addresses.elim

/-! ## A full page -/

/-- Room for two integers: the first slot is free, and header bits are set that belong to no slot. -/
def pairImage : List UInt8 := [0xFA, 9, 9, 9, 9, 7, 0, 0, 0]

def pairPage : Page :=
  ⟨⟨1, 0⟩, .ofTypes [.int], 9, [none, some [.int 7]], [false, true, true, true, true, true], none, pairImage⟩

def pairRow : Row := ⟨[.int 3], none⟩

theorem built_pairRow : pairRow.Built := ⟨.ofTypes [.int], [.int 3], rfl⟩

end Page

end RowStore
