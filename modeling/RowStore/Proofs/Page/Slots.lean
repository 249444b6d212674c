import RowStore.Proofs.Page.Codec

namespace RowStore.Page

/-! What an insert and a delete do to the slots of a page. -/

variable {page changed : Page} {row : Row} {record : RecordId} {location : Option RecordId}

def setSlot (page : Page) (slot : Nat) (held : Option (List Value)) : Page :=
  { page with slots := page.slots.set slot held }

theorem of_insert (inserted : page.insert row = .ok (changed, record)) :
    ∃ slot, page.slots[slot]? = some none ∧ row.types = page.schema.types ∧
      record = ⟨page.id, slot⟩ ∧ changed = page.setSlot slot (some row.values) := by
  unfold insert at inserted
  split at inserted
  · next types =>
    split at inserted
    · next slot found =>
      cases inserted
      obtain ⟨inside, free, _⟩ := List.findIdx?_eq_some_iff_getElem.mp found
      refine ⟨slot, ?_, types, rfl, rfl⟩
      rw [List.getElem?_eq_getElem inside]
      simpa using free
    · contradiction
  · contradiction

theorem of_delete (deleted : page.delete location = (changed, .ok ())) :
    ∃ record values, location = some record ∧ record.page = page.id ∧
      page.slots[record.slot]? = some (some values) ∧ changed = page.setSlot record.slot none := by
  unfold delete at deleted
  split at deleted
  · simp at deleted
  · next record =>
    split at deleted
    · next here =>
      split at deleted
      · next used =>
        split at deleted
        · next inside =>
          have slot : page.headerBits[record.slot]? = some page.slots[record.slot].isSome := by
            rw [headerBits, List.getElem?_append_left (by simpa using inside)]
            simp [inside]
          simp only [isUsed, slot, Option.getD_some] at used
          obtain ⟨values, found⟩ := Option.isSome_iff_exists.mp used
          refine ⟨record, values, rfl, here, ?_, (Prod.mk.inj deleted).1.symm⟩
          rw [List.getElem?_eq_getElem inside, found]
        · simp at deleted
      · simp at deleted
    · simp at deleted

/-- A delete that fails can unset a header bit that belongs to no slot. -/
theorem of_delete_error {error : StoreError} (failed : page.delete location = (changed, .error error)) :
    ∃ padding, padding.length = page.padding.length ∧ changed = { page with padding } := by
  unfold delete at failed
  split at failed
  · exact ⟨page.padding, rfl, (Prod.mk.inj failed).1.symm⟩
  · split at failed
    · split at failed
      · split at failed
        · simp at failed
        · exact ⟨_, List.length_set, (Prod.mk.inj failed).1.symm⟩
      · exact ⟨page.padding, rfl, (Prod.mk.inj failed).1.symm⟩
    · exact ⟨page.padding, rfl, (Prod.mk.inj failed).1.symm⟩

theorem WellFormed.setSlot (wellFormed : page.WellFormed) {slot : Nat} {held : Option (List Value)}
    (fits : SlotFits page.schema.types held) : (page.setSlot slot held).WellFormed := by
  refine ⟨?_, ?_, fun other listed => ?_⟩
  · rw [Page.setSlot, List.length_set]
    exact wellFormed.count
  · rw [Page.setSlot, List.length_set]
    exact wellFormed.header
  · rcases List.mem_or_eq_of_mem_set listed with before | same
    · exact wellFormed.fits other before
    · rw [same]
      exact fits

theorem WellFormed.setPadding (wellFormed : page.WellFormed) {padding : List Bool}
    (same : padding.length = page.padding.length) : WellFormed { page with padding } :=
  ⟨wellFormed.count, (congrArg _ same).trans wellFormed.header, wellFormed.fits⟩

theorem WellFormed.markDirty (wellFormed : page.WellFormed) (owner : Option TxId) :
    (page.markDirty owner).WellFormed :=
  ⟨wellFormed.count, wellFormed.header, wellFormed.fits⟩

theorem WellFormed.keepImage (wellFormed : page.WellFormed) :
    ((page.markDirty none).keepImage).WellFormed :=
  ⟨wellFormed.count, wellFormed.header, wellFormed.fits⟩

theorem decodeSlots_free (types : List ColumnType) (rowWidth count : Nat) (bytes : List UInt8) :
    decodeSlots types rowWidth (List.replicate count false) bytes = .ok (List.replicate count none) := by
  induction count generalizing bytes with
  | zero => rfl
  | succ count ih =>
      rw [List.replicate_succ, decodeSlots]
      simp only [Bool.false_eq_true, if_false, ih]
      rfl

/-- Pages that hold the same at every slot have the same rows. -/
theorem rows_congr {other : Page} (id : page.id = other.id) (slots : page.slots = other.slots) :
    page.rows = other.rows := by
  rw [rows, rows, id, slots]

end RowStore.Page
