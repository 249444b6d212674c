import RowStore.Proofs.Page.SlotMap

namespace RowStore

/-! Which bytes are read as an empty page.

The page that a file does not have yet is read from the bytes that follow its last page.
Only the header bits of its slots say whether a row stands there: bytes that are missing
count as zeros, and what lies beyond the header of a free slot is passed over.
-/

variable {size slot count : Nat} {data : List UInt8}

namespace Page

variable {id : PageId} {schema : Schema} {page : Page}

theorem slotTotal_decode (read : decode id schema size data = .ok page) :
    page.slotTotal = slotCount size schema.rowWidth := by
  obtain ⟨_, rfl, rfl, _, _, wellFormed⟩ := of_decode read
  exact wellFormed.count

/-- A slot of a page that was read holds a row if its header bit is set. -/
theorem isSome_row?_decode (read : decode id schema size data = .ok page)
    (inside : slot < slotCount size schema.rowWidth) :
    (page.row? slot).isSome = headerBit data slot := by
  rw [← isUsed_eq_isSome (slotTotal_decode read ▸ inside), isUsed, headerBits_of_decode read, ← headerBit_eq,
    headerBit_image inside]

theorem decode_vacant (unset : ∀ slot < slotCount size schema.rowWidth, headerBit data slot = false) :
    ∃ page, decode id schema size data = .ok page ∧
      page.slots = List.replicate (slotCount size schema.rowWidth) none := by
  have enough := le_headerSize (slotCount size schema.rowWidth)
  have room := header_and_slots_fit size schema.rowWidth
  have free : (bitsOfBytes ((fitBytes size data).take (headerSize (slotCount size schema.rowWidth)))).take
      (slotCount size schema.rowWidth) = List.replicate (slotCount size schema.rowWidth) false := by
    rw [take_bitsOfBytes (by rw [List.length_take, length_fitBytes]; omega), List.eq_replicate_iff]
    refine ⟨by rw [List.length_map, List.length_range], fun bit listed => ?_⟩
    obtain ⟨slot, inside, rfl⟩ := List.mem_map.mp listed
    rw [headerBit_image (List.mem_range.mp inside), unset slot (List.mem_range.mp inside)]
  simp only [decode, free, decodeSlots_free]
  exact ⟨_, rfl, rfl⟩

theorem headerBit_zeros (count slot : Nat) : headerBit (List.replicate count 0) slot = false := by
  rw [headerBit, List.getElem?_replicate]
  split <;> simp

/-- A page of zeros can be read, and every slot of it is free. -/
theorem decode_zeros (id : PageId) (schema : Schema) (size : Nat) :
    ∃ page, decode id schema size (List.replicate size 0) = .ok page ∧
      page.slots = List.replicate (slotCount size schema.rowWidth) none :=
  decode_vacant fun slot _ => headerBit_zeros size slot

theorem row?_of_replicate (free : page.slots = List.replicate count none) (slot : Nat) :
    page.row? slot = none := by
  rw [row?, free, List.getElem?_replicate]
  split <;> rfl

/-- Bytes are read as an empty page just if no header bit of a slot is set in them. -/
theorem vacant_iff : (∃ page, decode id schema size data = .ok page ∧ ∀ slot, page.row? slot = none) ↔
    ∀ slot < slotCount size schema.rowWidth, headerBit data slot = false := by
  constructor
  · rintro ⟨page, read, free⟩ slot inside
    rw [← isSome_row?_decode read inside, free]
    rfl
  · intro unset
    obtain ⟨page, read, free⟩ := @decode_vacant size data id schema unset
    exact ⟨page, read, row?_of_replicate free⟩

end Page

end RowStore
