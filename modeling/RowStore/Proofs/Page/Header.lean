import Mathlib.Data.Nat.Bitwise
import RowStore.Page.Bitmap
import RowStore.Proofs.Page.Slots

namespace RowStore

/-! The header of a page as it is packed.

A slot has one bit, the low bit of a byte first. The bits are read and written here
by masks in the bytes of the header, and agree with what the slots of the page hold.
-/

/-- The bit of a slot in the bytes of a header; past the header it is unset. -/
def headerBit (header : List UInt8) (slot : Nat) : Bool :=
  header[slot / 8]?.any fun byte => byte &&& bitMask slot != 0

def setHeaderBit (header : List UInt8) (slot : Nat) (used : Bool) : List UInt8 :=
  header.modify (slot / 8) (maskByte slot used)

theorem hasBit_toArray (header : List UInt8) (slot : Nat) :
    hasBit header.toArray slot = headerBit header slot := by
  rw [hasBit, List.getElem?_toArray, headerBit]

theorem modify_toArray_maskByte (header : List UInt8) (slot : Nat) (used : Bool) :
    header.toArray.modify (slot / 8) (maskByte slot used) = (setHeaderBit header slot used).toArray := by
  rw [List.modify_toArray, setHeaderBit]

/-! ## One byte -/

theorem toNat_bitMask (slot : Nat) : (bitMask slot).toNat = 2 ^ (slot % 8) := by
  have all : ∀ bit : Fin 8, (1 <<< UInt8.ofNat bit.val : UInt8).toNat = 2 ^ bit.val := by decide
  exact all ⟨slot % 8, Nat.mod_lt slot (by decide)⟩

theorem mask_ne_zero (byte : UInt8) (slot : Nat) :
    (byte &&& bitMask slot != 0) = byte.toNat.testBit (slot % 8) := by
  have value : (byte &&& bitMask slot).toNat = (byte.toNat.testBit (slot % 8)).toNat * 2 ^ (slot % 8) := by
    rw [UInt8.toNat_and, toNat_bitMask, Nat.and_two_pow]
  have zero : byte &&& bitMask slot = 0 ↔ byte.toNat.testBit (slot % 8) = false := by
    rw [← UInt8.toNat_inj, value]
    simp
  cases bit : byte.toNat.testBit (slot % 8) with
  | false => simpa using zero.mpr bit
  | true => simpa [bit] using zero

theorem testBit_not (byte : UInt8) {bit : Nat} (inside : bit < 8) :
    (~~~byte).toNat.testBit bit = !byte.toNat.testBit bit := by
  rw [← UInt8.toNat_toBitVec, ← UInt8.toNat_toBitVec, BitVec.testBit_toNat, BitVec.testBit_toNat,
    UInt8.toBitVec_not, BitVec.getLsbD_not]
  simp [inside]

theorem testBit_maskByte (byte : UInt8) (slot : Nat) (used : Bool) {bit : Nat} (inside : bit < 8) :
    (maskByte slot used byte).toNat.testBit bit =
      if slot % 8 = bit then used else byte.toNat.testBit bit := by
  have mask : (bitMask slot).toNat.testBit bit = decide (slot % 8 = bit) := by
    rw [toNat_bitMask, Nat.testBit_two_pow]
  cases used with
  | true =>
      rw [maskByte, if_pos rfl, UInt8.toNat_or, Nat.testBit_or, mask]
      by_cases here : slot % 8 = bit <;> simp [here]
  | false =>
      rw [maskByte, if_neg (by decide), UInt8.toNat_and, Nat.testBit_and, testBit_not _ inside, mask]
      by_cases here : slot % 8 = bit <;> simp [here]

/-! ## All bytes -/

theorem getElem?_bitsOfBytes (bytes : List UInt8) (slot : Nat) :
    (bitsOfBytes bytes)[slot]? = bytes[slot / 8]?.map fun byte => byte.toNat.testBit (slot % 8) := by
  induction bytes generalizing slot with
  | nil => rfl
  | cons byte rest ih =>
      rw [bitsOfBytes] at ih ⊢
      rw [List.flatMap_cons]
      by_cases first : slot < 8
      · rw [List.getElem?_append_left (by rwa [length_bitsOfByte]), Nat.div_eq_of_lt first,
          Nat.mod_eq_of_lt first]
        simp [bitsOfByte, first]
      · rw [List.getElem?_append_right (by rw [length_bitsOfByte]; omega), length_bitsOfByte, ih]
        have next : slot / 8 = (slot - 8) / 8 + 1 := by omega
        have same : slot % 8 = (slot - 8) % 8 := by omega
        rw [next, same, List.getElem?_cons_succ]

theorem headerBit_eq (header : List UInt8) (slot : Nat) :
    headerBit header slot = (bitsOfBytes header)[slot]?.getD false := by
  rw [headerBit, getElem?_bitsOfBytes]
  cases header[slot / 8]? with
  | none => rfl
  | some byte => exact mask_ne_zero byte slot

/-- The bits that are read are those that masks find. -/
theorem take_bitsOfBytes {bytes : List UInt8} {count : Nat} (covered : count ≤ 8 * bytes.length) :
    (bitsOfBytes bytes).take count = (List.range count).map (headerBit bytes) := by
  have enough : ((bitsOfBytes bytes).take count).length = count := by
    rw [List.length_take, length_bitsOfBytes]
    omega
  apply List.ext_getElem
  · rw [enough, List.length_map, List.length_range]
  · intro slot held _
    have inside : slot < (bitsOfBytes bytes).length := by
      rw [List.length_take] at held
      omega
    rw [List.getElem_take, List.getElem_map, List.getElem_range, headerBit_eq,
      List.getElem?_eq_getElem inside, Option.getD_some]

section Image

variable {size rowWidth slot count : Nat} {data : List UInt8}

theorem headerBit_take (inside : slot / 8 < count) :
    headerBit (data.take count) slot = headerBit data slot := by
  rw [headerBit, List.getElem?_take_of_lt inside, headerBit]

/-- A byte that is missing has no bit set. -/
theorem headerBit_fitBytes (inside : slot / 8 < size) :
    headerBit (fitBytes size data) slot = headerBit data slot := by
  simp only [headerBit, fitBytes]
  by_cases held : slot / 8 < data.length
  · rw [List.getElem?_append_left (by rw [List.length_take]; omega), List.getElem?_take_of_lt inside]
  · rw [List.getElem?_append_right (by rw [List.length_take]; omega), List.length_take,
      List.getElem?_replicate_of_lt (by omega), List.getElem?_eq_none (Nat.not_lt.mp held)]
    simp

theorem headerBit_image (inside : slot < slotCount size rowWidth) :
    headerBit ((fitBytes size data).take (headerSize (slotCount size rowWidth))) slot =
      headerBit data slot := by
  have enough := le_headerSize (slotCount size rowWidth)
  have room := header_and_slots_fit size rowWidth
  rw [headerBit_take (by omega), headerBit_fitBytes (by omega)]

end Image

theorem bitsOfBytes_setHeaderBit (header : List UInt8) (slot : Nat) (used : Bool) :
    bitsOfBytes (setHeaderBit header slot used) = (bitsOfBytes header).set slot used := by
  apply List.ext_getElem?
  intro bit
  have inside : bit % 8 < 8 := Nat.mod_lt bit (by decide)
  rw [getElem?_bitsOfBytes, setHeaderBit, List.getElem?_modify, List.getElem?_set, getElem?_bitsOfBytes,
    length_bitsOfBytes]
  by_cases here : slot = bit
  · subst here
    cases found : header[slot / 8]? with
    | none =>
        have outside := List.getElem?_eq_none_iff.mp found
        rw [if_pos rfl, if_neg (by omega)]
        rfl
    | some byte =>
        have short := (List.getElem?_eq_some_iff.mp found).1
        rw [if_pos rfl, if_pos (by omega)]
        simp [testBit_maskByte byte slot used inside]
  · rw [if_neg here]
    cases header[bit / 8]? with
    | none => rfl
    | some byte =>
        by_cases same : slot / 8 = bit / 8
        · have apart : slot % 8 ≠ bit % 8 := by omega
          simp [same, testBit_maskByte byte slot used inside, apart]
        · simp [same]

namespace Page

variable {page : Page}

/-- The bytes that the header bits are packed in. -/
def header (page : Page) : List UInt8 := bytesOfBits page.headerBits

theorem WellFormed.bitsOfBytes_header (wellFormed : page.WellFormed) :
    bitsOfBytes page.header = page.headerBits :=
  bitsOfBytes_bytesOfBits wellFormed.whole

/-- The image of a page begins with its header. -/
theorem WellFormed.take_image (wellFormed : page.WellFormed) :
    page.image.take (headerSize page.slotTotal) = page.header := by
  obtain ⟨room, shape⟩ := wellFormed.image_eq
  rw [shape]
  exact List.take_left' wellFormed.length_header

theorem WellFormed.headerBit_header (wellFormed : page.WellFormed) (slot : Nat) :
    headerBit page.header slot = page.isUsed slot := by
  rw [headerBit_eq, wellFormed.bitsOfBytes_header, isUsed]

theorem headerBits_setSlot {slot : Nat} {held : Option (List Value)} (inside : slot < page.slotTotal) :
    (page.setSlot slot held).headerBits = page.headerBits.set slot held.isSome := by
  have bit : slot < (page.slots.map Option.isSome).length := by rwa [List.length_map]
  simp only [headerBits, setSlot, List.map_set]
  rw [List.set_append_left _ _ bit]

/-- To fill or to free a slot is to set or to unset its bit, and no other. -/
theorem WellFormed.header_setSlot (wellFormed : page.WellFormed) {slot : Nat} {held : Option (List Value)}
    (inside : slot < page.slotTotal) :
    (page.setSlot slot held).header = setHeaderBit page.header slot held.isSome := by
  rw [← bytesOfBits_bitsOfBytes (setHeaderBit page.header slot held.isSome), bitsOfBytes_setHeaderBit,
    wellFormed.bitsOfBytes_header, Page.header, headerBits_setSlot inside]

/-- A page that was read has the header bits of its bytes. -/
theorem headerBits_of_decode {id : PageId} {schema : Schema} {size : Nat} {data : List UInt8}
    (read : decode id schema size data = .ok page) :
    page.headerBits =
      bitsOfBytes ((fitBytes size data).take (headerSize (slotCount size schema.rowWidth))) := by
  simp only [decode] at read
  split at read
  · contradiction
  · next slots found =>
    cases read
    rw [headerBits, (fits_of_decodeSlots found).1, List.take_append_drop]

end Page

end RowStore
