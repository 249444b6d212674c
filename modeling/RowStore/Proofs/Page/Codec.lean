import RowStore.Page
import RowStore.Proofs.Value.Codec

namespace RowStore

/-! Pages that fit their bytes are read back from their image, and only such pages are read. -/

/-! ## Lengths of the parts -/

theorem length_bitsOfByte (byte : UInt8) : (bitsOfByte byte).length = 8 := by
  rw [bitsOfByte, List.length_map, List.length_range]

theorem length_bitsOfBytes (bytes : List UInt8) : (bitsOfBytes bytes).length = 8 * bytes.length := by
  induction bytes with
  | nil => rfl
  | cons byte rest ih =>
      simp only [bitsOfBytes, List.flatMap_cons, List.length_append, List.length_cons] at ih ⊢
      rw [ih, length_bitsOfByte]
      omega

theorem length_bytesOfBits {bits : List Bool} (whole : 8 ∣ bits.length) :
    8 * (bytesOfBits bits).length = bits.length := by
  rw [← length_bitsOfBytes, bitsOfBytes_bytesOfBits whole]

theorem fitBytes_of_length {size : Nat} {bytes : List UInt8} (exact : bytes.length = size) :
    fitBytes size bytes = bytes := by
  subst exact
  simp [fitBytes]

theorem fitBytes_of_le {size : Nat} {bytes : List UInt8} (short : bytes.length ≤ size) :
    fitBytes size bytes = bytes ++ List.replicate (size - bytes.length) 0 := by
  rw [fitBytes, List.take_of_length_le short]

theorem le_headerSize (slots : Nat) : slots ≤ 8 * headerSize slots := by
  unfold headerSize
  omega

/-! ## Values of a slot -/

/-- What a slot holds is a row of these types. -/
def SlotFits (types : List ColumnType) (slot : Option (List Value)) : Prop :=
  ∀ values, slot = some values → values.map Value.type = types ∧ ∀ value ∈ values, value.Kept

theorem slotFits_none (types : List ColumnType) : SlotFits types none := by
  simp [SlotFits]

variable {types : List ColumnType} {values : List Value} {bytes : List UInt8}

theorem length_encodeEach (fits : values.map Value.type = types) :
    (values.flatMap Value.encode).length = ColumnType.rowWidth types := by
  subst fits
  induction values with
  | nil => rfl
  | cons value values ih =>
      rw [List.flatMap_cons, List.length_append, value.length_encode, ih, List.map_cons, ColumnType.rowWidth]

theorem decodeValues_encode (fits : values.map Value.type = types)
    (kept : ∀ value ∈ values, value.Kept) (rest : List UInt8) :
    decodeValues types (values.flatMap Value.encode ++ rest) = .ok values := by
  induction values generalizing types with
  | nil =>
      subst fits
      rfl
  | cons value values ih =>
      subst fits
      have head := @ColumnType.decode_encode value _ rfl (kept value List.mem_cons_self)
        (values.flatMap Value.encode ++ rest)
      have tail := ih rfl fun other listed => kept other (List.mem_cons_of_mem _ listed)
      rw [List.map_cons, List.flatMap_cons, List.append_assoc, decodeValues, head,
        ← value.length_encode, List.drop_left]
      simp only [tail]

theorem fits_of_decodeValues (read : decodeValues types bytes = .ok values) :
    values.map Value.type = types ∧ ∀ value ∈ values, value.Kept := by
  induction types generalizing values bytes with
  | nil =>
      cases read
      simp
  | cons type types ih =>
      unfold decodeValues at read
      split at read
      · contradiction
      · next value first =>
        split at read
        · contradiction
        · next others more =>
          cases read
          obtain ⟨same, kept⟩ := ColumnType.type_of_decode first
          obtain ⟨rest, keptRest⟩ := ih more
          exact ⟨by rw [List.map_cons, same, rest], List.forall_mem_cons.mpr ⟨kept, keptRest⟩⟩

/-! ## All slots -/

variable {slots : List (Option (List Value))} {rowWidth : Nat}

theorem Page.length_slotBytes {slot : Option (List Value)} (fits : SlotFits types slot)
    (width : rowWidth = ColumnType.rowWidth types) :
    (slotBytes rowWidth slot).length = rowWidth := by
  cases slot with
  | none => exact List.length_replicate
  | some values => rw [slotBytes, length_encodeEach (fits values rfl).1, width]

theorem Page.length_slotsBytes (fits : ∀ slot ∈ slots, SlotFits types slot)
    (width : rowWidth = ColumnType.rowWidth types) :
    (slots.flatMap (slotBytes rowWidth)).length = slots.length * rowWidth := by
  induction slots with
  | nil => simp
  | cons slot slots ih =>
      obtain ⟨first, others⟩ := List.forall_mem_cons.mp fits
      rw [List.flatMap_cons, List.length_append, length_slotBytes first width, ih others,
        List.length_cons, Nat.succ_mul, Nat.add_comm]

theorem decodeSlots_slotBytes (fits : ∀ slot ∈ slots, SlotFits types slot)
    (width : rowWidth = ColumnType.rowWidth types) (rest : List UInt8) :
    decodeSlots types rowWidth (slots.map Option.isSome)
      (slots.flatMap (Page.slotBytes rowWidth) ++ rest) = .ok slots := by
  induction slots with
  | nil => rfl
  | cons slot slots ih =>
      obtain ⟨first, others⟩ := List.forall_mem_cons.mp fits
      have tail := ih others
      have size := Page.length_slotBytes first width
      rw [List.map_cons, List.flatMap_cons, List.append_assoc, decodeSlots]
      have head : (if slot.isSome = true then (decodeValues types (Page.slotBytes rowWidth slot ++
          (slots.flatMap (Page.slotBytes rowWidth) ++ rest))).map some else .ok none) = .ok slot := by
        cases slot with
        | none => rfl
        | some values =>
            obtain ⟨same, kept⟩ := first values rfl
            rw [Option.isSome_some, if_pos rfl, Page.slotBytes, decodeValues_encode same kept]
            rfl
      rw [head, List.drop_left' size]
      simp only [tail]

theorem fits_of_decodeSlots {used : List Bool} (read : decodeSlots types rowWidth used bytes = .ok slots) :
    slots.map Option.isSome = used ∧ ∀ slot ∈ slots, SlotFits types slot := by
  induction used generalizing slots bytes with
  | nil =>
      cases read
      simp
  | cons bit others ih =>
      unfold decodeSlots at read
      split at read
      · contradiction
      · next slot first =>
        split at read
        · contradiction
        · next rest more =>
          cases read
          obtain ⟨bits, fits⟩ := ih more
          have head : slot.isSome = bit ∧ SlotFits types slot := by
            cases bit with
            | false =>
                cases first
                exact ⟨rfl, slotFits_none types⟩
            | true =>
                rw [if_pos rfl] at first
                cases found : decodeValues types bytes with
                | error error => simp [found, Except.map] at first
                | ok values =>
                    simp only [found, Except.map, Except.ok.injEq] at first
                    subst first
                    refine ⟨rfl, fun _ same => ?_⟩
                    cases same
                    exact fits_of_decodeValues found
          exact ⟨by rw [List.map_cons, head.1, bits], List.forall_mem_cons.mpr ⟨head.2, fits⟩⟩

/-! ## Pages -/

namespace Page

variable {page : Page}

/-- The page has as many slots and header bits as its bytes have room for, and every row on it has
the types of its table. -/
structure WellFormed (page : Page) : Prop where
  count : page.slots.length = slotCount page.size page.schema.rowWidth
  header : page.slots.length + page.padding.length = 8 * headerSize page.slots.length
  fits : ∀ slot ∈ page.slots, SlotFits page.schema.types slot

theorem WellFormed.length_headerBits (wellFormed : page.WellFormed) :
    page.headerBits.length = 8 * headerSize page.slots.length := by
  rw [headerBits, List.length_append, List.length_map, wellFormed.header]

theorem WellFormed.whole (wellFormed : page.WellFormed) : 8 ∣ page.headerBits.length :=
  ⟨_, wellFormed.length_headerBits⟩

theorem WellFormed.length_header (wellFormed : page.WellFormed) :
    (bytesOfBits page.headerBits).length = headerSize page.slots.length := by
  have bits := length_bytesOfBits wellFormed.whole
  rw [wellFormed.length_headerBits] at bits
  omega

theorem WellFormed.image_eq (wellFormed : page.WellFormed) :
    ∃ room, page.image = bytesOfBits page.headerBits ++
      (page.slots.flatMap (slotBytes page.schema.rowWidth) ++ List.replicate room 0) := by
  have slots := length_slotsBytes wellFormed.fits rfl
  have short : (bytesOfBits page.headerBits ++
      page.slots.flatMap (slotBytes page.schema.rowWidth)).length ≤ page.size := by
    rw [List.length_append, wellFormed.length_header, wellFormed.count]
    have fit := header_and_slots_fit page.size page.schema.rowWidth
    rw [wellFormed.count] at slots
    exact Nat.le_trans (Nat.add_le_add_left (Nat.le_of_eq slots) _) fit
  exact ⟨_, (fitBytes_of_le short).trans (List.append_assoc _ _ _)⟩

theorem WellFormed.decode_image (wellFormed : page.WellFormed) :
    decode page.id page.schema page.size page.image =
      .ok { page with dirty := none, before := page.image } := by
  obtain ⟨room, shape⟩ := wellFormed.image_eq
  have whole : fitBytes page.size page.image = page.image := fitBytes_of_length (length_fitBytes _ _)
  have size := wellFormed.length_header
  have bits : bitsOfBytes (page.image.take (headerSize page.slots.length)) = page.headerBits := by
    rw [shape, List.take_left' size, bitsOfBytes_bytesOfBits wellFormed.whole]
  have body : page.image.drop (headerSize page.slots.length) =
      page.slots.flatMap (slotBytes page.schema.rowWidth) ++ List.replicate room 0 := by
    rw [shape, List.drop_left' size]
  have used : page.headerBits.take page.slots.length = page.slots.map Option.isSome :=
    List.take_left' (List.length_map _)
  have padding : page.headerBits.drop page.slots.length = page.padding :=
    List.drop_left' (List.length_map _)
  have slots := @decodeSlots_slotBytes _ _ page.schema.rowWidth wellFormed.fits rfl
    (List.replicate room 0)
  simp only [decode, whole, ← wellFormed.count, bits, body, used, padding]
  rw [slots]

/-- Bytes that are no page count as cut at the end, or filled up with zeros. -/
theorem decode_fitBytes (id : PageId) (schema : Schema) (size : Nat) (data : List UInt8) :
    decode id schema size (fitBytes size data) = decode id schema size data := by
  have whole : fitBytes size (fitBytes size data) = fitBytes size data :=
    fitBytes_of_length (length_fitBytes _ _)
  unfold decode
  rw [whole]

theorem of_decode {id : PageId} {schema : Schema} {size : Nat} {data : List UInt8}
    (read : decode id schema size data = .ok page) :
    page.id = id ∧ page.schema = schema ∧ page.size = size ∧ page.dirty = none ∧
      page.before = fitBytes size data ∧ page.WellFormed := by
  simp only [decode] at read
  split at read
  · contradiction
  · next slots found =>
    cases read
    obtain ⟨used, fits⟩ := fits_of_decodeSlots found
    have room := header_and_slots_fit size schema.rowWidth
    have bits : (bitsOfBytes ((fitBytes size data).take (headerSize (slotCount size schema.rowWidth)))).length =
        8 * headerSize (slotCount size schema.rowWidth) := by
      rw [length_bitsOfBytes, List.length_take, length_fitBytes]
      omega
    have enough := le_headerSize (slotCount size schema.rowWidth)
    have count : slots.length = slotCount size schema.rowWidth := by
      rw [← List.length_map (f := Option.isSome), used, List.length_take, bits]
      omega
    refine ⟨rfl, rfl, rfl, rfl, rfl, count, ?_, fits⟩
    rw [count, List.length_drop, bits]
    omega

end Page

end RowStore
