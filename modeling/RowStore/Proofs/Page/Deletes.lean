import RowStore.Proofs.Page.SlotMap
import RowStore.Proofs.TableFile

namespace RowStore.Page

/-! Taking a row from a slot, also from one that the page does not have.

The header has whole bytes, so it can have bits past the last slot. They are kept as
they were read. A delete asks the header whether its slot is used, and a bit that
belongs to no slot answers like any other: it is unset, and then the slot is missing.
Such a bit stands in the bytes that the page was first read from, since nothing sets
one later.
-/

variable {page start other : Page} {record : RecordId} {location : Option RecordId} {slot : Nat}
variable {history : List PageEvent} {action : PageAction}

/-- The delete names a header bit that is set and belongs to no slot. -/
def Strays (page : Page) (location : Option RecordId) : Prop :=
  ∃ record, location = some record ∧ record.page = page.id ∧ page.slotTotal ≤ record.slot ∧
    page.isUsed record.slot

/-- The delete names a slot that holds a row. -/
def Stores (page : Page) (location : Option RecordId) : Prop :=
  ∃ record, location = some record ∧ record.page = page.id ∧ (page.row? record.slot).isSome

/-- Why a delete is refused. -/
inductive Refuses (page : Page) : Option RecordId → StoreError → Prop where
  | unplaced : Refuses page none .notStored
  | elsewhere {record : RecordId} (apart : record.page ≠ page.id) :
      Refuses page (some record) (.foreignPage record.page)
  | empty {record : RecordId} (here : record.page = page.id) (unused : page.isUsed record.slot = false) :
      Refuses page (some record) (.slotEmpty page.id record.slot)

/-- The page with a header bit unset that belongs to no slot. -/
def clearPadding (page : Page) (slot : Nat) : Page :=
  { page with padding := page.padding.set (slot - page.slotTotal) false }

/-! ## The cases of a delete -/

theorem slot_lt_of_isSome (held : (page.row? slot).isSome) : slot < page.slotTotal := by
  by_contra past
  simp [row?_eq_none_of_le (Nat.le_of_not_lt past)] at held

theorem Refuses.delete {error : StoreError} (refuses : page.Refuses location error) :
    page.delete location = (page, .error error) := by
  cases refuses with
  | unplaced => rfl
  | elsewhere apart => exact delete_elsewhere apart
  | empty here unused => simp [Page.delete, here, unused]

theorem delete_stored (here : record.page = page.id) (held : (page.row? record.slot).isSome) :
    page.delete (some record) = (page.setSlot record.slot none, .ok ()) :=
  delete_used here (slot_lt_of_isSome held) held

theorem delete_stray (here : record.page = page.id) (past : page.slotTotal ≤ record.slot)
    (set : page.isUsed record.slot) :
    page.delete (some record) = (page.clearPadding record.slot, .error .indexOutOfRange) := by
  have outside : ¬ record.slot < page.slots.length := Nat.not_lt.mpr past
  simp only [Page.delete, if_pos here, if_pos set, if_neg outside, clearPadding, slotTotal]

theorem delete_cases (page : Page) (location : Option RecordId) :
    page.Stores location ∨ page.Strays location ∨ ∃ error, page.Refuses location error := by
  cases location with
  | none => exact .inr (.inr ⟨_, .unplaced⟩)
  | some record =>
      by_cases here : record.page = page.id
      · cases used : page.isUsed record.slot with
        | false => exact .inr (.inr ⟨_, .empty here used⟩)
        | true =>
            by_cases inside : record.slot < page.slotTotal
            · exact .inl ⟨record, rfl, here, by rwa [← isUsed_eq_isSome inside]⟩
            · exact .inr (.inl ⟨record, rfl, here, Nat.le_of_not_lt inside, used⟩)
      · exact .inr (.inr ⟨_, .elsewhere here⟩)

theorem Strays.panics (strays : page.Strays location) :
    (page.delete location).2 = .error .indexOutOfRange := by
  obtain ⟨record, rfl, here, past, set⟩ := strays
  rw [delete_stray here past set]

/-- A delete fails on a missing slot just when it names a stray bit. -/
theorem delete_eq_indexOutOfRange_iff :
    (page.delete location).2 = .error .indexOutOfRange ↔ page.Strays location := by
  refine ⟨fun panics => ?_, Strays.panics⟩
  rcases page.delete_cases location with stores | strays | ⟨error, refuses⟩
  · obtain ⟨record, rfl, here, held⟩ := stores
    rw [delete_stored here held] at panics
    contradiction
  · exact strays
  · rw [refuses.delete] at panics
    cases refuses <;> cases panics

/-! ## What a stray delete changes -/

theorem headerBits_clearPadding (past : page.slotTotal ≤ slot) :
    (page.clearPadding slot).headerBits = page.headerBits.set slot false := by
  have bit : (page.slots.map Option.isSome).length ≤ slot := by rwa [List.length_map]
  simp only [headerBits, clearPadding]
  rw [List.set_append_right _ _ bit, List.length_map, slotTotal]

theorem isUsed_clearPadding (past : page.slotTotal ≤ slot) (bit : Nat) :
    (page.clearPadding slot).isUsed bit = (page.isUsed bit && decide (bit ≠ slot)) := by
  rw [isUsed, isUsed, headerBits_clearPadding past, List.getElem?_set]
  by_cases same : slot = bit
  · subst same
    by_cases inside : slot < page.headerBits.length <;> simp [inside]
  · simp [same, Ne.symm same]

/-- One header bit is unset, and no slot is touched. -/
theorem WellFormed.changes_clearPadding (wellFormed : page.WellFormed) (past : page.slotTotal ≤ slot) :
    Changes slot none page (page.clearPadding slot) := by
  refine ⟨fun bit => ?_, ?_⟩
  · by_cases same : bit = slot
    · rw [if_pos same, same]
      exact row?_eq_none_of_le past
    · rw [if_neg same]
      rfl
  · rw [← bytesOfBits_bitsOfBytes (setHeaderBit page.header slot _), bitsOfBytes_setHeaderBit,
      wellFormed.bitsOfBytes_header, Page.header, headerBits_clearPadding past]
    rfl

/-! ## Where stray bits come from -/

theorem headerBit_of_take {bytes : List UInt8} {count : Nat} (set : headerBit (bytes.take count) slot) :
    headerBit bytes slot := by
  rw [headerBit, List.getElem?_take] at set
  split at set
  · exact set
  · simp at set

theorem headerBit_of_isUsed {id : PageId} {schema : Schema} {size : Nat} {data : List UInt8}
    (read : decode id schema size data = .ok page) (set : page.isUsed slot) :
    headerBit (fitBytes size data) slot := by
  rw [isUsed, headerBits_of_decode read, ← headerBit_eq] at set
  exact headerBit_of_take set

/-- Of the header bits past the last slot, those that are set here are set there. -/
def PaddedBy (start page : Page) : Prop :=
  ∀ slot, start.slotTotal ≤ slot → page.isUsed slot → start.isUsed slot

/-- No stray bit is set on the page, nor in the image that an abort restores, that was not set
at the start. -/
structure Inherits (start page : Page) : Prop where
  total : page.slotTotal = start.slotTotal
  padded : start.PaddedBy page
  kept : ∀ other, page.restored = .ok other → other.slotTotal = start.slotTotal ∧ start.PaddedBy other

theorem restored_of_decode {id : PageId} {schema : Schema} {size : Nat} {data : List UInt8}
    (read : decode id schema size data = .ok page) : page.restored = .ok page := by
  obtain ⟨rfl, rfl, rfl, _, image, _⟩ := of_decode read
  rw [restored, image, decode_fitBytes, read]

theorem Inherits.of_decode {id : PageId} {schema : Schema} {size : Nat} {data : List UInt8}
    (read : decode id schema size data = .ok start) : start.Inherits start := by
  refine ⟨rfl, fun _ _ set => set, fun other again => ?_⟩
  rw [restored_of_decode read] at again
  cases again
  exact ⟨rfl, fun _ _ set => set⟩

theorem Inherits.keep (inherits : start.Inherits page) (total : other.slotTotal = page.slotTotal)
    (bits : ∀ slot, page.slotTotal ≤ slot → other.isUsed slot → page.isUsed slot)
    (image : other.restored = page.restored) : start.Inherits other :=
  ⟨total.trans inherits.total,
    fun slot past set => inherits.padded slot past (bits slot (inherits.total ▸ past) set),
    fun again read => inherits.kept again (image ▸ read)⟩

/-- The page is replaced by the one that its kept image has. -/
theorem Inherits.restore (inherits : start.Inherits page) (read : page.restored = .ok other) :
    start.Inherits other := by
  obtain ⟨total, padded⟩ := inherits.kept other read
  refine ⟨total, padded, fun again same => ?_⟩
  rw [restored_of_decode read] at same
  cases same
  exact ⟨total, padded⟩

theorem Inherits.keepImage (inherits : start.Inherits page) (wellFormed : page.WellFormed) :
    start.Inherits page.keepImage := by
  refine ⟨inherits.total, inherits.padded, fun other read => ?_⟩
  have same := wellFormed.decode_image.symm.trans read
  cases same
  exact ⟨inherits.total, inherits.padded⟩

theorem isUsed_setSlot_of_le {held : Option (List Value)} (inside : slot < page.slotTotal) {bit : Nat}
    (past : page.slotTotal ≤ bit) : (page.setSlot slot held).isUsed bit = page.isUsed bit := by
  rw [isUsed, isUsed, headerBits_setSlot inside, List.getElem?_set, if_neg (by omega)]

theorem Inherits.setSlot (inherits : start.Inherits page) (inside : slot < page.slotTotal)
    (held : Option (List Value)) : start.Inherits (page.setSlot slot held) := by
  refine inherits.keep ?_ (fun bit past set => ?_) rfl
  · rw [slotTotal, Page.setSlot, List.length_set, slotTotal]
  · rwa [isUsed_setSlot_of_le inside past] at set

theorem Inherits.delete (inherits : start.Inherits page) (location : Option RecordId) :
    start.Inherits (page.delete location).1 := by
  rcases page.delete_cases location with stores | strays | ⟨error, refuses⟩
  · obtain ⟨record, rfl, here, held⟩ := stores
    rw [delete_stored here held]
    exact inherits.setSlot (slot_lt_of_isSome held) none
  · obtain ⟨record, rfl, here, past, set⟩ := strays
    rw [delete_stray here past set]
    refine inherits.keep rfl (fun bit _ set => ?_) rfl
    rw [isUsed_clearPadding past, Bool.and_eq_true] at set
    exact set.1
  · rw [refuses.delete]
    exact inherits

theorem Inherits.act (inherits : start.Inherits page) (wellFormed : page.WellFormed) (action : PageAction) :
    start.Inherits (page.act action).1 := by
  cases action with
  | insert row =>
      cases inserted : page.insert row with
      | error error => simpa [Page.act, inserted, Except.map, Page.replaceBy] using inherits
      | ok answer =>
          obtain ⟨slot, free, _, _, changed⟩ := of_insert inserted
          have inside := (List.getElem?_eq_some_iff.mp free).1
          simp only [Page.act, inserted, Except.map, Page.replaceBy, changed]
          exact inherits.setSlot inside _
  | delete location => exact inherits.delete location
  | markDirty owner => exact inherits.keep rfl (fun _ _ set => set) rfl
  | keepImage => exact inherits.keepImage wellFormed
  | restore =>
      cases read : page.restored with
      | error error => simpa [Page.act, read, Page.replaceBy] using inherits
      | ok other => simpa [Page.act, read, Page.replaceBy] using inherits.restore read
  | reload =>
      have image := wellFormed.decode_image
      simp only [Page.act, image, Page.replaceBy]
      exact (inherits.keepImage wellFormed).restore image

theorem Run.inherits (run : Run Builds start history page) (wellFormed : start.WellFormed)
    (inherits : start.Inherits start) : start.Inherits page := by
  induction run with
  | start => exact inherits
  | step before action _ ih =>
      exact ih.act (before.wellFormed (fun _ _ builds => builds) wellFormed).2 action

/-! ## Deletes -/

/-- What a delete does to a page that was first read from these bytes. -/
structure Deletes (bytes : List UInt8) (page : Page) (location : Option RecordId) : Prop where
  /-- The row is taken away, and nothing else changes. -/
  stored : page.Stores location → (page.delete location).2 = .ok () ∧
    ∀ record, location = some record → Changes record.slot none page (page.delete location).1
  refused : ∀ error, page.Refuses location error → page.delete location = (page, .error error)
  /-- Unless a stray bit is named, the delete is accepted or refused. -/
  clean : ¬ page.Strays location → page.Stores location ∨ ∃ error, page.Refuses location error
  past : ¬ page.Strays location → ∀ record, location = some record → record.page = page.id →
    page.slotTotal ≤ record.slot →
    page.delete location = (page, .error (.slotEmpty page.id record.slot))
  panics : (page.delete location).2 = .error .indexOutOfRange ↔ page.Strays location
  /-- A stray bit is unset, so that the same delete is refused from then on. -/
  stray : page.Strays location → ∀ record, location = some record →
    Changes record.slot none page (page.delete location).1 ∧
      (page.delete location).1.delete location =
        ((page.delete location).1, .error (.slotEmpty page.id record.slot))
  /-- A stray bit was there when the page was first read. -/
  source : page.Strays location → ∀ record, location = some record → headerBit bytes record.slot

theorem WellFormed.deletes (wellFormed : page.WellFormed) {bytes : List UInt8}
    (source : ∀ slot, page.slotTotal ≤ slot → page.isUsed slot → headerBit bytes slot)
    (location : Option RecordId) : page.Deletes bytes location where
  stored := by
    rintro ⟨record, rfl, here, held⟩
    rw [delete_stored here held]
    refine ⟨rfl, fun other same => ?_⟩
    cases same
    exact wellFormed.changes_setSlot (slot_lt_of_isSome held) none
  refused := fun _ refuses => refuses.delete
  clean := fun clear => by
    rcases page.delete_cases location with stores | strays | refuses
    · exact .inl stores
    · exact absurd strays clear
    · exact .inr refuses
  past := by
    rintro clear record rfl here past
    refine (Refuses.empty here (Bool.eq_false_iff.mpr fun set => clear ?_)).delete
    exact ⟨record, rfl, here, past, set⟩
  panics := delete_eq_indexOutOfRange_iff
  stray := by
    rintro ⟨record, rfl, here, past, set⟩ other same
    cases same
    rw [delete_stray here past set]
    refine ⟨wellFormed.changes_clearPadding past, ?_⟩
    have unused : (page.clearPadding record.slot).isUsed record.slot = false := by
      rw [isUsed_clearPadding past]
      simp
    exact (@Refuses.empty (page.clearPadding record.slot) _ here unused).delete
  source := by
    rintro ⟨record, rfl, _, past, set⟩ other same
    cases same
    exact source record.slot past set

variable {id : PageId} {schema : Schema} {size : Nat} {data : List UInt8}

/-- Whatever came before, a delete takes one row away or is refused and changes nothing, unless it
names a header bit that belongs to no slot and has been set since the page was first read. -/
theorem deletes_of_run (read : decode id schema size data = .ok start)
    (run : Run Builds start history page) (location : Option RecordId) :
    page.Deletes (fitBytes size data) location := by
  obtain ⟨_, _, _, _, _, wellFormed⟩ := of_decode read
  have inherits := run.inherits wellFormed (.of_decode read)
  have after := (run.wellFormed (fun _ _ builds => builds) wellFormed).2
  refine after.deletes (fun slot past set => ?_) location
  exact headerBit_of_isUsed read (inherits.padded slot (inherits.total ▸ past) set)

/-- A page with two slots whose header has more bits set. -/
theorem deletes_of_pastPair :
    decode ⟨1, 0⟩ (.ofTypes [.int]) 9 pairImage = .ok pairPage ∧
      ∃ page, Run Builds pairPage
          [⟨.delete (some ⟨⟨1, 0⟩, 3⟩), .error .indexOutOfRange⟩, ⟨.insert pairRow, .ok ()⟩] page ∧
        page.Deletes (fitBytes 9 pairImage) (some ⟨⟨1, 0⟩, 4⟩) := by
  have read : decode ⟨1, 0⟩ (.ofTypes [.int]) 9 pairImage = .ok pairPage := by rfl
  have run := ((@Run.start Builds pairPage).answered (.insert pairRow) built_pairRow
    (show _ = .ok () by rfl)).answered (.delete (some ⟨⟨1, 0⟩, 3⟩)) trivial
    (show _ = .error .indexOutOfRange by rfl)
  exact ⟨read, _, run, deletes_of_run read run _⟩

/-- A delete past the last slot fails without an error of its own, and the header has changed. -/
theorem panics_past_pair :
    decode ⟨1, 0⟩ (.ofTypes [.int]) 9 pairImage = .ok pairPage ∧ pairPage.slotTotal = 2 ∧
      (pairPage.delete (some ⟨⟨1, 0⟩, 3⟩)).2 = .error .indexOutOfRange ∧
      (pairPage.delete (some ⟨⟨1, 0⟩, 3⟩)).1.headerBits ≠ pairPage.headerBits := by
  refine ⟨rfl, rfl, rfl, ?_⟩
  decide

end RowStore.Page
