import RowStore.Proofs.Page.Slots

namespace RowStore

/-! Histories of a page in memory.

A page that was read from bytes is changed row by row, marked, and put back to its
image. Whatever came before, its image can be read, and the page that is read has
the same rows at the same slots, the same header and the same image.
-/

/-- What happens to a page. -/
inductive PageAction where
  | insert (row : Row)
  | delete (location : Option RecordId)
  | markDirty (owner : Option TxId)
  | keepImage
  /-- The page is put back to the image that was kept. -/
  | restore
  /-- The page is written and read again. -/
  | reload

structure PageEvent where
  action : PageAction
  result : Except StoreError Unit

namespace Page

variable {page start other : Page} {action : PageAction} {event : PageEvent}
variable {history newer older : List PageEvent}
variable {allowed : Page → PageAction → Prop} {id : PageId} {schema : Schema} {size : Nat}
variable {data : List UInt8}

/-- The page in place of this one; a page that cannot be had changes nothing. -/
def replaceBy (page : Page) : Except StoreError Page → Page × Except StoreError Unit
  | .ok other => (other, .ok ())
  | .error error => (page, .error error)

def act (page : Page) : PageAction → Page × Except StoreError Unit
  | .insert row => page.replaceBy ((page.insert row).map Prod.fst)
  | .delete location => page.delete location
  | .markDirty owner => (page.markDirty owner, .ok ())
  | .keepImage => (page.keepImage, .ok ())
  | .restore => page.replaceBy page.restored
  | .reload => page.replaceBy (decode page.id page.schema page.size page.image)

/-- The histories of a page under allowed actions, with the page that each leads to. The newest
event comes first. -/
inductive Run (allowed : Page → PageAction → Prop) (start : Page) : List PageEvent → Page → Prop where
  | start : Run allowed start [] start
  | step {history : List PageEvent} {page : Page} (before : Run allowed start history page)
      (action : PageAction) (permitted : allowed page action) :
      Run allowed start (⟨action, (page.act action).2⟩ :: history) (page.act action).1

theorem Run.last (run : Run allowed start (event :: history) page) :
    ∃ before, Run allowed start history before ∧ allowed before event.action ∧
      event.result = (before.act event.action).2 ∧ page = (before.act event.action).1 := by
  generalize whole : event :: history = events at run
  cases run with
  | start => contradiction
  | @step earlier before ran action permitted =>
      obtain ⟨rfl, rfl⟩ := List.cons_eq_cons.mp whole
      exact ⟨before, ran, permitted, rfl, rfl⟩

theorem Run.earlier (run : Run allowed start (newer ++ older) page) :
    ∃ before, Run allowed start older before := by
  induction newer generalizing page with
  | nil => exact ⟨page, run⟩
  | cons event newer ih =>
      obtain ⟨_, before, _⟩ := run.last
      exact ih before

/-- A history leads to one page only. -/
theorem Run.unique (run : Run allowed start history page) (same : Run allowed start history other) :
    page = other := by
  induction run generalizing other with
  | start =>
      generalize none : ([] : List PageEvent) = events at same
      cases same with
      | start => rfl
      | step => contradiction
  | step _ action _ ih =>
      obtain ⟨_, before, _, _, rfl⟩ := same.last
      rw [ih before]

/-- The rows that are put on the page were built. -/
def Builds (_ : Page) : PageAction → Prop
  | .insert row => row.Built
  | _ => True

/-- A page that has the place, the schema and the size of another. -/
structure Alike (page other : Page) : Prop where
  id : other.id = page.id
  schema : other.schema = page.schema
  size : other.size = page.size

theorem Alike.refl (page : Page) : Alike page page := ⟨rfl, rfl, rfl⟩

theorem Alike.trans {middle after : Page} (first : Alike page middle) (second : Alike middle after) :
    Alike page after :=
  ⟨second.id.trans first.id, second.schema.trans first.schema, second.size.trans first.size⟩

theorem alike_of_decode
    (read : decode page.id page.schema page.size data = .ok other) : Alike page other ∧ other.WellFormed := by
  obtain ⟨id, schema, size, _, _, wellFormed⟩ := of_decode read
  exact ⟨⟨id, schema, size⟩, wellFormed⟩

theorem WellFormed.replaceBy (wellFormed : page.WellFormed) {other : Except StoreError Page}
    (fits : ∀ page', other = .ok page' → Alike page page' ∧ page'.WellFormed) :
    Alike page (page.replaceBy other).1 ∧ (page.replaceBy other).1.WellFormed := by
  cases other with
  | ok page' => exact fits page' rfl
  | error error => exact ⟨Alike.refl page, wellFormed⟩

theorem WellFormed.insert (wellFormed : page.WellFormed) {row : Row} (kept : row.Kept)
    {changed : Page} {record : RecordId} (inserted : page.insert row = .ok (changed, record)) :
    Alike page changed ∧ changed.WellFormed := by
  obtain ⟨slot, _, types, _, rfl⟩ := of_insert inserted
  refine ⟨⟨rfl, rfl, rfl⟩, wellFormed.setSlot fun values same => ?_⟩
  cases same
  exact ⟨types, kept⟩

theorem WellFormed.delete (wellFormed : page.WellFormed) (location : Option RecordId) :
    Alike page (page.delete location).1 ∧ (page.delete location).1.WellFormed := by
  cases deleted : page.delete location with
  | mk changed result =>
      cases result with
      | ok =>
          obtain ⟨record, _, _, _, _, rfl⟩ := of_delete deleted
          exact ⟨⟨rfl, rfl, rfl⟩, wellFormed.setSlot (slotFits_none _)⟩
      | error error =>
          obtain ⟨padding, same, rfl⟩ := of_delete_error deleted
          exact ⟨⟨rfl, rfl, rfl⟩, wellFormed.setPadding same⟩

theorem WellFormed.act (wellFormed : page.WellFormed) (builds : page.Builds action) :
    Alike page (page.act action).1 ∧ (page.act action).1.WellFormed := by
  cases action with
  | insert row =>
      refine wellFormed.replaceBy fun changed same => ?_
      cases inserted : page.insert row with
      | error error => simp [inserted, Except.map] at same
      | ok answer =>
          rw [inserted] at same
          cases same
          exact wellFormed.insert builds.kept inserted
  | delete location => exact wellFormed.delete location
  | markDirty owner => exact ⟨⟨rfl, rfl, rfl⟩, wellFormed.markDirty owner⟩
  | keepImage => exact ⟨⟨rfl, rfl, rfl⟩, wellFormed.count, wellFormed.header, wellFormed.fits⟩
  | restore => exact wellFormed.replaceBy fun _ read => alike_of_decode read
  | reload => exact wellFormed.replaceBy fun _ read => alike_of_decode read

theorem Run.answered (before : Run allowed start history page) (action : PageAction)
    (permitted : allowed page action) {result : Except StoreError Unit}
    (same : (page.act action).2 = result) :
    Run allowed start (⟨action, result⟩ :: history) (page.act action).1 := by
  subst same
  exact before.step action permitted

theorem Run.wellFormed (run : Run allowed start history page)
    (builds : ∀ page action, allowed page action → page.Builds action) (wellFormed : start.WellFormed) :
    Alike start page ∧ page.WellFormed := by
  induction run with
  | start => exact ⟨Alike.refl start, wellFormed⟩
  | step before action permitted ih =>
      obtain ⟨alike, wellFormed⟩ := ih
      obtain ⟨next, after⟩ := wellFormed.act (builds _ _ permitted)
      exact ⟨alike.trans next, after⟩

/-- Whatever rows were put on a page and taken from it, it is read back from its image as it is. -/
theorem decode_image_of_run (read : decode id schema size data = .ok start)
    (run : Run Builds start history page) :
    page.image.length = size ∧ ∃ again, decode id schema size page.image = .ok again ∧
      again.headerBits = page.headerBits ∧ again.slots = page.slots ∧ again.rows = page.rows ∧
      again.image = page.image := by
  obtain ⟨rfl, rfl, rfl, _, _, wellFormed⟩ := of_decode read
  obtain ⟨⟨sameId, sameSchema, sameSize⟩, wellFormed⟩ := run.wellFormed (fun _ _ builds => builds) wellFormed
  rw [← sameId, ← sameSchema, ← sameSize]
  exact ⟨length_fitBytes _ _, _, wellFormed.decode_image, rfl, rfl, rfl, rfl⟩

/-! ## Stray bytes -/

/-- A page with room for two texts. The first slot says that its text is longer than texts can be;
the second is free but not blank; header bits are set that belong to no slot. -/
def strayImage : List UInt8 :=
  0xFD :: ([200, 0, 0, 0] ++ List.replicate 128 97 ++ List.replicate 135 238)

def strayPage : Page :=
  ⟨⟨1, 0⟩, .ofTypes [.text], 268, [some [.text (String.ofList (List.replicate 128 'a'))], none],
    List.replicate 6 true, none, strayImage⟩

/-- The last character of the text that this row was built from had no room. -/
def cutRow : Row := ⟨[.text (String.ofList (List.replicate 127 'b'))], none⟩

set_option maxRecDepth 8192 in
theorem built_cutRow : cutRow.Built :=
  ⟨.ofTypes [.text], [.text (String.ofList (List.replicate 127 'b' ++ ['é']))], rfl⟩

set_option maxRecDepth 8192 in
theorem decode_image_of_strayImage :
    decode ⟨1, 0⟩ (.ofTypes [.text]) 268 strayImage = .ok strayPage ∧
      ∃ page, Run Builds strayPage
          [⟨.delete (some ⟨⟨1, 0⟩, 0⟩), .ok ()⟩, ⟨.insert cutRow, .ok ()⟩] page ∧
        page.image.length = 268 ∧ ∃ again, decode ⟨1, 0⟩ (.ofTypes [.text]) 268 page.image = .ok again ∧
          again.headerBits = page.headerBits ∧ again.slots = page.slots ∧ again.rows = page.rows ∧
          again.image = page.image := by
  have read : decode ⟨1, 0⟩ (.ofTypes [.text]) 268 strayImage = .ok strayPage := by rfl
  have run := ((@Run.start Builds strayPage).answered (.insert cutRow) built_cutRow
    (show _ = .ok () by rfl)).answered (.delete (some ⟨⟨1, 0⟩, 0⟩)) trivial (show _ = .ok () by rfl)
  exact ⟨read, _, run, decode_image_of_run read run⟩

end Page

end RowStore
