import RowStore.Proofs.Page.Deletes

namespace RowStore

/-! What a page is put back to.

Beside its rows a page keeps bytes: those that it was read from, or its image at a later
time. Inserts and deletes leave them alone. So a page can always be put back to them,
and comes back as it was when they were kept.
-/

/-- After the action the bytes that the page keeps are those of its rows. -/
def PageAction.saves : PageAction → Bool
  | .insert _ | .delete _ | .markDirty _ => false
  | .keepImage | .restore | .reload => true

namespace Page

variable {page start saved other : Page} {action : PageAction} {event : PageEvent}
variable {history newer older : List PageEvent}
variable {id : PageId} {schema : Schema} {size : Nat} {data : List UInt8}

/-! ## The bytes that a page keeps -/

theorem restored_congr (alike : Alike page other) (image : other.before = page.before) :
    other.restored = page.restored := by
  rw [restored, restored, alike.id, alike.schema, alike.size, image]

theorem before_act (idle : action.saves = false) (page : Page) :
    Alike page (page.act action).1 ∧ (page.act action).1.before = page.before := by
  cases action with
  | insert row =>
      cases inserted : page.insert row with
      | error error => simpa [Page.act, inserted, Except.map, Page.replaceBy] using Alike.refl page
      | ok answer =>
          obtain ⟨slot, _, _, _, changed⟩ := of_insert inserted
          simp only [Page.act, inserted, Except.map, Page.replaceBy, changed]
          exact ⟨⟨rfl, rfl, rfl⟩, rfl⟩
  | delete location =>
      cases deleted : page.delete location with
      | mk changed result =>
          cases result with
          | ok =>
              obtain ⟨record, _, _, _, _, rfl⟩ := of_delete deleted
              rw [Page.act, deleted]
              exact ⟨⟨rfl, rfl, rfl⟩, rfl⟩
          | error error =>
              obtain ⟨padding, _, rfl⟩ := of_delete_error deleted
              rw [Page.act, deleted]
              exact ⟨⟨rfl, rfl, rfl⟩, rfl⟩
  | markDirty owner => exact ⟨⟨rfl, rfl, rfl⟩, rfl⟩
  | keepImage | restore | reload => contradiction

/-- The page is the one that the bytes it keeps hold, but for its mark. -/
def Saved (page : Page) : Prop := page.restored = .ok (page.markDirty none)

theorem saved_of_decode (read : decode id schema size data = .ok page) : page.Saved := by
  obtain ⟨_, _, _, clean, _⟩ := of_decode read
  have unmarked : page.markDirty none = page := by rw [markDirty, ← clean]
  rw [Saved, unmarked]
  exact restored_of_decode read

theorem WellFormed.saved_keepImage (wellFormed : page.WellFormed) : page.keepImage.Saved :=
  wellFormed.decode_image

/-- What saves a page is done, as long as the bytes that the page keeps can be read. -/
theorem saved_act (wellFormed : page.WellFormed) (readable : ∃ before, page.restored = .ok before)
    (saves : action.saves = true) : (page.act action).2 = .ok () ∧ (page.act action).1.Saved := by
  cases action with
  | insert | delete | markDirty => contradiction
  | keepImage => exact ⟨rfl, wellFormed.saved_keepImage⟩
  | restore =>
      obtain ⟨before, read⟩ := readable
      simp only [Page.act, read, Page.replaceBy]
      exact ⟨trivial, saved_of_decode read⟩
  | reload =>
      have image := wellFormed.decode_image
      simp only [Page.act, image, Page.replaceBy]
      exact ⟨trivial, saved_of_decode image⟩

/-- The bytes that a page keeps can be read at any time. -/
theorem Run.restored_exists (run : Run Builds start history page) (wellFormed : start.WellFormed)
    (saved : start.Saved) : ∃ before, page.restored = .ok before := by
  induction run with
  | start => exact ⟨_, saved⟩
  | step before action _ ih =>
      cases saves : action.saves with
      | false =>
          obtain ⟨alike, image⟩ := before_act saves _
          rw [restored_congr alike image]
          exact ih
      | true =>
          have fits := (before.wellFormed (fun _ _ builds => builds) wellFormed).2
          exact ⟨_, (saved_act fits ih saves).2⟩

theorem Run.saves (run : Run Builds start (event :: history) page) (wellFormed : start.WellFormed)
    (saved : start.Saved) (saves : event.action.saves = true) : event.result = .ok () ∧ page.Saved := by
  obtain ⟨before, ran, _, answered, rfl⟩ := run.last
  have fits := (ran.wellFormed (fun _ _ builds => builds) wellFormed).2
  rw [answered]
  exact saved_act fits (ran.restored_exists wellFormed saved) saves

/-! ## The page that was saved last -/

/-- The page as it was when it was last read, or its image was last kept. -/
def SavedAs (start : Page) (history : List PageEvent) (saved : Page) : Prop :=
  ∃ later earlier, history = later ++ earlier ∧ Run Builds start earlier saved ∧
    (∀ event ∈ later, event.action.saves = false) ∧ ∀ event ∈ earlier.head?, event.action.saves = true

theorem Run.exists_savedAs (run : Run Builds start history page) : ∃ saved, SavedAs start history saved := by
  induction run with
  | start => exact ⟨start, [], [], rfl, .start, by simp, by simp⟩
  | step before action permitted ih =>
      cases saves : action.saves with
      | false =>
          obtain ⟨saved, later, earlier, rfl, ran, since, last⟩ := ih
          exact ⟨saved, _ :: later, earlier, rfl, ran, List.forall_mem_cons.mpr ⟨saves, since⟩, last⟩
      | true => exact ⟨_, [], _, rfl, before.step action permitted, by simp, by simpa using saves⟩

/-- Between two savings a page keeps its bytes. -/
theorem Run.keeps (run : Run Builds start (newer ++ older) page) (ran : Run Builds start older saved)
    (since : ∀ event ∈ newer, event.action.saves = false) :
    Alike saved page ∧ page.before = saved.before := by
  induction newer generalizing page with
  | nil =>
      obtain rfl := run.unique ran
      exact ⟨Alike.refl _, rfl⟩
  | cons event newer ih =>
      obtain ⟨idle, since⟩ := List.forall_mem_cons.mp since
      obtain ⟨before, past, _, _, rfl⟩ := run.last
      obtain ⟨alike, image⟩ := ih past since
      obtain ⟨next, same⟩ := before_act idle before
      exact ⟨alike.trans next, same.trans image⟩

/-- Whatever was put on a page and taken from it, it can be put back to the bytes that it keeps, and
is then as it was when it was last read or its image was last kept. -/
theorem restored_of_run (read : decode id schema size data = .ok start)
    (run : Run Builds start history page) :
    (∀ event ∈ history, event.action.saves = true → event.result = .ok ()) ∧
    (∃ saved, SavedAs start history saved) ∧
    ∀ saved, SavedAs start history saved →
      ∃ before, page.restored = .ok before ∧ before.dirty = none ∧ before.before = page.before ∧
        (∀ slot, before.isUsed slot = saved.isUsed slot ∧ before.row? slot = saved.row? slot) ∧
        before.rows = saved.rows := by
  obtain ⟨_, _, _, _, _, wellFormed⟩ := of_decode read
  have first : start.Saved := saved_of_decode read
  refine ⟨fun event listed saves => ?_, run.exists_savedAs, ?_⟩
  · obtain ⟨later, earlier, rfl⟩ := List.append_of_mem listed
    obtain ⟨_, ran⟩ := run.earlier
    exact (ran.saves wellFormed first saves).1
  · rintro saved ⟨later, earlier, rfl, ran, since, last⟩
    have whole : saved.Saved := by
      cases earlier with
      | nil =>
          obtain rfl := ran.unique .start
          exact first
      | cons event earlier => exact (ran.saves wellFormed first (last event rfl)).2
    obtain ⟨alike, image⟩ := run.keeps ran since
    exact ⟨saved.markDirty none, (restored_congr alike image).trans whole, rfl, image.symm,
      fun _ => ⟨rfl, rfl⟩, rfl⟩

/-- A row is put on the page, whose image is kept; then the other row is taken away. The newest event
comes first. -/
def pairHistory : List PageEvent :=
  [⟨.delete (some ⟨⟨1, 0⟩, 1⟩), .ok ()⟩, ⟨.keepImage, .ok ()⟩, ⟨.insert pairRow, .ok ()⟩]

theorem restored_of_pair :
    decode ⟨1, 0⟩ (.ofTypes [.int]) 9 pairImage = .ok pairPage ∧
      ∃ page saved : Page, Run Builds pairPage pairHistory page ∧ SavedAs pairPage pairHistory saved ∧
        page.rows.length = 1 ∧ saved.rows.length = 2 ∧
        ∃ before, page.restored = .ok before ∧ before.dirty = none ∧ before.before = page.before ∧
          (∀ slot, before.isUsed slot = saved.isUsed slot ∧ before.row? slot = saved.row? slot) ∧
          before.rows = saved.rows := by
  have read : decode ⟨1, 0⟩ (.ofTypes [.int]) 9 pairImage = .ok pairPage := by rfl
  have kept := ((@Run.start Builds pairPage).answered (.insert pairRow) built_pairRow
    (show _ = .ok () by rfl)).answered .keepImage trivial (show _ = .ok () by rfl)
  have run := kept.answered (.delete (some ⟨⟨1, 0⟩, 1⟩)) trivial (show _ = .ok () by rfl)
  have saved : SavedAs pairPage pairHistory _ :=
    ⟨[⟨.delete (some ⟨⟨1, 0⟩, 1⟩), .ok ()⟩], _, rfl, kept, by simp [PageAction.saves],
      by simp [PageAction.saves]⟩
  exact ⟨read, _, _, run, saved, rfl, rfl, (restored_of_run read run).2.2 _ saved⟩

end Page

end RowStore
