import RowStore.Proofs.Pool.Spares
import RowStore.Proofs.Pool.Tail

namespace RowStore.Pool

/-! What everybody finds in a table after a row was put into it.

The row stands in the slot that it was put into, and every other slot of every page is
as it was, in memory and in the files. This is said of pages as they are had, from
memory or else from their files, so it does not matter which pages were read meanwhile.
-/

variable {pool middle after : Pool} {tx : TxId} {table : TableId} {id : PageId} {page changed : Page}
variable {row : Row} {record other : RecordId} {number count : Nat} {file : TableFile}

/-- The row that a slot holds, of the page as it is had. -/
def row? (pool : Pool) (record : RecordId) : Option Row :=
  match (pool.load record.page).2 with
  | .done page => page.row? record.slot
  | _ => none

theorem row?_eq (loaded : (pool.load record.page).2 = .done page) :
    pool.row? record = page.row? record.slot := by
  rw [row?, loaded]

theorem row?_congr (same : (after.load record.page).2 = (pool.load record.page).2) :
    after.row? record = pool.row? record := by
  rw [row?, row?, same]

/-- A page that is in memory as before, or in its file as before, is had as before. -/
theorem load_of_pageBytes (cache : after.cache.get? id = pool.cache.get? id)
    (known : pool.tables.get? id.table = some file)
    (reached : after.tables.get? id.table = some { file with pageCount := count })
    (inside : id.number < file.pageCount) (longer : file.pageCount ≤ count)
    (bytes : after.pageBytes id = pool.pageBytes id) : (after.load id).2 = (pool.load id).2 := by
  rw [pageBytes_eq known, pageBytes_eq reached] at bytes
  have read : TableFile.readPage { file with pageCount := count } after.disk id = file.readPage pool.disk id := by
    simp only [TableFile.readPage, bytes]
    rw [if_pos (Nat.le_of_lt inside), if_pos (Nat.le_trans (Nat.le_of_lt inside) longer)]
  simp only [Pool.load, cache, table?_eq_ok.mpr known, table?_eq_ok.mpr reached, read]
  split
  · rfl
  · split <;> rfl

theorem exists_of_lt_pageCount (inside : number < pool.pageCount table) :
    ∃ file, pool.tables.get? table = some file ∧ number < file.pageCount := by
  cases known : pool.tables.get? table with
  | none => simp [Pool.pageCount, known] at inside
  | some file => exact ⟨file, rfl, pageCount_eq known ▸ inside⟩

/-! ## Putting a row -/

/-- A page with a row is in memory, changed by a transaction, and its image is read as what it is. -/
def Images (pool : Pool) (tx : TxId) (row : Row) (record : RecordId) : Prop :=
  ∃ page again, pool.cache.get? record.page = some page ∧ page.dirty = some tx ∧
    Page.decode page.id page.schema page.size page.image = .ok again ∧ again.slots = page.slots ∧
      again.row? record.slot = some ⟨row.values, some record⟩

/-- A row was put into a slot of the first page with a free slot, and nothing else shows a change. -/
structure Receives (tx : TxId) (row : Row) (record : RecordId) (pool after : Pool) : Prop where
  page : ∃ page, (pool.load record.page).2 = .done page ∧ page.id = record.page ∧
    page.FirstFree record.slot ∧ row.types = page.schema.types ∧
    after.cache.get? record.page = some ((page.setSlot record.slot (some row.values)).markDirty (some tx))
  others : ∀ id, id ≠ record.page → id.number < pool.pageCount id.table → (after.load id).2 = (pool.load id).2
  bytes : ∀ id, id.number < pool.pageCount id.table → after.pageBytes id = pool.pageBytes id
  bound : record.page.number ≤ pool.pageCount record.page.table
  counts : ∀ table, after.pageCount table =
    if table = record.page.table ∧ record.page.number = pool.pageCount record.page.table then
      record.page.number + 1
    else pool.pageCount table

section Put

variable (inFiles : pool.WithinFiles) (tails : pool.TailsAsStored)
variable (puts : Puts table row number page changed pool after)
include inFiles tails puts

/-- A file keeps its handle and the bytes of its pages. -/
theorem Puts.keeps (known : pool.tables.get? id.table = some file) (inside : id.number < file.pageCount) :
    ∃ count, after.tables.get? id.table = some { file with pageCount := count } ∧ file.pageCount ≤ count ∧
      after.pageBytes id = pool.pageBytes id := by
  rcases Nat.lt_or_eq_of_le puts.bound with within | past
  · obtain ⟨disk, tables⟩ := puts.lengthens.kept within
    have same := (tables id.table).trans known
    exact ⟨file.pageCount, same, Nat.le_refl _, pageBytes_of_bytes known same (by rw [disk])⟩
  · obtain ⟨grown, registered, ends⟩ := puts.lengthens.ends inFiles tails past
    by_cases here : id.table = table
    · rw [here, registered] at known
      cases known
      have reached := here.symm ▸ ends.known
      refine ⟨number + 1, reached, ?_, ?_⟩
      · rw [ends.count]
        exact Nat.le_succ number
      · rw [@pageBytes_eq pool id file (here.symm ▸ registered), pageBytes_eq reached]
        exact ends.before id.number (ends.count ▸ inside)
    · have same : after.tables.get? id.table = some file := by
        obtain ⟨_, _, _, _, _, tables⟩ := puts.lengthens.grown past
        rw [tables, if_neg here, known]
      exact ⟨file.pageCount, same, Nat.le_refl _, pageBytes_of_bytes known same (ends.others _ _ here known)⟩

theorem Puts.pageBytes (inside : id.number < pool.pageCount id.table) :
    after.pageBytes id = pool.pageBytes id := by
  obtain ⟨file, known, within⟩ := exists_of_lt_pageCount inside
  obtain ⟨_, _, _, bytes⟩ := puts.keeps inFiles tails known within
  exact bytes

theorem Puts.load_of_ne (differs : id ≠ ⟨table, number⟩) (inside : id.number < pool.pageCount id.table) :
    (after.load id).2 = (pool.load id).2 := by
  obtain ⟨file, known, within⟩ := exists_of_lt_pageCount inside
  obtain ⟨count, reached, longer, bytes⟩ := puts.keeps inFiles tails known within
  exact load_of_pageBytes ((puts.cache id).trans (if_neg differs)) known reached within longer bytes

end Put

/-- An insert that is done has put its row into a page that it came to by full pages only. -/
theorem InsertEffect.receives {held : PageId → LockMode → Prop} {ahead strays : List Nat} {result : InsertOutcome}
    (effect : InsertEffect tx table row (Page.markDirty · (some tx)) held ahead strays pool result)
    (tails : pool.TailsAsStored) (done : result.2 = .done number) :
    ∃ slot passed, Receives tx row ⟨⟨table, number⟩, slot⟩ pool result.1 ∧
      (∀ other ∈ passed, pool.FullAt ⟨table, other⟩) ∧
      passed ++ [number] <+: ahead ++ [pool.pageCount table] := by
  cases effect with
  | failed | parked => contradiction
  | @put passed _ slot page middle _ inFiles reads full order owns first puts =>
      cases done
      have trailed := (tails.reads reads).tails
      have count := reads.pageCount
      have named := inFiles.named _ page puts.found
      have cached := (puts.cache _).trans (if_pos rfl)
      refine ⟨slot, passed, ⟨⟨page, ?_, named, first, puts.types, cached⟩, fun id differs inside => ?_,
        fun id inside => ?_, count table ▸ puts.bound, fun other => ?_⟩, full, order⟩
      · exact reads.loaded _ page puts.found
      · rw [← reads.load]
        exact puts.load_of_ne inFiles trailed differs (count id.table ▸ inside)
      · rw [puts.pageBytes inFiles trailed (count id.table ▸ inside)]
        exact pageBytes_congr reads.tables reads.disk
      · rw [puts.lengthens.pageCount puts.bound, count, count]

namespace Receives

variable (receives : Receives tx row record pool after)
include receives

theorem loaded : ∃ page, (pool.load record.page).2 = .done page ∧ page.id = record.page ∧
    page.FirstFree record.slot ∧
    (after.load record.page).2 = .done ((page.setSlot record.slot (some row.values)).markDirty (some tx)) := by
  obtain ⟨page, before, named, first, _, cached⟩ := receives.page
  exact ⟨page, before, named, first, loaded_of_cached cached⟩

/-- On the page that got the row, the row is found where it was put, and the others where they were. -/
theorem row?_page (slot : Nat) : after.row? ⟨record.page, slot⟩ =
    if slot = record.slot then some ⟨row.values, some record⟩ else pool.row? ⟨record.page, slot⟩ := by
  obtain ⟨page, before, named, first, loaded⟩ := receives.loaded
  have stored := @Page.row?_setSlot page record.slot (some row.values) first.1 slot
  rw [named] at stored
  rw [@row?_eq _ _ ⟨record.page, slot⟩ loaded, @row?_eq _ _ ⟨record.page, slot⟩ before]
  exact stored

theorem row?_of_ne (differs : other ≠ record)
    (inside : other.page = record.page ∨ other.page.number < pool.pageCount other.page.table) :
    after.row? other = pool.row? other := by
  by_cases here : other.page = record.page
  · have slot : other.slot ≠ record.slot := fun same => differs (by
      cases other
      cases record
      simp_all)
    have found := receives.row?_page other.slot
    rwa [if_neg slot, ← here] at found
  · exact row?_congr (receives.others other.page here (inside.resolve_left here))

/-- The image of the page, as it is written to the file, is read with the row. -/
theorem images (inFiles : after.WithinFiles) : after.Images tx row record := by
  obtain ⟨page, before, named, first, _, cached⟩ := receives.page
  have restorable := (inFiles.pages _ _ cached).restorable
  refine ⟨_, _, cached, rfl, restorable.wellFormed.decode_image, rfl, ?_⟩
  have stored := @Page.row?_setSlot page record.slot (some row.values) first.1 record.slot
  rw [if_pos rfl, named] at stored
  exact stored

end Receives

end RowStore.Pool
