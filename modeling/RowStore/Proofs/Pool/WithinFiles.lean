import RowStore.Proofs.Pool.Open
import RowStore.Proofs.Pool.Steps

namespace RowStore

/-! Pages in memory fit the files of their tables, whoever has them locked.

This asks even less than that changed pages are locked: a client may give up pages at
any time, and drop pages that were changed. What stays is that a file is as long as its
pages, that no two tables share a file, and that a page is marked as changed only where
its file has room for it. So a changed page can always be written, and put back.
-/

namespace Pool

variable {pool middle after : Pool} {tx : TxId} {table : TableId} {id : PageId} {page clean : Page}
variable {pages : List Page} {file : TableFile}

/-- A table file that is at least as long as its pages, and known by its place. -/
structure Fits (disk : Disk) (table : TableId) (file : TableFile) : Prop where
  named : file.id = table
  placed : file.id = TableFile.idOfPlace file.place
  located : disk.Located file.place file.handle
  sized : 0 < file.pageSize
  long : file.pageCount * file.pageSize ≤ (disk.bytes file.handle).length

/-- The page is one of its table, and it is in the file if it was changed. -/
structure PageInFile (pool : Pool) (id : PageId) (page : Page) : Prop where
  restorable : page.Restorable id
  filed : ∃ file, pool.tables.get? id.table = some file ∧ page.size = file.pageSize ∧
    (page.dirty ≠ none → id.number < file.pageCount)

structure WithinFiles (pool : Pool) : Prop where
  locks : pool.locks.Sound
  disk : pool.disk.Sound
  files : ∀ table file, pool.tables.get? table = some file → Fits pool.disk table file
  pages : ∀ id page, pool.cache.get? id = some page → pool.PageInFile id page

theorem WithinFiles.named (inFiles : pool.WithinFiles) : pool.Named :=
  fun id page found => (inFiles.pages id page found).restorable.named

theorem handle_inj {disk : Disk} (sound : disk.Sound) {first second : Place} {handle : Handle}
    (left : disk.Located first handle) (right : disk.Located second handle) : first = second := by
  cases handle with
  | file number => exact sound.apart left right
  | fullDevice => exact Eq.trans left (Eq.symm right)

/-- No two tables share a file. -/
theorem WithinFiles.apart (inFiles : pool.WithinFiles) {other : TableId} {place : TableFile}
    (found : pool.tables.get? table = some file) (known : pool.tables.get? other = some place)
    (same : file.handle = place.handle) : table = other := by
  have left := inFiles.files table file found
  have right := inFiles.files other place known
  have places := handle_inj inFiles.disk left.located (same ▸ right.located)
  rw [← left.named, ← right.named, left.placed, right.placed, places]

theorem Fits.keep {disk : Disk} (fits : Fits pool.disk table file)
    (precedes : Disk.Precedes pool.disk disk)
    (longer : (pool.disk.bytes file.handle).length ≤ (disk.bytes file.handle).length) :
    Fits disk table file :=
  ⟨fits.named, fits.placed, fits.located.keep precedes, fits.sized, Nat.le_trans fits.long longer⟩

/-- A page fits a table also when the table has grown. -/
theorem PageInFile.keep (inFile : pool.PageInFile id page) (grows : Grows pool after) :
    after.PageInFile id page := by
  obtain ⟨file, found, size, inside⟩ := inFile.filed
  obtain ⟨count, more, same⟩ := grows.longer id.table file found
  exact ⟨inFile.restorable, _, same, size, fun dirty => Nat.lt_of_lt_of_le (inside dirty) more⟩

theorem WithinFiles.withLocks (inFiles : pool.WithinFiles) {locks : LockTable} (sound : locks.Sound) :
    WithinFiles { pool with locks } :=
  ⟨sound, inFiles.disk, inFiles.files, fun id page found =>
    (inFiles.pages id page found).keep (Grows.of_same rfl rfl)⟩

theorem WithinFiles.withCache (inFiles : pool.WithinFiles) {cache : FinMap PageId Page}
    (same : ∀ id page, cache.get? id = some page → pool.cache.get? id = some page) :
    WithinFiles { pool with cache } :=
  ⟨inFiles.locks, inFiles.disk, inFiles.files, fun id page found =>
    (inFiles.pages id page (same id page found)).keep (Grows.of_same rfl rfl)⟩

theorem WithinFiles.putPage (inFiles : pool.WithinFiles) (inFile : pool.PageInFile page.id page) :
    (pool.putPage page).WithinFiles := by
  refine ⟨inFiles.locks, inFiles.disk, inFiles.files, fun id other found => ?_⟩
  rw [get?_putPage] at found
  split at found
  · next here =>
    cases found
    exact here ▸ inFile.keep (Grows.of_same rfl rfl)
  · exact (inFiles.pages id other found).keep (Grows.of_same rfl rfl)

theorem WithinFiles.limitWrites (inFiles : pool.WithinFiles) (fail : Bool) (left : Nat) :
    WithinFiles { pool with disk := { pool.disk with failWrites := fail, writesLeft := left } } := by
  refine ⟨inFiles.locks, ⟨inFiles.disk.apart, inFiles.disk.numbered⟩, fun table file found => ?_,
    fun id page found => (inFiles.pages id page found).keep (Grows.of_same rfl rfl)⟩
  have same : ∀ handle, Disk.bytes { pool.disk with failWrites := fail, writesLeft := left } handle =
      pool.disk.bytes handle := fun handle => by cases handle <;> rfl
  exact (inFiles.files table file found).keep (.of_nodes rfl) (Nat.le_of_eq (congrArg List.length (same _)).symm)

/-- Another page in the place of one, changed only if it was. -/
theorem PageInFile.replace (inFile : pool.PageInFile id page) (restorable : clean.Restorable id)
    (size : clean.size = page.size)
    (dirty : clean.dirty ≠ none → page.dirty ≠ none) : pool.PageInFile clean.id clean := by
  obtain ⟨file, found, same, inside⟩ := inFile.filed
  rw [restorable.named]
  exact ⟨restorable, file, found, size.trans same, fun changed => inside (dirty changed)⟩

/-! ## What steps keep -/

theorem WithinFiles.load (inFiles : pool.WithinFiles) (id : PageId) : (pool.load id).1.WithinFiles := by
  unfold Pool.load
  split
  · exact inFiles
  · split
    · exact inFiles
    · next file known =>
      split
      · exact inFiles
      · next page read =>
        obtain ⟨_, _, decoded⟩ := TableFile.of_readPage read
        obtain ⟨named, _, size, unchanged, _⟩ := Page.of_decode decoded
        refine inFiles.putPage ?_
        rw [named]
        exact ⟨Page.restorable_of_decode decoded, file, table?_eq_ok.mp known, size,
          fun changed => absurd unchanged changed⟩

theorem WithinFiles.append (inFiles : pool.WithinFiles) (appended : pool.appendPage id = .ok after) :
    after.WithinFiles := by
  have grows := grows_appendPage appended
  have cache := cache_appendPage appended
  suffices same : after.locks = pool.locks ∧ after.disk.Sound ∧
      ∀ table file, after.tables.get? table = some file → Fits after.disk table file by
    refine ⟨same.1 ▸ inFiles.locks, same.2.1, same.2.2, fun other page found => ?_⟩
    exact (inFiles.pages other page (cache ▸ found)).keep grows
  obtain ⟨file, found, ⟨_, disk, written, rfl⟩ | ⟨_, rfl⟩⟩ := of_appendPage appended
  · have nodes := Disk.Precedes.of_nodes (Disk.of_write written).1
    have longer := Disk.length_of_write written
    refine ⟨rfl, ⟨?_, ?_⟩, fun table other known => ?_⟩
    · rw [(Disk.of_write written).1]
      exact inFiles.disk.apart
    · rw [(Disk.of_write written).1, (Disk.of_write written).2.1]
      exact inFiles.disk.numbered
    · simp only [FinMap.get?_insert] at known
      split at known
      · next same =>
        cases known
        have fits := inFiles.files _ file found
        have reached := (longer file.handle).2 rfl
        rw [List.length_replicate, ← Nat.succ_mul] at reached
        exact ⟨fits.named.trans same.symm, fits.placed, fits.located.keep nodes, fits.sized, reached⟩
      · exact (inFiles.files table other known).keep nodes (longer other.handle).1
  · refine ⟨rfl, inFiles.disk, fun table other known => ?_⟩
    simp only [FinMap.get?_insert] at known
    split at known
    · next same =>
      cases known
      rw [same]
      exact inFiles.files _ file found
    · exact inFiles.files table other known

theorem Step.inFiles (step : Step tx table pool after) (inFiles : pool.WithinFiles) : after.WithinFiles := by
  cases step with
  | request number mode => exact inFiles.withLocks (inFiles.locks.request tx _ mode)
  | release number => exact inFiles.withLocks (inFiles.locks.release tx _)
  | load number => exact inFiles.load _
  | append appended => exact inFiles.append appended
  | @store _ page changed row _ found kept inserted =>
      have inFile := inFiles.pages _ _ found
      obtain ⟨slot, _, types, _, rfl⟩ := Page.of_insert inserted
      have fits : SlotFits page.schema.types (some row.values) := by
        intro values same
        cases same
        exact ⟨types, kept⟩
      exact inFiles.putPage (inFile.replace (inFile.restorable.setSlot fits) rfl fun changed => changed)
  | @free _ page changed location outcome found deleted =>
      have inFile := inFiles.pages _ _ found
      cases outcome with
      | ok =>
          obtain ⟨record, _, _, _, _, rfl⟩ := Page.of_delete deleted
          exact inFiles.putPage
            (inFile.replace (inFile.restorable.setSlot (slotFits_none _)) rfl fun changed => changed)
      | error =>
          obtain ⟨padding, same, rfl⟩ := Page.of_delete_error deleted
          exact inFiles.putPage (inFile.replace (inFile.restorable.setPadding same) rfl fun changed => changed)
  | mark inside =>
      unfold Pool.markDirty
      split
      · next page found =>
        have inFile := inFiles.pages _ _ found
        obtain ⟨file, known, size, _⟩ := inFile.filed
        rw [pageCount_eq known] at inside
        refine inFiles.putPage ?_
        change pool.PageInFile page.id _
        rw [inFile.restorable.named]
        exact ⟨inFile.restorable.markDirty _, file, known, size, fun _ => inside⟩
      · exact inFiles

theorem Steps.inFiles (steps : Steps tx table pool after) (inFiles : pool.WithinFiles) : after.WithinFiles := by
  induction steps with
  | refl => exact inFiles
  | tail _ step ih => exact step.inFiles ih

/-- A file that is registered, or is not since its place has one already, fits. -/
theorem WithinFiles.addTable {opening : Opening} {disk : Disk} (inFiles : pool.WithinFiles)
    (opened : TableFile.openAt pool.disk opening.path opening.schema opening.pageSize = .ok (disk, file)) :
    ({ pool with disk }.addTable file).WithinFiles := by
  obtain ⟨reached, placed, roomy, counted⟩ := TableFile.of_openAt opened
  obtain ⟨sound, precedes, located, bytes⟩ := inFiles.disk.of_openOrCreate reached
  have long : file.pageCount * file.pageSize ≤ (disk.bytes file.handle).length := by
    rw [← congrArg TableFile.pageCount counted]
    exact Nat.div_mul_le_self _ _
  have kept : ∀ {table other}, pool.tables.get? table = some other → Fits disk table other := by
    intro table other known
    have fits := inFiles.files table other known
    exact fits.keep precedes (Nat.le_of_eq (congrArg List.length (bytes _ _ fits.located)).symm)
  refine ⟨inFiles.locks, sound, fun table other known => ?_, fun id page found => ?_⟩
  · rw [get?_addTable] at known
    split at known
    · next same =>
      cases before : pool.tables.get? file.id with
      | none =>
          obtain rfl : file = other := by simpa [before] using known
          exact ⟨same.symm, placed, located, TableFile.pageSize_pos roomy, long⟩
      | some first =>
          obtain rfl : first = other := by simpa [before] using known
          rw [same]
          exact kept before
    · exact kept known
  · obtain ⟨other, known, size, inside⟩ := (inFiles.pages id page found).filed
    refine ⟨(inFiles.pages id page found).restorable, other, ?_, size, inside⟩
    rw [get?_addTable]
    split
    · next same => rw [← same]; simp [known]
    · exact known

end Pool
end RowStore
