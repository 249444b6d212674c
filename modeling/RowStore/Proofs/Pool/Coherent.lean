import RowStore.Pool
import RowStore.Proofs.Lock.Sound
import RowStore.Proofs.Page.Slots
import RowStore.Proofs.TableFile

namespace RowStore.Pool

/-! When the pages in memory, the files and the locks of a pool agree.

A page in memory remembers the bytes that its file holds for it. Unless a
transaction changed it, it holds what these bytes say; and a transaction that
changed it has it locked to write.
-/

variable {pool after : Pool} {tx : TxId} {id : PageId} {page : Page} {file : TableFile}

/-- Tables are known by their numbers, their files are made of whole pages, and no two of them
share a file. -/
structure Filed (disk : Disk) (tables : FinMap TableId TableFile) : Prop where
  named : ∀ {table file}, tables.get? table = some file → file.id = table
  sized : ∀ {table file}, tables.get? table = some file → 0 < file.pageSize
  whole : ∀ {table file}, tables.get? table = some file → file.Whole disk
  apart : ∀ {table other file place}, tables.get? table = some file → tables.get? other = some place →
    file.handle = place.handle → table = other

/-- A page in memory agrees with its file and with its lock. -/
structure Agrees (pool : Pool) (id : PageId) (page : Page) : Prop where
  named : page.id = id
  wellFormed : page.WellFormed
  filed : ∃ file, pool.tables.get? id.table = some file ∧ page.schema = file.schema ∧
    page.size = file.pageSize ∧ id.number ≤ file.pageCount ∧
    page.before = file.stored pool.disk id.number
  restored : ∃ image, page.restored = .ok image ∧ (page.dirty = none → image.slots = page.slots)
  locked : ∀ tx, page.dirty = some tx →
    pool.locks.lockOn id = ⟨some .exclusive, [tx]⟩ ∧ id.number < pool.pageCount id.table

structure Coherent (pool : Pool) : Prop where
  locks : pool.locks.Sound
  files : Filed pool.disk pool.tables
  agrees : ∀ id page, pool.cache.get? id = some page → pool.Agrees id page

/-! ## What changes of a pool leave alone -/

theorem table?_eq_ok {table : TableId} : pool.table? table = .ok file ↔ pool.tables.get? table = some file := by
  unfold table?
  split <;> simp [*]

theorem pageCount_eq {table : TableId} (found : pool.tables.get? table = some file) :
    pool.pageCount table = file.pageCount := by
  simp [pageCount, found]

theorem get?_putPage (pool : Pool) (page : Page) (id : PageId) :
    (pool.putPage page).cache.get? id = if id = page.id then some page else pool.cache.get? id :=
  pool.cache.get?_insert page.id id page

/-- The tables are the same, but their files can be longer. -/
structure Grows (pool after : Pool) : Prop where
  missing : ∀ table, pool.tables.get? table = none → after.tables.get? table = none
  longer : ∀ table file, pool.tables.get? table = some file → ∃ count, file.pageCount ≤ count ∧
    after.tables.get? table = some { file with pageCount := count }
  nodes : after.disk.nodes = pool.disk.nodes

theorem Grows.of_same (tables : after.tables = pool.tables) (nodes : after.disk.nodes = pool.disk.nodes) :
    Grows pool after := by
  refine ⟨fun table missing => ?_, fun table file found => ⟨file.pageCount, Nat.le_refl _, ?_⟩, nodes⟩
  · rw [tables, missing]
  · rw [tables, found]

theorem Grows.trans {last : Pool} (first : Grows pool after) (second : Grows after last) :
    Grows pool last := by
  refine ⟨fun table missing => second.missing table (first.missing table missing),
    fun table file found => ?_, second.nodes.trans first.nodes⟩
  obtain ⟨count, more, middle⟩ := first.longer table file found
  obtain ⟨last, further, final⟩ := second.longer table _ middle
  exact ⟨last, Nat.le_trans more further, final⟩

theorem Grows.pageCount_le (grows : Grows pool after) (table : TableId) :
    pool.pageCount table ≤ after.pageCount table := by
  cases found : pool.tables.get? table with
  | none => simp [pageCount, found]
  | some file =>
      obtain ⟨count, more, same⟩ := grows.longer table file found
      rwa [pageCount_eq found, pageCount_eq same]

/-- The bytes of a page are the same. -/
def KeepsBytes (pool after : Pool) (id : PageId) : Prop :=
  ∀ file, pool.tables.get? id.table = some file →
    file.stored after.disk id.number = file.stored pool.disk id.number

theorem KeepsBytes.of_same (disk : after.disk = pool.disk) (id : PageId) : KeepsBytes pool after id := by
  intro file _
  rw [disk]

theorem KeepsBytes.trans {last : Pool} (first : KeepsBytes pool after id) (grows : Grows pool after)
    (second : KeepsBytes after last id) : KeepsBytes pool last id := by
  intro file found
  obtain ⟨_, _, middle⟩ := grows.longer id.table file found
  exact (second _ middle).trans (first file found)

theorem Agrees.keep (agrees : pool.Agrees id page) (grows : Grows pool after)
    (bytes : KeepsBytes pool after id)
    (locks : ∀ tx, page.dirty = some tx → after.locks.lockOn id = pool.locks.lockOn id) :
    after.Agrees id page := by
  obtain ⟨file, found, schema, size, bound, before⟩ := agrees.filed
  obtain ⟨count, more, same⟩ := grows.longer id.table file found
  refine ⟨agrees.named, agrees.wellFormed, ⟨_, same, schema, size, Nat.le_trans bound more, ?_⟩,
    agrees.restored, fun tx dirty => ?_⟩
  · rw [before, ← bytes file found]
    rfl
  · obtain ⟨lock, inside⟩ := agrees.locked tx dirty
    exact ⟨(locks tx dirty).trans lock, Nat.lt_of_lt_of_le inside (grows.pageCount_le id.table)⟩

theorem Coherent.keep (coherent : pool.Coherent) (grows : Grows pool after)
    (bytes : ∀ id, KeepsBytes pool after id) (files : Filed after.disk after.tables)
    (sound : after.locks.Sound)
    (pages : ∀ id page, after.cache.get? id = some page → after.Agrees id page ∨
      pool.cache.get? id = some page ∧
        ∀ tx, page.dirty = some tx → after.locks.lockOn id = pool.locks.lockOn id) :
    after.Coherent := by
  refine ⟨sound, files, fun id page found => ?_⟩
  rcases pages id page found with agrees | ⟨before, locks⟩
  · exact agrees
  · exact (coherent.agrees id page before).keep grows (bytes id) locks

theorem Coherent.putPage (coherent : pool.Coherent) (agrees : pool.Agrees page.id page) :
    (pool.putPage page).Coherent := by
  refine coherent.keep (Grows.of_same rfl rfl) (KeepsBytes.of_same rfl) coherent.files coherent.locks
    fun id other found => ?_
  rw [get?_putPage] at found
  split at found
  · next same =>
    subst same
    cases found
    exact Or.inl (agrees.keep (Grows.of_same rfl rfl) (KeepsBytes.of_same rfl _) fun _ _ => rfl)
  · exact Or.inr ⟨found, fun _ _ => rfl⟩

theorem Coherent.withLocks (coherent : pool.Coherent) {locks : LockTable} (sound : locks.Sound)
    (keeps : ∀ id page tx, pool.cache.get? id = some page → page.dirty = some tx →
      locks.lockOn id = pool.locks.lockOn id) : Coherent { pool with locks } :=
  coherent.keep (Grows.of_same rfl rfl) (KeepsBytes.of_same rfl) coherent.files sound fun id page found =>
    Or.inr ⟨found, fun tx => keeps id page tx found⟩

theorem Coherent.withCache (coherent : pool.Coherent) {cache : FinMap PageId Page}
    (same : ∀ id page, cache.get? id = some page → pool.cache.get? id = some page) :
    Coherent { pool with cache } :=
  coherent.keep (Grows.of_same rfl rfl) (KeepsBytes.of_same rfl) coherent.files coherent.locks fun id page found =>
    Or.inr ⟨same id page found, fun _ _ => rfl⟩

/-! ## Reading a page -/

/-- A page that was just read agrees with its file; nobody changed it. -/
theorem agrees_of_readPage (found : pool.tables.get? id.table = some file)
    (read : file.readPage pool.disk id = .ok page) : pool.Agrees id page ∧ page.dirty = none := by
  obtain ⟨_, bound, decoded⟩ := TableFile.of_readPage read
  obtain ⟨same, schema, size, clean, before, wellFormed⟩ := Page.of_decode decoded
  rw [fitBytes_of_length TableFile.length_stored] at before
  refine ⟨⟨same, wellFormed, ⟨file, found, schema, size, bound, before⟩, ⟨page, ?_, fun _ => rfl⟩, ?_⟩,
    clean⟩
  · rw [Page.restored, same, schema, size, before, decoded]
  · simp [clean]

/-! ## Growing a file -/

theorem of_appendPage (appended : pool.appendPage id = .ok after) :
    ∃ file, pool.tables.get? id.table = some file ∧
      ((id.number = file.pageCount ∧ ∃ disk,
        pool.disk.write file.handle (file.pageCount * file.pageSize)
          (List.replicate file.pageSize 0) = .ok disk ∧
        after = { pool with
          disk, tables := pool.tables.insert id.table { file with pageCount := file.pageCount + 1 } }) ∨
      (id.number ≠ file.pageCount ∧
        after = { pool with tables := pool.tables.insert id.table file })) := by
  unfold appendPage at appended
  split at appended
  · contradiction
  · next file found =>
    refine ⟨file, table?_eq_ok.mp found, ?_⟩
    unfold TableFile.appendPage at appended
    split at appended
    · contradiction
    · next disk grown outcome =>
      cases appended
      split at outcome
      · next here =>
        rw [here] at outcome
        split at outcome
        · contradiction
        · next written =>
          cases outcome
          exact Or.inl ⟨here, _, written, rfl⟩
      · next elsewhere =>
        cases outcome
        exact Or.inr ⟨elsewhere, rfl⟩

/-- A table file whose length is another reads the same. -/
structure Resizes (disk changed : Disk) (file : TableFile) (count : Nat) : Prop where
  whole : TableFile.Whole { file with pageCount := count } changed
  longer : file.pageCount ≤ count
  stored : ∀ number, file.stored changed number = file.stored disk number
  others : ∀ handle, handle ≠ file.handle → changed.bytes handle = disk.bytes handle
  nodes : changed.nodes = disk.nodes

section Resizes

variable {changed : Disk} {table : TableId} {count : Nat}

theorem Filed.resize (files : Filed pool.disk pool.tables) (found : pool.tables.get? table = some file)
    (resizes : Resizes pool.disk changed file count) :
    Filed changed (pool.tables.insert table { file with pageCount := count }) := by
  refine ⟨fun {other place} known => ?_, fun {other place} known => ?_, fun {other place} known => ?_,
    fun {first second left right} known likewise same => ?_⟩
  · rw [FinMap.get?_insert] at known
    split at known
    · next here =>
      cases known
      exact (files.named found).trans here.symm
    · exact files.named known
  · rw [FinMap.get?_insert] at known
    split at known
    · cases known
      exact @Filed.sized _ _ files table file found
    · exact files.sized known
  · rw [FinMap.get?_insert] at known
    split at known
    · cases known
      exact resizes.whole
    · next differs =>
      rw [TableFile.Whole, resizes.others _ fun same => differs (files.apart known found same)]
      exact files.whole known
  · rw [FinMap.get?_insert] at known likewise
    split at known
    · next here =>
      cases known
      split at likewise
      · next there => rw [here, there]
      · rw [here]
        exact files.apart found likewise same
    · split at likewise
      · next there =>
        cases likewise
        rw [there]
        exact files.apart known found same
      · exact files.apart known likewise same

theorem Filed.keepsBytes (files : Filed pool.disk pool.tables)
    (found : pool.tables.get? table = some file) (resizes : Resizes pool.disk changed file count)
    (id : PageId) : KeepsBytes pool { pool with
      disk := changed, tables := pool.tables.insert table { file with pageCount := count } } id := by
  intro known knows
  by_cases here : id.table = table
  · rw [here, found] at knows
    cases knows
    exact resizes.stored id.number
  · exact TableFile.stored_congr rfl
      (resizes.others _ fun equal => here (files.apart knows found equal))

end Resizes

theorem grows_insert {table : TableId} {disk : Disk} {count : Nat}
    (found : pool.tables.get? table = some file) (longer : file.pageCount ≤ count)
    (nodes : disk.nodes = pool.disk.nodes) :
    Grows pool { pool with disk, tables := pool.tables.insert table { file with pageCount := count } } := by
  refine ⟨fun other missing => ?_, fun other known knows => ?_, nodes⟩
  · have differs : other ≠ table := by
      rintro rfl
      simp [found] at missing
    exact (FinMap.get?_insert_of_ne _ _ differs).trans missing
  · by_cases same : other = table
    · subst same
      rw [found] at knows
      cases knows
      exact ⟨count, longer, FinMap.get?_insert_self _ _ _⟩
    · exact ⟨known.pageCount, Nat.le_refl _, (FinMap.get?_insert_of_ne _ _ same).trans knows⟩

theorem grows_appendPage (appended : pool.appendPage id = .ok after) : Grows pool after := by
  obtain ⟨file, found, ⟨_, disk, written, rfl⟩ | ⟨_, rfl⟩⟩ := of_appendPage appended
  · exact grows_insert found (Nat.le_succ _) (Disk.of_write written).1
  · exact @grows_insert _ file _ _ file.pageCount found (Nat.le_refl _) rfl

theorem lt_pageCount_of_appendPage (appended : pool.appendPage id = .ok after)
    (bound : id.number ≤ pool.pageCount id.table) : id.number < after.pageCount id.table := by
  obtain ⟨file, found, ⟨here, _, _, rfl⟩ | ⟨elsewhere, rfl⟩⟩ := of_appendPage appended
  · rw [pageCount_eq (FinMap.get?_insert_self _ _ _), here]
    exact Nat.lt_succ_self _
  · rw [pageCount_eq found] at bound
    rw [pageCount_eq (FinMap.get?_insert_self _ _ _)]
    omega

/-- A file that grows holds the same for every page; the page that it grew by is then in it. -/
theorem Coherent.append (coherent : pool.Coherent) (appended : pool.appendPage id = .ok after) :
    after.Coherent ∧ Grows pool after ∧ (∀ other, KeepsBytes pool after other) ∧
      after.cache = pool.cache ∧ after.locks = pool.locks ∧
      after.disk.failWrites = pool.disk.failWrites ∧
      (id.number ≤ pool.pageCount id.table → id.number < after.pageCount id.table) := by
  have grows := grows_appendPage appended
  have inside := lt_pageCount_of_appendPage appended
  have finish : ∀ {file disk count}, pool.tables.get? id.table = some file →
      Resizes pool.disk disk file count → after = { pool with
        disk, tables := pool.tables.insert id.table { file with pageCount := count } } →
      after.Coherent ∧ ∀ other, KeepsBytes pool after other := by
    rintro file disk count found resizes rfl
    have bytes := coherent.files.keepsBytes found resizes
    exact ⟨coherent.keep grows bytes (coherent.files.resize found resizes) coherent.locks
      fun _ _ listed => Or.inr ⟨listed, fun _ _ => rfl⟩, bytes⟩
  obtain ⟨file, found, ⟨_, disk, written, rfl⟩ | ⟨_, rfl⟩⟩ := of_appendPage appended
  · obtain ⟨length, stored⟩ := TableFile.of_append (coherent.files.whole found) written
    obtain ⟨nodes, _, accepts, bytes⟩ := Disk.of_write written
    have resizes : Resizes pool.disk disk file (file.pageCount + 1) :=
      ⟨length, Nat.le_succ _, stored, fun handle differs => (bytes handle).trans (if_neg differs), nodes⟩
    obtain ⟨sound, keeps⟩ := finish found resizes rfl
    exact ⟨sound, grows, keeps, rfl, rfl, accepts, inside⟩
  · obtain ⟨sound, keeps⟩ := finish found ⟨coherent.files.whole found, Nat.le_refl _,
      fun _ => rfl, fun _ _ => rfl, rfl⟩ rfl
    exact ⟨sound, grows, keeps, rfl, rfl, rfl, inside⟩

end RowStore.Pool
