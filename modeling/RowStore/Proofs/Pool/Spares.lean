import RowStore.Proofs.Pool.Apart
import RowStore.Proofs.Pool.Ending
import RowStore.Proofs.Pool.Scan

namespace RowStore.Pool

/-! What is done to one table shows in no other one.

A table is spared when its file, its pages in memory and the bytes of its pages are left
as they are. Then a scan reads the same rows, so far as locks let it.
-/

variable {pool middle after : Pool} {tx : TxId} {table other : TableId} {id : PageId} {page : Page}
variable {file : TableFile} {owner : Option TxId}

/-- Nothing of a table was changed, in memory or in its file. -/
structure Spares (table : TableId) (pool after : Pool) : Prop where
  file : after.tables.get? table = pool.tables.get? table
  cache : ∀ number, after.cache.get? ⟨table, number⟩ = pool.cache.get? ⟨table, number⟩
  bytes : ∀ number, after.pageBytes ⟨table, number⟩ = pool.pageBytes ⟨table, number⟩

theorem Spares.refl (table : TableId) (pool : Pool) : Spares table pool pool :=
  ⟨rfl, fun _ => rfl, fun _ => rfl⟩

theorem Spares.trans (early : Spares table pool middle) (late : Spares table middle after) :
    Spares table pool after :=
  ⟨late.file.trans early.file, fun number => (late.cache number).trans (early.cache number),
    fun number => (late.bytes number).trans (early.bytes number)⟩

theorem Spares.of_disk (tables : after.tables = pool.tables) (disk : after.disk = pool.disk)
    (cache : ∀ number, after.cache.get? ⟨table, number⟩ = pool.cache.get? ⟨table, number⟩) :
    Spares table pool after :=
  ⟨by rw [tables], cache, fun _ => pageBytes_congr tables disk⟩

theorem Spares.pageCount (spares : Spares table pool after) : after.pageCount table = pool.pageCount table := by
  rw [Pool.pageCount, Pool.pageCount, spares.file]

/-! ## Steps on another table -/

/-- A file that keeps its handle and its bytes keeps the bytes of its pages. -/
theorem pageBytes_of_bytes (known : pool.tables.get? id.table = some file)
    (same : after.tables.get? id.table = some file)
    (bytes : after.disk.bytes file.handle = pool.disk.bytes file.handle) :
    after.pageBytes id = pool.pageBytes id := by
  rw [pageBytes_eq known, pageBytes_eq same, Disk.read, Disk.read, bytes]

theorem pageBytes_of_missing (known : pool.tables.get? id.table = none)
    (same : after.tables.get? id.table = none) : after.pageBytes id = pool.pageBytes id := by
  simp only [pageBytes, known, same]

theorem WithinFiles.spares_append (inFiles : pool.WithinFiles) (apart : table ≠ id.table)
    (appended : pool.appendPage id = .ok after) : Spares table pool after := by
  have cache := cache_appendPage appended
  obtain ⟨file, found, grown⟩ := of_appendPage appended
  have same : after.tables.get? table = pool.tables.get? table := by
    obtain ⟨_, _, _, rfl⟩ | ⟨_, rfl⟩ := grown <;> exact FinMap.get?_insert_of_ne _ _ apart
  have bytes : ∀ handle, handle ≠ file.handle → after.disk.bytes handle = pool.disk.bytes handle := by
    intro handle differs
    obtain ⟨_, _, written, rfl⟩ | ⟨_, rfl⟩ := grown
    · exact ((Disk.of_write written).2.2.2 handle).trans (if_neg differs)
    · rfl
  refine ⟨same, fun number => by rw [cache], fun number => ?_⟩
  cases known : pool.tables.get? table with
  | none => exact pageBytes_of_missing known (same.trans known)
  | some place =>
      exact pageBytes_of_bytes known (same.trans known)
        (bytes place.handle fun equal => apart (inFiles.apart known found equal))

theorem Step.spares (step : Step tx other pool after) (inFiles : pool.WithinFiles) (apart : table ≠ other) :
    Spares table pool after := by
  have cache : ∀ number, after.cache.get? ⟨table, number⟩ = pool.cache.get? ⟨table, number⟩ :=
    fun number => step.get?_of_ne inFiles.named apart
  cases step with
  | request | release | store | free => exact Spares.of_disk rfl rfl cache
  | load => exact Spares.of_disk (tables_load _ _) (disk_load _ _) cache
  | append appended => exact inFiles.spares_append apart appended
  | mark => exact Spares.of_disk (tables_markDirty _ _ _) (disk_markDirty _ _ _) cache

theorem Steps.spares (steps : Steps tx other pool after) (inFiles : pool.WithinFiles) (apart : table ≠ other) :
    Spares table pool after := by
  induction steps with
  | refl => exact Spares.refl table pool
  | tail before step ih => exact ih.trans (step.spares (Steps.inFiles before inFiles) apart)

/-- Registering a file leaves the other tables alone. -/
theorem WithinFiles.spares_addTable (inFiles : pool.WithinFiles) {opening : Opening} {disk : Disk}
    {known : TableFile}
    (opened : TableFile.openAt pool.disk opening.path opening.schema opening.pageSize = .ok (disk, file))
    (found : pool.tables.get? table = some known) :
    Spares table pool ({ pool with disk }.addTable file) := by
  obtain ⟨reached, _⟩ := TableFile.of_openAt opened
  obtain ⟨_, _, _, bytes⟩ := inFiles.disk.of_openOrCreate reached
  have same : ({ pool with disk }.addTable file).tables.get? table = some known := by
    rw [get?_addTable]
    split
    · next here => rw [← here, found, Option.getD_some]
    · exact found
  exact ⟨same.trans found.symm, fun _ => rfl, fun number =>
    pageBytes_of_bytes found same (bytes _ _ (inFiles.files _ known found).located)⟩

/-! ## Writing and completing -/

/-- No page of the table is a changed one of the owner, or of anybody. -/
def Untouched (pool : Pool) (owner : Option TxId) (table : TableId) : Prop :=
  ∀ number page, pool.cache.get? ⟨table, number⟩ = some page → ¬ Owned owner page

theorem Spares.untouched (spares : Spares table pool after) (untouched : pool.Untouched owner table) :
    after.Untouched owner table := fun number page found =>
  untouched number page ((spares.cache number).symm.trans found)

theorem Ended.spares (ended : Ended tx pool after) (untouched : pool.Untouched (some tx) table) :
    Spares table pool after := by
  have others := fun number => ended.others ⟨table, number⟩ fun page found dirty =>
    untouched number page found ⟨tx, dirty, fun _ same => Option.some.inj same⟩
  exact ⟨by rw [ended.tables], fun number => (others number).1, fun number => (others number).2⟩

theorem WithinFiles.spares_flush (inFiles : pool.WithinFiles) (untouched : pool.Untouched owner table) :
    Spares table pool (pool.flushEach (pool.dirtyPages owner)).1 ∧
      (pool.flushEach (pool.dirtyPages owner)).1.WithinFiles := by
  obtain ⟨written, left, split, flushes, _⟩ := inFiles.flushEach (inFiles.named.listed owner)
  have foreign : ∀ number, (⟨table, number⟩ : PageId) ∉ written.map Page.id := by
    intro number listed
    obtain ⟨page, member, named⟩ := List.mem_map.mp listed
    have dirty := (inFiles.named.mem_dirtyPages_iff owner).mp (split ▸ List.mem_append_left left member)
    exact untouched number page (named ▸ dirty.1) dirty.2
  exact ⟨⟨by rw [flushes.tables], fun number => flushes.others _ (foreign number),
    fun number => flushes.bytes _ (foreign number)⟩, flushes.inFiles⟩

/-! ## What a scan reads -/

/-- Pages that are had do not change what other pages are. -/
theorem load_load (pool : Pool) (id place : PageId) : ((pool.load id).1.load place).2 = (pool.load place).2 := by
  obtain same | ⟨rfl, page, done⟩ := get?_load pool id place
  · exact load_congr (disk_load pool id) (tables_load pool id) same
  · obtain ⟨_, found, same⟩ | ⟨_, same⟩ | ⟨read, _, restorable, _, same⟩ := pool.load_cases place
    · rw [same, same]
    · simp [same] at done
    · rw [same, load_of_cached ((get?_putPage _ _ _).trans (if_pos restorable.named.symm))]

/-- The rows of some pages as they are had, up to one that cannot be had. -/
def readRows (pool : Pool) (table : TableId) : List Nat → List Row × Outcome Unit Unit
  | [] => ([], .done ())
  | number :: rest =>
      match (pool.load ⟨table, number⟩).2 with
      | .done page => (page.rows ++ (pool.readRows table rest).1, (pool.readRows table rest).2)
      | .failed error => ([], .failed error)
      | .parked stage => ([], .parked stage)

theorem readRows_congr {numbers : List Nat}
    (same : ∀ number ∈ numbers, (after.load ⟨table, number⟩).2 = (pool.load ⟨table, number⟩).2) :
    after.readRows table numbers = pool.readRows table numbers := by
  induction numbers with
  | nil => rfl
  | cons number rest ih =>
      obtain ⟨here, others⟩ := List.forall_mem_cons.mp same
      simp only [readRows, here, ih others]

theorem scanPages_eq (pool : Pool) (tx : TxId) (table : TableId) (numbers : List Nat)
    (position : ScanPosition) (answered : ¬ StoppedByLock (scanPages tx table numbers position pool).2.2.2) :
    (scanPages tx table numbers position pool).2.2 = pool.readRows table numbers := by
  induction numbers generalizing pool position with
  | nil => rfl
  | cons number rest ih =>
      rw [scanPages] at answered ⊢
      unfold Pool.fetch at answered ⊢
      generalize pool.locks.request tx ⟨table, number⟩ .shared = answer at answered ⊢
      obtain ⟨locks, verdict⟩ := answer
      cases verdict with
      | parked | refused => exact absurd trivial answered
      | granted =>
          have later := load_load { pool with locks } ⟨table, number⟩
          have same : ∀ place, (Pool.load { pool with locks } place).2 = (pool.load place).2 :=
            fun _ => load_congr rfl rfl rfl
          rw [readRows, ← same]
          simp only at answered ⊢
          generalize Pool.load { pool with locks } ⟨table, number⟩ = result at answered later ⊢
          obtain ⟨middle, outcome⟩ := result
          cases outcome with
          | parked => exact absurd trivial answered
          | failed => rfl
          | done page =>
              have rest := ih middle _ answered
              rw [readRows_congr fun number _ => (later _).trans (same _)] at rest
              simp only [rest]

theorem Spares.load (spares : Spares table pool after) (number : Nat) :
    (after.load ⟨table, number⟩).2 = (pool.load ⟨table, number⟩).2 := by
  simp only [Pool.load, spares.cache number, Pool.table?, spares.file]
  cases pool.cache.get? ⟨table, number⟩ with
  | some page => rfl
  | none =>
      cases known : pool.tables.get? table with
      | none => rfl
      | some file =>
          have bytes := spares.bytes number
          rw [@pageBytes_eq pool ⟨table, number⟩ _ known,
            @pageBytes_eq after ⟨table, number⟩ _ (spares.file.trans known)] at bytes
          simp only [TableFile.readPage, bytes]
          split <;> rfl

theorem scanAll_eq (pool : Pool) (tx : TxId) (table : TableId)
    (answered : ¬ StoppedByLock (pool.scanAll tx table .start).2.2.2) :
    (pool.scanAll tx table .start).2.2 = pool.readRows table (pool.pagesFrom table 0) :=
  scanPages_eq pool tx table _ _ answered

/-- Whoever scans a table that was spared finds what anybody found before, unless a lock stops either. -/
theorem Spares.scanAll (spares : Spares table pool after) (reader other : TxId)
    (before : ¬ StoppedByLock (pool.scanAll reader table .start).2.2.2)
    (now : ¬ StoppedByLock (after.scanAll other table .start).2.2.2) :
    (after.scanAll other table .start).2.2 = (pool.scanAll reader table .start).2.2 := by
  rw [scanAll_eq pool reader table before, scanAll_eq after other table now, pagesFrom, spares.pageCount,
    readRows_congr fun number _ => spares.load number, pagesFrom]

end RowStore.Pool
