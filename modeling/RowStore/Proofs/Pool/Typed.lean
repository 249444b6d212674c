import RowStore.Proofs.Pool.FirstFit

namespace RowStore.Pool

/-! Pages have the columns of their tables.

A page gets its columns when it is read, from the file of its table, and nobody changes
them. A file keeps its columns too, and was registered only because its pages have room for
a row. So a row that fits the columns of a table fits every page of it.
-/

variable {pool middle after : Pool} {tx : TxId} {table : TableId} {id : PageId} {page changed : Page}
variable {file : TableFile} {pages : List Page}

/-- The page has the columns of its table. -/
def Suits (pool : Pool) (page : Page) : Prop :=
  ∀ file, pool.tables.get? page.id.table = some file → page.schema = file.schema

/-- Tables stay but for their lengths. -/
def Extends (pool after : Pool) : Prop :=
  ∀ table file, after.tables.get? table = some file → ∃ before count,
    pool.tables.get? table = some before ∧ file = { before with pageCount := count }

theorem extends_of_same (tables : ∀ table, after.tables.get? table = pool.tables.get? table) :
    Extends pool after :=
  fun table file found => ⟨file, file.pageCount, (tables table).symm.trans found, rfl⟩

theorem Suits.keep (suits : pool.Suits page) (extended : Extends pool after)
    (named : changed.id = page.id) (schema : changed.schema = page.schema) : after.Suits changed := by
  intro file found
  rw [named] at found
  obtain ⟨before, _, known, rfl⟩ := extended _ _ found
  exact schema.trans (suits before known)

structure Typed (pool : Pool) : Prop where
  pages : ∀ id page, pool.cache.get? id = some page → pool.Suits page
  roomy : ∀ table file, pool.tables.get? table = some file → 0 < file.capacity

/-- A page that can be had has the columns of its table, from memory as from its file. -/
theorem Typed.of_load (typed : pool.Typed) (loaded : (pool.load id).2 = .done page) : pool.Suits page := by
  unfold Pool.load at loaded
  split at loaded
  · next cached found =>
    cases loaded
    exact typed.pages id page found
  · split at loaded
    · contradiction
    · next file known =>
      split at loaded
      · contradiction
      · next read =>
        cases loaded
        obtain ⟨_, _, decoded⟩ := TableFile.of_readPage read
        obtain ⟨named, schema, _⟩ := Page.of_decode decoded
        intro other found
        rw [named] at found
        cases (table?_eq_ok.mp known).symm.trans found
        exact schema

theorem Typed.keep (typed : pool.Typed) (extended : Extends pool after)
    (pages : ∀ id page, after.cache.get? id = some page → pool.Suits page) : after.Typed := by
  refine ⟨fun id page found => (pages id page found).keep extended rfl rfl, fun table file found => ?_⟩
  obtain ⟨before, _, known, rfl⟩ := extended table file found
  exact typed.roomy table before known

theorem Typed.putPage (typed : pool.Typed) (suits : pool.Suits page) : (pool.putPage page).Typed := by
  refine typed.keep (extends_of_same fun _ => rfl) fun id other found => ?_
  rw [get?_putPage] at found
  split at found
  · cases found
    exact suits
  · exact typed.pages id other found

theorem Typed.withLocks (typed : pool.Typed) (locks : LockTable) : Typed { pool with locks } :=
  ⟨typed.pages, typed.roomy⟩

theorem Typed.reads (typed : pool.Typed) (reads : Reads pool after) : after.Typed :=
  typed.keep (extends_of_same fun _ => by rw [reads.tables])
    fun id page found => typed.of_load (reads.loaded id page found)

theorem Extends.append (appended : pool.appendPage id = .ok after) : Extends pool after := by
  intro table file found
  obtain ⟨before, known, ⟨_, disk, _, rfl⟩ | ⟨_, rfl⟩⟩ := of_appendPage appended
  all_goals
    rw [show FinMap.get? _ table = _ from FinMap.get?_insert _ _ _ _] at found
    split at found
    · next here =>
      cases found
      exact ⟨_, _, here ▸ known, rfl⟩
    · exact ⟨file, _, found, rfl⟩

theorem Step.typed (step : Step tx table pool after) (typed : pool.Typed) : after.Typed := by
  cases step with
  | request | release => exact typed.withLocks _
  | load number => exact typed.reads (reads_load pool _)
  | append appended =>
      exact typed.keep (.append appended) fun id page found => typed.pages id page (cache_appendPage appended ▸ found)
  | store found _ inserted =>
      obtain ⟨slot, _, _, _, rfl⟩ := Page.of_insert inserted
      exact typed.putPage ((typed.pages _ _ found).keep (extends_of_same fun _ => rfl) rfl rfl)
  | @free _ page changed location outcome found deleted =>
      have suits := typed.pages _ _ found
      cases outcome with
      | ok =>
          obtain ⟨record, _, _, _, _, rfl⟩ := Page.of_delete deleted
          exact typed.putPage (suits.keep (extends_of_same fun _ => rfl) rfl rfl)
      | error =>
          obtain ⟨padding, _, rfl⟩ := Page.of_delete_error deleted
          exact typed.putPage (suits.keep (extends_of_same fun _ => rfl) rfl rfl)
  | mark =>
      unfold Pool.markDirty
      split
      · next cached found =>
        exact typed.putPage ((typed.pages _ cached found).keep (extends_of_same fun _ => rfl) rfl rfl)
      · exact typed

theorem Steps.typed (steps : Steps tx table pool after) (typed : pool.Typed) : after.Typed := by
  induction steps with
  | refl => exact typed
  | tail _ step ih => exact step.typed ih

/-! ## Writing and restoring -/

theorem Typed.of_mem_dirtyPages (typed : pool.Typed) {owner : Option TxId} (listed : page ∈ pool.dirtyPages owner) :
    pool.Suits page := by
  obtain ⟨id, found⟩ := FinMap.mem_values_iff.mp (List.mem_of_mem_filter listed)
  exact typed.pages id page found

theorem Typed.flushPage (typed : pool.Typed) (suits : pool.Suits page)
    (flushed : pool.flushPage page = .ok after) :
    after.Typed ∧ ∀ table, after.tables.get? table = pool.tables.get? table := by
  unfold Pool.flushPage at flushed
  split at flushed
  · contradiction
  · split at flushed
    · contradiction
    · next disk _ =>
      cases flushed
      have written : Typed { pool with disk } := ⟨typed.pages, typed.roomy⟩
      exact ⟨written.putPage (suits.keep (extends_of_same fun _ => rfl) rfl rfl), fun _ => rfl⟩

theorem Typed.flushEach (typed : pool.Typed) (suits : ∀ page ∈ pages, pool.Suits page) :
    (pool.flushEach pages).1.Typed := by
  induction pages generalizing pool with
  | nil => exact typed
  | cons page pages ih =>
      obtain ⟨here, others⟩ := List.forall_mem_cons.mp suits
      unfold Pool.flushEach
      split
      · exact typed
      · next middle flushed =>
        obtain ⟨next, tables⟩ := typed.flushPage here flushed
        exact ih next fun other listed => (others other listed).keep (extends_of_same tables) rfl rfl

theorem Typed.restoreEach (typed : pool.Typed) (suits : ∀ page ∈ pages, pool.Suits page) :
    (pool.restoreEach pages).1.Typed := by
  induction pages generalizing pool with
  | nil => exact typed
  | cons page pages ih =>
      obtain ⟨here, others⟩ := List.forall_mem_cons.mp suits
      unfold Pool.restoreEach
      split
      · exact typed
      · next clean restored =>
        obtain ⟨named, schema, _⟩ := Page.of_decode restored
        have same : Extends pool (pool.putPage clean) := extends_of_same fun _ => rfl
        have next := typed.putPage (here.keep (extends_of_same fun _ => rfl) named schema)
        exact ih next fun other listed => (others other listed).keep same rfl rfl

theorem Typed.flush (typed : pool.Typed) (owner : Option TxId) :
    (pool.flushEach (pool.dirtyPages owner)).1.Typed :=
  typed.flushEach fun _ listed => typed.of_mem_dirtyPages listed

theorem Typed.restore (typed : pool.Typed) (tx : TxId) : (pool.restore tx).1.Typed :=
  typed.restoreEach fun _ listed => typed.of_mem_dirtyPages listed

theorem Typed.commit (typed : pool.Typed) (tx : TxId) : (pool.commit tx).1.Typed := by
  have flushed := typed.flush (some tx)
  unfold Pool.commit Pool.flush
  generalize pool.flushEach (pool.dirtyPages (some tx)) = answer at flushed
  obtain ⟨middle, outcome⟩ := answer
  cases outcome with
  | ok => exact flushed.withLocks _
  | error => exact Typed.withLocks (Typed.restore flushed tx) _

theorem Typed.abort (typed : pool.Typed) (tx : TxId) : (pool.abort tx).1.Typed :=
  (typed.restore tx).withLocks _

/-- No page is in memory of a table that is registered only now. -/
theorem Typed.addTable (typed : pool.Typed) (inFiles : pool.WithinFiles) {opening : Opening} {disk : Disk}
    (opened : TableFile.openAt pool.disk opening.path opening.schema opening.pageSize = .ok (disk, file)) :
    ({ pool with disk }.addTable file).Typed := by
  obtain ⟨_, _, roomy, _⟩ := TableFile.of_openAt opened
  have kept : ∀ table other, pool.tables.get? table = some other →
      ({ pool with disk }.addTable file).tables.get? table = some other := by
    intro table other known
    rw [get?_addTable]
    split
    · next same => rw [← same, known, Option.getD_some]
    · exact known
  refine ⟨fun id page found other known => ?_, fun table other known => ?_⟩
  · obtain ⟨first, before, _⟩ := (inFiles.pages id page found).filed
    rw [← inFiles.named id page found] at before
    cases (kept _ first before).symm.trans known
    exact typed.pages id page found other before
  · cases before : pool.tables.get? table with
    | some first =>
        cases (kept table first before).symm.trans known
        exact typed.roomy table other before
    | none =>
        rw [get?_addTable] at known
        split at known
        · next same =>
          obtain rfl : file = other := by simpa [← same, before] using known
          exact roomy
        · cases before.symm.trans known

end RowStore.Pool
