import RowStore.Proofs.Pool.Open
import RowStore.Proofs.Session.Sound

namespace RowStore

/-! Pages in memory agree with the files in every state between two calls, so that a pool that is
opened anew on the same files scans the same rows once no page is a changed one. -/

namespace Pool

variable {pool fresh : Pool} {id : PageId} {page : Page}

structure PageCoherence (pool : Pool) (id : PageId) (page : Page) : Prop where
  named : page.id = id
  /-- The image of the page is the bytes that the file holds; past the end these are zeros. -/
  stored : ∃ file, pool.tables.get? id.table = some file ∧ id.number ≤ file.pageCount ∧
    page.before = file.stored pool.disk id.number ∧
    (id.number = file.pageCount → page.before = List.replicate file.pageSize 0)
  /-- A page that nobody changed holds what its image says, at the same slots. -/
  clean : page.dirty = none → ∃ image, page.restored = .ok image ∧ image.slots = page.slots ∧
    image.rows = page.rows
  /-- Who changed the page has it locked to write, and the page is in the file. -/
  dirty : ∀ tx, page.dirty = some tx → pool.locks.lockOn id = ⟨some .exclusive, [tx]⟩ ∧
    pool.locks.holds tx id = true ∧ id.number < pool.pageCount id.table

theorem Coherent.pageCoherence (coherent : pool.Coherent) (found : pool.cache.get? id = some page) :
    PageCoherence pool id page := by
  have agrees := coherent.agrees id page found
  obtain ⟨file, known, schema, size, bound, before⟩ := agrees.filed
  obtain ⟨image, restored, same⟩ := agrees.restored
  refine ⟨agrees.named, ⟨file, known, bound, before, fun last => ?_⟩, fun clean => ?_, fun tx dirty => ?_⟩
  · rw [before, TableFile.stored_past_end (coherent.files.whole known) (Nat.le_of_eq last.symm)]
  · exact ⟨image, restored, same clean, Page.rows_congr (Page.of_decode restored).1 (same clean)⟩
  · obtain ⟨owned, inside⟩ := agrees.locked tx dirty
    refine ⟨owned, decide_eq_true ((coherent.locks.held tx id).mp ?_), inside⟩
    rw [owned]
    exact List.mem_singleton_self tx

/-- A pool with nothing in memory is coherent over the files of one that is. -/
theorem Coherent.ofFiles (coherent : pool.Coherent) (disk : fresh.disk = pool.disk)
    (tables : ∀ table, fresh.tables.get? table = pool.tables.get? table)
    (cache : fresh.cache = .empty) (locks : fresh.locks.Sound) : fresh.Coherent := by
  refine ⟨locks, ⟨fun {table file} known => ?_, fun {table file} known => ?_, fun {table file} known => ?_,
    fun {table other file place} known likewise => ?_⟩, fun id page found => ?_⟩
  · rw [tables] at known
    exact coherent.files.named known
  · rw [tables] at known
    exact coherent.files.sized known
  · rw [tables] at known
    rw [disk]
    exact coherent.files.whole known
  · rw [tables] at known likewise
    exact coherent.files.apart known likewise
  · simp [cache] at found

theorem Coherent.reopen {opened : Pool} {openings : List Opening} {config : Config} {disk : Disk}
    (coherent : pool.Coherent) (sound : disk.Sound)
    (done : (empty config disk).openEach openings = .ok opened) (grows : Grows opened pool) :
    ∃ fresh, (empty config pool.disk).openEach openings = .ok fresh ∧ fresh.disk = pool.disk ∧
      fresh.cache = .empty ∧ fresh.locks = .empty config ∧
      ∀ table, fresh.tables.get? table = pool.tables.get? table := by
  obtain ⟨fresh, again, same, cache, locks, tables⟩ := (opened_empty config sound).openEach_again done
    (empty config pool.disk) (Disk.Precedes.of_nodes grows.nodes) fun _ => rfl
  refine ⟨fresh, again, same, cache, locks, fun table => ?_⟩
  rw [tables]
  cases known : opened.tables.get? table with
  | none => exact (grows.missing table known).symm
  | some file =>
      obtain ⟨count, _, now⟩ := grows.longer table file known
      have whole : (pool.disk.bytes file.handle).length = count * file.pageSize := coherent.files.whole now
      have sized := coherent.files.sized now
      rw [now, Option.map_some, TableFile.recount]
      change some { file with pageCount := (pool.disk.bytes file.handle).length / file.pageSize } = _
      rw [whole, Nat.mul_div_cancel count sized]

theorem Coherent.scanAll_rows (coherent : pool.Coherent) (unchanged : pool.Unchanged) (tx : TxId)
    (table : TableId)
    (free : Unlocked tx pool ∨ ¬ StoppedByLock (pool.scanAll tx table .start).2.2.2) :
    (pool.scanAll tx table .start).2.2 = pool.filedRows table (pool.pagesFrom table 0) :=
  coherent.scanPages_rows unchanged tx table _ _ free

end Pool

namespace Session

variable {session : Session} {history : List SessionEvent} {config : Config} {disk : Disk}
variable {openings : List Opening} {pool : Pool} {directory : Path} {names : FinMap String TableId}

/-- Memory and files of a pool that was opened on some files. -/
structure Coherence (config : Config) (openings : List Opening) (pool : Pool) : Prop where
  pages : ∀ id page, pool.cache.get? id = some page → pool.PageCoherence id page
  /-- When no page is a changed one, the files can be opened anew as they are, and whoever scans a
  table then finds the rows, in the places, that any scan finds now, unless a lock stops it. -/
  reopens : pool.Unchanged → ∃ fresh, (Pool.empty config pool.disk).openEach openings = .ok fresh ∧
    fresh.disk = pool.disk ∧ ∀ tx reader table,
      ¬ Pool.StoppedByLock (pool.scanAll tx table .start).2.2.2 →
      (fresh.scanAll reader table .start).2.2 = (pool.scanAll tx table .start).2.2

theorem sound_of_opened (sound : disk.Sound) (opened : (Pool.empty config disk).openEach openings = .ok pool)
    (even : ∀ table file, pool.tables.get? table = some file →
      file.pageSize ∣ (pool.disk.bytes file.handle).length) :
    (ofDatabase ⟨directory, names, pool⟩).Sound := by
  have only := ((Pool.opened_empty config sound).openEach opened).1
  exact ⟨only.coherent even, fun tx call found => by simp [ofDatabase] at found⟩

/-- Whatever the transactions do, and whichever writes fail, memory and files agree. -/
theorem coherence_of_run (sound : disk.Sound)
    (opened : (Pool.empty config disk).openEach openings = .ok pool)
    (even : ∀ table file, pool.tables.get? table = some file →
      file.pageSize ∣ (pool.disk.bytes file.handle).length)
    (run : Run Enabled (ofDatabase ⟨directory, names, pool⟩) history session) :
    Coherence config openings session.pool := by
  obtain ⟨⟨coherent, _⟩, grows⟩ := run.sound (fun _ _ allowed => allowed) (sound_of_opened sound opened even)
  refine ⟨fun id page found => coherent.pageCoherence found, fun unchanged => ?_⟩
  obtain ⟨fresh, again, same, cache, locks, tables⟩ := coherent.reopen sound opened grows
  refine ⟨fresh, again, same, fun tx reader table answered => ?_⟩
  have freshCoherent : fresh.Coherent := by
    refine coherent.ofFiles same tables cache ?_
    rw [locks]
    exact LockTable.sound_empty config
  have freshUnchanged : fresh.Unchanged := fun id page found => by simp [cache] at found
  have unlocked : Pool.Unlocked reader fresh := by
    intro id holder listed
    simp [locks, LockTable.lockOn, LockTable.empty, PageLock.free] at listed
  have pages : fresh.pagesFrom table 0 = session.pool.pagesFrom table 0 := by
    simp only [Pool.pagesFrom, Pool.pageCount, tables]
  rw [freshCoherent.scanAll_rows freshUnchanged reader table (Or.inl unlocked),
    coherent.scanAll_rows unchanged tx table (Or.inr answered), pages, Pool.filedRows_congr same tables]

/-! ## A table of integers -/

def integerOpening : Opening := ⟨⟨['/', 't']⟩, .ofTypes [.int], 16⟩

def integerPlace : Place := ⟨[String.ofList ['t']]⟩

def integerFile : TableFile :=
  ⟨TableFile.idOfPlace integerPlace, integerPlace, .file 0, .ofTypes [.int], 16, 0⟩

def integerPool : Pool :=
  (Pool.empty .default (Disk.empty.createFile integerPlace).1).addTable integerFile

def integerSession : Session := ofDatabase ⟨⟨['/']⟩, .empty, integerPool⟩

theorem opened_integerPool : (Pool.empty .default .empty).openEach [integerOpening] = .ok integerPool := by
  rfl

theorem even_integerPool (table : TableId) (file : TableFile)
    (found : integerPool.tables.get? table = some file) :
    file.pageSize ∣ (integerPool.disk.bytes file.handle).length := by
  rw [integerPool, Pool.get?_addTable] at found
  split at found
  · cases found
    decide
  · contradiction

def integerInsert (number : Int32) : Call := .insert integerFile.id ⟨[.int number], none⟩ .start

/-- A row is committed, the commit of a second one fails as its page cannot be written, a third one is
taken back, and the transaction of a fourth one goes on. -/
theorem coherence_of_failedCommit :
    ∃ history session, Run Enabled integerSession history session ∧
      history.reverse.filterMap SessionEvent.result =
        [.ok .nothing, .ok .nothing, .ok .nothing, .error .storage, .ok .nothing, .ok .nothing, .ok .nothing] ∧
      (session.pool.dirtyPages (some ⟨4⟩)).length = 1 ∧
      Coherence .default [integerOpening] session.pool := by
  have committed := ((@Run.start Enabled integerSession).step
    (.call ⟨1⟩ (integerInsert 7)) ⟨rfl, by decide, rfl⟩).step (.complete ⟨1⟩ true) trivial
  have failed := ((committed.step (.call ⟨2⟩ (integerInsert 8)) ⟨by decide +kernel, by decide, rfl⟩).step
    (.limitWrites true 0) trivial).step (.complete ⟨2⟩ true) trivial
  have aborted := ((failed.step (.limitWrites false 0) trivial).step
    (.call ⟨3⟩ (integerInsert 9)) ⟨by decide +kernel, by decide, rfl⟩).step (.complete ⟨3⟩ false) trivial
  have run := aborted.step (.call ⟨4⟩ (integerInsert 10)) ⟨by decide +kernel, by decide, rfl⟩
  exact ⟨_, _, run, by decide +kernel, by decide +kernel,
    coherence_of_run Disk.sound_empty opened_integerPool even_integerPool run⟩

end Session

end RowStore
