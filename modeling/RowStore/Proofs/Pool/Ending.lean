import RowStore.Proofs.Lock.Parked
import RowStore.Proofs.Pool.WithinFiles

namespace RowStore

/-! The end of a transaction on a disk that may refuse to write.

Changed pages are written one after the other until the disk refuses one. The pages
that were not written are put back, so whichever write fails, every page that the
transaction changed is unchanged then: it is either what its file holds now, or what
it was before, and then its file holds the same as before.
-/

namespace LockTable

variable {locks : LockTable} {tx other : TxId} {page : PageId} {mode : LockMode}

/-- The transaction holds no page, waits for nothing and nobody, nobody waits for it, and it is not
to be interrupted. -/
structure Forgotten (tx : TxId) (locks : LockTable) : Prop where
  held : locks.heldPages tx = []
  holds : ∀ page, tx ∉ (locks.lockOn page).holders
  waiting : locks.isWaiting tx = false
  waits : WaitGraph.successors locks.waits.edges tx = []
  awaited : ∀ other, tx ∉ WaitGraph.successors locks.waits.edges other
  interrupted : locks.waits.isInterrupted tx = false

theorem Sound.forgotten (sound : locks.Sound) (tx : TxId) : Forgotten tx (locks.releaseAll tx) := by
  have held : (locks.releaseAll tx).heldPages tx = [] := by
    rw [heldPages_releaseAll, if_pos rfl]
  refine ⟨held, fun page holds => ?_, ?_, ?_, fun other => ?_, ?_⟩
  · rw [(sound.releaseAll tx).held, held] at holds
    contradiction
  · simp [isWaiting, waits_releaseAll, WaitGraph.forget, WaitGraph.isWaiting, WaitGraph.clearWaiting,
      FinMap.contains]
  · rw [successors_releaseAll, if_pos rfl]
  · rw [successors_releaseAll]
    split <;> simp
  · simp [waits_releaseAll, WaitGraph.forget, WaitGraph.isInterrupted]

/-- What others have of a page is theirs also after a transaction gave up all its pages, and no more. -/
theorem Sound.has_releaseAll_iff (sound : locks.Sound) (differs : other ≠ tx) :
    (locks.releaseAll tx).Has other page mode ↔ locks.Has other page mode := by
  refine ⟨fun has => ?_, fun has => has.releaseAll sound differs⟩
  rw [Has, lockOn_releaseAll sound] at has
  obtain ⟨holder, level⟩ := has
  exact ⟨(PageLock.mem_holders_release.mp holder).1, fun writing =>
    (PageLock.level_release_of_mem holder).symm.trans (level writing)⟩

end LockTable

namespace Pool

variable {pool middle after : Pool} {tx : TxId} {id : PageId} {page clean : Page} {pages : List Page}
variable {file : TableFile}

/-- The bytes that the file of a table has for a page. -/
def pageBytes (pool : Pool) (id : PageId) : List UInt8 :=
  match pool.tables.get? id.table with
  | some file => pool.disk.read file.handle (id.number * file.pageSize) file.pageSize
  | none => []

theorem pageBytes_eq (found : pool.tables.get? id.table = some file) :
    pool.pageBytes id = pool.disk.read file.handle (id.number * file.pageSize) file.pageSize := by
  simp only [pageBytes, found]

theorem pageBytes_congr (tables : after.tables = pool.tables) (disk : after.disk = pool.disk) :
    after.pageBytes id = pool.pageBytes id := by
  rw [pageBytes, pageBytes, tables, disk]

/-! ## Writing changed pages -/

/-- Pages were written, one after the other, and nothing else changed. -/
structure Flushes (pages : List Page) (pool after : Pool) : Prop extends Cleaned Flushed pages pool after where
  inFiles : after.WithinFiles
  tables : after.tables = pool.tables
  locks : after.locks = pool.locks
  fails : after.disk.failWrites = pool.disk.failWrites
  left : after.disk.writesLeft = pool.disk.writesLeft - pages.length
  written : ∀ page ∈ pages, after.pageBytes page.id = page.image
  bytes : ∀ id, id ∉ pages.map Page.id → after.pageBytes id = pool.pageBytes id

theorem Flushes.nil (inFiles : pool.WithinFiles) : Flushes [] pool pool :=
  ⟨Cleaned.nil _ pool, inFiles, rfl, rfl, rfl, rfl, by simp, fun _ _ => rfl⟩

theorem Flushes.cons (first : Flushes [page] pool middle) (rest : Flushes pages middle after)
    (apart : page.id ∉ pages.map Page.id) : Flushes (page :: pages) pool after := by
  refine ⟨first.toCleaned.cons rest.toCleaned apart, rest.inFiles, rest.tables.trans first.tables,
    rest.locks.trans first.locks, rest.fails.trans first.fails, ?_, fun other listed => ?_, fun id absent => ?_⟩
  · rw [rest.left, first.left]
    simp only [List.length_cons, List.length_nil]
    omega
  · rcases List.mem_cons.mp listed with rfl | later
    · exact (rest.bytes other.id apart).trans (first.written other List.mem_cons_self)
    · exact rest.written other later
  · rw [List.map_cons, List.mem_cons, not_or] at absent
    exact (rest.bytes id absent.2).trans (first.bytes id (by simpa using absent.1))

section Flush

variable (inFiles : pool.WithinFiles)
include inFiles

/-- Writing one page replaces its bytes in the file and no others. -/
theorem WithinFiles.pageBytes_of_write {disk : Disk} {image : List UInt8}
    (found : pool.tables.get? id.table = some file) (inside : id.number < file.pageCount)
    (width : image.length = file.pageSize)
    (written : pool.disk.write file.handle (id.number * file.pageSize) image = .ok disk) :
    pageBytes { pool with disk } id = image ∧
      ∀ other, other ≠ id → pageBytes { pool with disk } other = pool.pageBytes other := by
  have room : id.number * file.pageSize + image.length ≤ (pool.disk.bytes file.handle).length := by
    rw [width]
    exact Nat.le_trans (TableFile.page_end_le inside) (inFiles.files _ file found).long
  have bytes := (Disk.of_write written).2.2.2
  refine ⟨?_, fun other differs => ?_⟩
  · rw [@pageBytes_eq { pool with disk } _ _ found, ← width]
    rw [← width] at written room
    exact Disk.read_of_write written room
  · cases known : pool.tables.get? other.table with
    | none => simp only [pageBytes, known]
    | some place =>
        rw [pageBytes_eq known, @pageBytes_eq { pool with disk } _ _ known]
        by_cases same : other.table = id.table
        · rw [same, found] at known
          cases known
          refine Disk.read_of_write_apart written room ?_
          have numbers := PageId.number_ne differs same
          rw [width]
          rcases Nat.lt_or_gt_of_ne numbers with before | behind
          · have bound := Nat.mul_le_mul_right file.pageSize before
            rw [Nat.succ_mul] at bound
            exact Or.inl bound
          · have bound := Nat.mul_le_mul_right file.pageSize behind
            rw [Nat.succ_mul] at bound
            exact Or.inr bound
        · have handles : place.handle ≠ file.handle := fun equal => same (inFiles.apart known found equal)
          rw [Disk.read, Disk.read, bytes, if_neg handles]

theorem WithinFiles.writes {disk : Disk} {image : List UInt8} {handle : Handle} {offset : Nat}
    (written : pool.disk.write handle offset image = .ok disk) : WithinFiles { pool with disk } := by
  obtain ⟨nodes, next, _, _⟩ := Disk.of_write written
  refine ⟨inFiles.locks, ⟨?_, ?_⟩, fun table other known => ?_, fun id page found => ?_⟩
  · rw [nodes]
    exact inFiles.disk.apart
  · rw [nodes, next]
    exact inFiles.disk.numbered
  · exact (inFiles.files table other known).keep (.of_nodes nodes) (Disk.length_of_write written _).1
  · exact (inFiles.pages id page found).keep (Grows.of_same rfl nodes)

/-- A changed page is written unless the disk refuses. -/
theorem WithinFiles.flushPage (found : pool.cache.get? page.id = some page) (dirty : page.dirty ≠ none) :
    (pool.disk.refuses = true ∧ pool.flushPage page = .error .storage) ∨
      pool.disk.refuses = false ∧ ∃ after, pool.flushPage page = .ok after ∧ Flushes [page] pool after := by
  have inFile := inFiles.pages _ page found
  obtain ⟨file, known, size, inside⟩ := inFile.filed
  have inside := inside dirty
  have fits := inFiles.files _ file known
  unfold Pool.flushPage
  simp only [table?_eq_ok.mpr known, TableFile.writePage]
  rw [if_pos fits.named.symm, if_pos inside]
  cases refuses : pool.disk.refuses with
  | true => exact Or.inl ⟨rfl, by rw [Disk.write_of_refuses refuses]⟩
  | false =>
      have real := TableFile.handle_ne_fullDevice fits.sized inside fits.long
      obtain ⟨disk, written, left⟩ := Disk.write_of_not_refuses real refuses (page.id.number * file.pageSize)
        page.image
      have width : page.image.length = file.pageSize := (length_fitBytes _ _).trans size
      obtain ⟨stored, others⟩ := inFiles.pageBytes_of_write known inside width written
      have clean : Cleaned Flushed [page] { pool with disk }
          (Pool.putPage { pool with disk } (page.markDirty none).keepImage) :=
        Cleaned.put rfl rfl (show Flushed page _ from rfl)
      have later : WithinFiles { pool with disk } := inFiles.writes written
      refine Or.inr ⟨rfl, _, by rw [written], ⟨clean.cleaned, clean.others⟩, ?_, rfl, rfl,
        (Disk.of_write written).2.2.1, left, fun other listed => ?_, fun id absent => ?_⟩
      · exact later.putPage ((later.pages _ page found).replace inFile.restorable.flushed rfl
          fun changed => absurd rfl changed)
      · rw [List.mem_singleton.mp listed]
        exact stored
      · exact others id (by simpa using absent)

/-- Pages are written in order until the disk refuses one. -/
theorem WithinFiles.flushEach (listed : Listed pool pages) :
    ∃ written left, pages = written ++ left ∧ Flushes written pool (pool.flushEach pages).1 ∧
      (pool.flushEach pages).2 = (if left = [] then .ok () else .error .storage) ∧
      (left ≠ [] ↔ pool.disk.failWrites = true ∧ pool.disk.writesLeft < pages.length) := by
  induction pages generalizing pool with
  | nil => exact ⟨[], [], rfl, Flushes.nil inFiles, rfl, by simp⟩
  | cons page pages ih =>
      obtain ⟨tx, dirty⟩ := listed.dirty page List.mem_cons_self
      unfold Pool.flushEach
      rcases inFiles.flushPage (listed.found page List.mem_cons_self) (by simp [dirty]) with
        ⟨refuses, failed⟩ | ⟨accepts, middle, flushed, first⟩
      · simp only [failed]
        simp only [Disk.refuses, Bool.and_eq_true, decide_eq_true_eq] at refuses
        exact ⟨[], page :: pages, rfl, Flushes.nil inFiles, rfl, by simp [refuses]⟩
      · obtain ⟨written, left, rfl, rest, ended, stops⟩ := ih first.inFiles (listed.tail first.toCleaned)
        have apart : page.id ∉ written.map Page.id := fun again =>
          (List.nodup_cons.mp listed.distinct).1 (by
            rw [List.map_append]
            exact List.mem_append_left _ again)
        simp only [flushed]
        refine ⟨page :: written, left, rfl, first.cons rest apart, ended, ?_⟩
        rw [stops, first.fails, first.left]
        simp only [Disk.refuses, Bool.and_eq_false_iff, decide_eq_false_iff_not] at accepts
        simp only [List.length_cons, List.length_nil]
        refine and_congr_right fun fails => ?_
        rcases accepts with off | some
        · simp [off] at fails
        · omega

end Flush

/-! ## Putting pages back -/

/-- Pages were put back to what was last read or written, and nothing else changed. -/
structure Restores (pages : List Page) (pool after : Pool) : Prop extends Cleaned Restored pages pool after where
  inFiles : after.WithinFiles
  tables : after.tables = pool.tables
  locks : after.locks = pool.locks
  disk : after.disk = pool.disk

theorem Restores.nil (inFiles : pool.WithinFiles) : Restores [] pool pool :=
  ⟨Cleaned.nil _ pool, inFiles, rfl, rfl, rfl⟩

theorem Restores.cons (first : Restores [page] pool middle) (rest : Restores pages middle after)
    (apart : page.id ∉ pages.map Page.id) : Restores (page :: pages) pool after :=
  ⟨first.toCleaned.cons rest.toCleaned apart, rest.inFiles, rest.tables.trans first.tables,
    rest.locks.trans first.locks, rest.disk.trans first.disk⟩

section Restore

variable (inFiles : pool.WithinFiles)
include inFiles

/-- Every page in memory can be put back. -/
theorem WithinFiles.restoreEach (listed : Listed pool pages) :
    Restores pages pool (pool.restoreEach pages).1 ∧ (pool.restoreEach pages).2 = .ok () := by
  induction pages generalizing pool with
  | nil => exact ⟨Restores.nil inFiles, rfl⟩
  | cons page pages ih =>
      have inFile := inFiles.pages _ page (listed.found page List.mem_cons_self)
      obtain ⟨clean, restored⟩ := inFile.restorable.recovers
      obtain ⟨restorable, unchanged⟩ := inFile.restorable.restored restored
      obtain ⟨_, _, size, _⟩ := Page.of_decode restored
      have put : Cleaned Restored [page] pool (pool.putPage clean) := Cleaned.put restorable.named unchanged restored
      have first : Restores [page] pool (pool.putPage clean) :=
        ⟨put, inFiles.putPage (inFile.replace restorable size fun changed => absurd unchanged changed), rfl, rfl, rfl⟩
      obtain ⟨rest, ended⟩ := ih first.inFiles (listed.tail first.toCleaned)
      unfold Pool.restoreEach
      simp only [restored]
      exact ⟨first.cons rest (List.nodup_cons.mp listed.distinct).1, ended⟩

theorem WithinFiles.restore (tx : TxId) :
    Restores (pool.dirtyPages (some tx)) pool (pool.restore tx).1 ∧ (pool.restore tx).2 = .ok () :=
  inFiles.restoreEach (inFiles.named.listed (some tx))

end Restore

/-! ## Completing -/

/-- How a page that a transaction changed stands when the transaction has ended: written, or put
back with its file untouched. -/
inductive FlushedOrRestored (pool after : Pool) (page : Page) : Prop
  | flushed (cached : after.cache.get? page.id = some (page.markDirty none).keepImage)
      (written : after.pageBytes page.id = page.image)
  | restored (clean : Page) (cached : after.cache.get? page.id = some clean)
      (restored : page.restored = .ok clean) (untouched : after.pageBytes page.id = pool.pageBytes page.id)

/-- Nothing is left of a transaction that ended, and everything else is as it was. -/
structure Ended (tx : TxId) (pool after : Pool) : Prop where
  inFiles : after.WithinFiles
  tables : after.tables = pool.tables
  forgotten : after.locks.Forgotten tx
  clean : CleanOf tx after
  settled : ∀ id page, pool.cache.get? id = some page → page.dirty = some tx → FlushedOrRestored pool after page
  others : ∀ id, (∀ page, pool.cache.get? id = some page → page.dirty ≠ some tx) →
    after.cache.get? id = pool.cache.get? id ∧ after.pageBytes id = pool.pageBytes id
  held : ∀ other, other ≠ tx → after.locks.heldPages other = pool.locks.heldPages other
  has : ∀ other id mode, other ≠ tx → (after.locks.Has other id mode ↔ pool.locks.Has other id mode)

section Complete

variable (inFiles : pool.WithinFiles)
include inFiles

theorem WithinFiles.mem_dirtyPages (found : pool.cache.get? page.id = some page)
    (dirty : page.dirty = some tx) : page ∈ pool.dirtyPages (some tx) :=
  (inFiles.named.mem_dirtyPages_iff (some tx)).mpr ⟨found, tx, dirty, fun _ same => Option.some.inj same⟩

theorem WithinFiles.of_mem_dirtyPages (listed : page ∈ pool.dirtyPages (some tx)) :
    pool.cache.get? page.id = some page ∧ page.dirty = some tx := by
  obtain ⟨found, owner, dirty, own⟩ := (inFiles.named.mem_dirtyPages_iff (some tx)).mp listed
  exact ⟨found, own tx rfl ▸ dirty⟩

theorem WithinFiles.ended (rest : middle.WithinFiles) (tables : middle.tables = pool.tables)
    (locks : middle.locks = pool.locks) (clean : CleanOf tx middle)
    (settled : ∀ page ∈ pool.dirtyPages (some tx), FlushedOrRestored pool middle page)
    (others : ∀ id, id ∉ (pool.dirtyPages (some tx)).map Page.id →
      middle.cache.get? id = pool.cache.get? id ∧ middle.pageBytes id = pool.pageBytes id) :
    Ended tx pool (middle.releaseAll tx) := by
  have sound : middle.locks.Sound := locks ▸ inFiles.locks
  refine ⟨rest.withLocks (sound.releaseAll tx), tables, sound.forgotten tx, clean,
    fun id page found dirty => ?_, fun id foreign => others id ?_, fun other differs => ?_,
    fun other id mode differs => ?_⟩
  · have named := inFiles.named id page found
    subst named
    cases settled page (inFiles.mem_dirtyPages found dirty) with
    | flushed cached written => exact .flushed cached written
    | restored clean cached restored untouched => exact .restored clean cached restored untouched
  · intro listed
    obtain ⟨page, member, rfl⟩ := List.mem_map.mp listed
    obtain ⟨found, dirty⟩ := inFiles.of_mem_dirtyPages member
    exact foreign page found dirty
  · exact (LockTable.heldPages_releaseAll.trans (if_neg differs)).trans (by rw [locks])
  · rw [← locks]
    exact sound.has_releaseAll_iff differs

theorem WithinFiles.abort (tx : TxId) : Ended tx pool (pool.abort tx).1 ∧ (pool.abort tx).2 = .ok () := by
  obtain ⟨restores, ended⟩ := inFiles.restore tx
  refine ⟨inFiles.ended restores.inFiles restores.tables restores.locks
    (restores.toCleaned.cleanOf inFiles.named) (fun page listed => ?_)
    (fun id absent => ⟨restores.others id absent, pageBytes_congr restores.tables restores.disk⟩), ended⟩
  obtain ⟨clean, cached, _, restored⟩ := restores.cleaned page listed
  exact .restored clean cached restored (pageBytes_congr restores.tables restores.disk)

/-- Some pages were written before the disk refused, and the others are put back. -/
theorem WithinFiles.ended_of_stopped {written left : List Page}
    (split : pool.dirtyPages (some tx) = written ++ left) (flushes : Flushes written pool middle) :
    Ended tx pool ((middle.restore tx).1.releaseAll tx) := by
  obtain ⟨restores, _⟩ := flushes.inFiles.restore tx
  have listed := inFiles.named.listed (some tx)
  have bytes : ∀ id, (middle.restore tx).1.pageBytes id = middle.pageBytes id := fun id =>
    pageBytes_congr restores.tables restores.disk
  have kept : ∀ id, (∀ page, middle.cache.get? id = some page → page.dirty ≠ some tx) →
      (middle.restore tx).1.cache.get? id = middle.cache.get? id := by
    intro id foreign
    refine restores.others id fun again => ?_
    obtain ⟨page, member, rfl⟩ := List.mem_map.mp again
    obtain ⟨found, dirty⟩ := flushes.inFiles.of_mem_dirtyPages member
    exact foreign page found dirty
  refine inFiles.ended restores.inFiles (restores.tables.trans flushes.tables)
    (restores.locks.trans flushes.locks)
    (restores.toCleaned.cleanOf flushes.inFiles.named) (fun page member => ?_) (fun id absent => ?_)
  · rw [split] at member
    rcases List.mem_append.mp member with early | late
    · obtain ⟨clean, cached, unchanged, rfl⟩ := flushes.cleaned page early
      refine .flushed ((kept page.id fun other found => ?_).trans cached) ?_
      · rw [cached] at found
        cases found
        simp [unchanged]
      · rw [bytes]
        exact flushes.written page early
    · have distinct := listed.distinct
      rw [split, List.map_append, List.nodup_append] at distinct
      have apart : page.id ∉ written.map Page.id := fun again =>
        distinct.2.2 _ again _ (List.mem_map_of_mem late) rfl
      obtain ⟨found, dirty⟩ := inFiles.of_mem_dirtyPages (split ▸ member)
      have still := flushes.inFiles.mem_dirtyPages ((flushes.others _ apart).trans found) dirty
      obtain ⟨clean, cached, _, restored⟩ := restores.cleaned page still
      exact .restored clean cached restored ((bytes _).trans (flushes.bytes _ apart))
  · have apart : id ∉ written.map Page.id := fun again => absent (by
      rw [split, List.map_append]
      exact List.mem_append_left _ again)
    have same := flushes.others id apart
    refine ⟨(kept id fun page found dirty => absent ?_).trans same, (bytes id).trans (flushes.bytes id apart)⟩
    rw [same] at found
    have named := inFiles.named id page found
    subst named
    exact List.mem_map_of_mem (inFiles.mem_dirtyPages found dirty)

/-- A commit fails exactly if the disk refuses before every changed page is written. -/
theorem WithinFiles.commit (tx : TxId) :
    Ended tx pool (pool.commit tx).1 ∧
      (pool.commit tx).2 = (if pool.disk.failWrites = true ∧
        pool.disk.writesLeft < (pool.dirtyPages (some tx)).length then .error .storage else .ok ()) ∧
      ((pool.commit tx).2 = .ok () → ∀ id page, pool.cache.get? id = some page → page.dirty = some tx →
        (pool.commit tx).1.cache.get? id = some (page.markDirty none).keepImage ∧
          (pool.commit tx).1.pageBytes id = page.image) := by
  obtain ⟨written, left, split, flushes, result, stops⟩ := inFiles.flushEach (inFiles.named.listed (some tx))
  unfold Pool.commit
  generalize flushed : pool.flush tx = answer
  rw [Pool.flush] at flushed
  rw [flushed] at flushes result
  obtain ⟨middle, outcome⟩ := answer
  by_cases done : left = []
  · subst done
    rw [List.append_nil] at split
    rw [if_pos rfl] at result
    cases result
    rw [← split] at flushes
    have settled : ∀ page ∈ pool.dirtyPages (some tx),
        middle.cache.get? page.id = some (page.markDirty none).keepImage ∧
          middle.pageBytes page.id = page.image := by
      intro page member
      obtain ⟨clean, cached, _, rfl⟩ := flushes.cleaned page member
      exact ⟨cached, flushes.written page member⟩
    refine ⟨inFiles.ended flushes.inFiles flushes.tables flushes.locks (flushes.toCleaned.cleanOf inFiles.named)
      (fun page member => .flushed (settled page member).1 (settled page member).2)
      (fun id absent => ⟨flushes.others id absent, flushes.bytes id absent⟩), ?_,
      fun _ id page found dirty => ?_⟩
    · rw [if_neg fun stopped => stops.mpr stopped rfl]
    · have named := inFiles.named id page found
      subst named
      exact settled page (inFiles.mem_dirtyPages found dirty)
  · rw [if_neg done] at result
    cases result
    exact ⟨inFiles.ended_of_stopped split flushes, by rw [if_pos (stops.mp done)],
      fun same => by cases same⟩

end Complete

end Pool
end RowStore
