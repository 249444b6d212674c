import RowStore.Proofs.Page.Vacant
import RowStore.Proofs.Pool.Ending
import RowStore.Proofs.Pool.Placing

namespace RowStore

/-! The bytes that a file has after its last page, and the page that is read from them.

A file is opened with whatever it holds: its pages are as many as fit, and fewer bytes
than a page may follow. They are what the page just past the end is read from, and they
stay until the file grows by that page, which makes zeros of them. No page past the end is
changed in memory, so memory shows there what the file has.
-/

theorem fitBytes_take (size : Nat) (data : List UInt8) :
    fitBytes size (data.take size) = fitBytes size data := by
  simp only [fitBytes, List.take_take, Nat.min_self, List.length_take]
  congr 2
  omega

namespace TableFile

variable {file : TableFile} {disk : Disk} {id : PageId}

/-- The bytes of a file that fill no page. -/
def remainder (file : TableFile) (disk : Disk) : List UInt8 :=
  (disk.bytes file.handle).drop (file.pageCount * file.pageSize)

/-- The page just past the end is read from what the file has after its last page. -/
theorem readPage_past (own : id.table = file.id) (past : id.number = file.pageCount) :
    file.readPage disk id = Page.decode id file.schema file.pageSize (file.remainder disk) := by
  rw [readPage, if_pos own, if_pos (Nat.le_of_eq past), past, Disk.read, remainder]
  simp only [Page.decode, fitBytes_take]

theorem remainder_eq_nil (whole : file.Whole disk) : file.remainder disk = [] :=
  List.drop_eq_nil_of_le (Nat.le_of_eq whole)

end TableFile

namespace Pool

variable {pool middle after : Pool} {tx : TxId} {table : TableId} {id : PageId} {page changed : Page}
variable {row : Row} {number : Nat} {file : TableFile} {pages : List Page}

structure TailsAsStored (pool : Pool) : Prop where
  /-- Fewer bytes than a page follow the last page of a file. -/
  short : ∀ table file, pool.tables.get? table = some file →
    (pool.disk.bytes file.handle).length < (file.pageCount + 1) * file.pageSize
  /-- What is in memory past the end of a file is what is read from the file there. -/
  past : ∀ id page file, pool.cache.get? id = some page → pool.tables.get? id.table = some file →
    file.pageCount ≤ id.number → file.readPage pool.disk id = .ok page

/-- Files keep the bytes after their last page, or lose them when they grow. -/
structure Trails (pool after : Pool) : Prop where
  tails : after.TailsAsStored
  files : ∀ table file, pool.tables.get? table = some file → ∃ count,
    after.tables.get? table = some { file with pageCount := count } ∧
      (count = file.pageCount ∧ file.remainder after.disk = file.remainder pool.disk ∨
        TableFile.remainder { file with pageCount := count } after.disk = [])

theorem TailsAsStored.refl (tails : pool.TailsAsStored) : Trails pool pool :=
  ⟨tails, fun _ file found => ⟨file.pageCount, found, .inl ⟨rfl, rfl⟩⟩⟩

theorem Trails.trans (early : Trails pool middle) (late : Trails middle after) : Trails pool after := by
  refine ⟨late.tails, fun table file found => ?_⟩
  obtain ⟨first, known, same | gone⟩ := early.files table file found
  · obtain ⟨rfl, kept⟩ := same
    obtain ⟨last, reached, ⟨rfl, still⟩ | gone⟩ := late.files table _ known
    · exact ⟨_, reached, .inl ⟨rfl, still.trans kept⟩⟩
    · exact ⟨last, reached, .inr gone⟩
  · obtain ⟨last, reached, ⟨rfl, still⟩ | gone⟩ := late.files table _ known
    · exact ⟨_, reached, .inr (still.trans gone)⟩
    · exact ⟨last, reached, .inr gone⟩

/-- What is had past the end of a file is what is read from the file there. -/
theorem TailsAsStored.load_past (tails : pool.TailsAsStored) (known : pool.tables.get? id.table = some file)
    (past : file.pageCount ≤ id.number) :
    (pool.load id).2 = .done page ↔ file.readPage pool.disk id = .ok page := by
  unfold Pool.load
  split
  · next cached found => simp [tails.past id cached file found known past]
  · simp only [table?_eq_ok.mpr known]
    split <;> next outcome => simp [outcome]

/-- Files may be written inside their pages, and pages in memory were replaced only there, or were read
from the files. -/
theorem TailsAsStored.keep (tails : pool.TailsAsStored)
    (tables : ∀ table, after.tables.get? table = pool.tables.get? table)
    (bytes : ∀ table file, pool.tables.get? table = some file →
      (after.disk.bytes file.handle).length = (pool.disk.bytes file.handle).length ∧
        file.remainder after.disk = file.remainder pool.disk)
    (pages : ∀ id page, after.cache.get? id = some page →
      (pool.load id).2 = .done page ∨ id.number < pool.pageCount id.table) : Trails pool after := by
  refine ⟨⟨fun table file known => ?_, fun id page file found known past => ?_⟩,
    fun table file known => ⟨file.pageCount, (tables table).trans known, .inl ⟨rfl, (bytes table file known).2⟩⟩⟩
  · have known := (tables table).symm.trans known
    rw [(bytes table file known).1]
    exact tails.short table file known
  · have known := (tables id.table).symm.trans known
    rcases pages id page found with loaded | inside
    · have read := (tails.load_past known past).mp loaded
      obtain ⟨own, bound, _⟩ := TableFile.of_readPage read
      have here := Nat.le_antisymm bound past
      rwa [TableFile.readPage_past own here, (bytes id.table file known).2, ← TableFile.readPage_past own here]
    · rw [pageCount_eq known] at inside
      exact absurd past (Nat.not_le.mpr inside)

/-- Nothing happened to the files. -/
theorem TailsAsStored.keep_disk (tails : pool.TailsAsStored)
    (disk : ∀ handle, after.disk.bytes handle = pool.disk.bytes handle)
    (tables : ∀ table, after.tables.get? table = pool.tables.get? table)
    (pages : ∀ id page, after.cache.get? id = some page →
      (pool.load id).2 = .done page ∨ id.number < pool.pageCount id.table) : Trails pool after :=
  tails.keep tables (fun _ file _ => by simp only [TableFile.remainder, disk, and_self]) pages

theorem TailsAsStored.reads (tails : pool.TailsAsStored) (reads : Reads pool after) : Trails pool after :=
  tails.keep_disk (fun _ => by rw [reads.disk]) (fun _ => by rw [reads.tables])
    fun id page found => .inl (reads.loaded id page found)

/-- A file that is as long as some pages is as long as its own. -/
theorem TailsAsStored.remainder_of_dvd (tails : pool.TailsAsStored) (inFiles : pool.WithinFiles)
    (known : pool.tables.get? table = some file) (even : file.pageSize ∣ (pool.disk.bytes file.handle).length) :
    file.remainder pool.disk = [] := by
  obtain ⟨pages, length⟩ := even
  have fits := inFiles.files table file known
  have long := fits.long
  have short := tails.short table file known
  rw [length, Nat.mul_comm file.pageSize] at long short
  have enough := Nat.le_of_mul_le_mul_right long fits.sized
  have few := Nat.lt_of_mul_lt_mul_right short
  obtain rfl : file.pageCount = pages := by omega
  exact TableFile.remainder_eq_nil (length.trans (Nat.mul_comm _ _))

/-! ## Growing -/

/-- The file that grows then ends with the page that it grew by, and the others are as before. -/
structure Ends (table : TableId) (file : TableFile) (number : Nat) (pool after : Pool) : Prop where
  count : file.pageCount = number
  known : after.tables.get? table = some { file with pageCount := number + 1 }
  length : (after.disk.bytes file.handle).length = (number + 1) * file.pageSize
  others : ∀ other place, other ≠ table → pool.tables.get? other = some place →
    after.disk.bytes place.handle = pool.disk.bytes place.handle
  before : ∀ earlier < number, after.disk.read file.handle (earlier * file.pageSize) file.pageSize =
    pool.disk.read file.handle (earlier * file.pageSize) file.pageSize

section Grow

variable (inFiles : pool.WithinFiles) (tails : pool.TailsAsStored)
include inFiles tails

theorem Lengthens.ends (lengthens : Lengthens table number pool after) (past : number = pool.pageCount table) :
    ∃ file, pool.tables.get? table = some file ∧ Ends table file number pool after := by
  obtain ⟨file, disk, known, written, rfl, tables⟩ := lengthens.grown past
  have count : file.pageCount = number := (pageCount_eq known).symm.trans past.symm
  have long := (inFiles.files table file known).long
  have short := tails.short table file known
  rw [count] at long short
  have bytes := (Disk.of_write written).2.2.2
  refine ⟨file, known, count, (tables table).trans (if_pos rfl), ?_, fun other place differs found => ?_,
    fun earlier inside => Disk.read_of_write_before written long ?_⟩
  · rw [bytes, if_pos rfl, Disk.length_overwrite_of_le long, List.length_replicate, ← Nat.succ_mul]
    exact Nat.max_eq_right (Nat.le_of_lt short)
  · rw [bytes, if_neg fun same => differs (inFiles.apart found known same)]
  · rw [← Nat.succ_mul]
    exact Nat.mul_le_mul_right _ inside

theorem Lengthens.trails (lengthens : Lengthens table number pool after) (bound : number ≤ pool.pageCount table)
    (cache : ∀ id, after.cache.get? id = pool.cache.get? id) : Trails pool after := by
  have loaded : ∀ id page, after.cache.get? id = some page → (pool.load id).2 = .done page := by
    intro id page found
    exact loaded_of_cached ((cache id).symm.trans found)
  rcases Nat.lt_or_eq_of_le bound with inside | past
  · obtain ⟨disk, tables⟩ := lengthens.kept inside
    exact tails.keep_disk (fun _ => by rw [disk]) tables fun id page found => .inl (loaded id page found)
  · obtain ⟨file, known, ends⟩ := lengthens.ends inFiles tails past
    have tables : ∀ other, other ≠ table → after.tables.get? other = pool.tables.get? other := by
      intro other differs
      obtain ⟨_, _, _, _, _, tables⟩ := lengthens.grown past
      rw [tables, if_neg differs]
    refine ⟨⟨fun other place found => ?_, fun id page place found known' far => ?_⟩, fun other place found => ?_⟩
    · by_cases here : other = table
      · rw [here, ends.known] at found
        cases found
        change (after.disk.bytes file.handle).length < (number + 1 + 1) * file.pageSize
        rw [ends.length]
        exact Nat.mul_lt_mul_of_pos_right (Nat.lt_succ_self _) (inFiles.files table file known).sized
      · rw [tables other here] at found
        rw [ends.others other place here found]
        exact tails.short other place found
    · by_cases here : id.table = table
      · -- A page past the new end would have been out of bounds before.
        rw [here, ends.known] at known'
        cases known'
        have earlier : file.pageCount ≤ id.number := ends.count ▸ Nat.le_of_succ_le far
        have read := tails.past id page file ((cache id).symm.trans found) (here ▸ known) earlier
        have bound := (TableFile.of_readPage read).2.1
        rw [ends.count] at bound
        exact absurd bound (Nat.not_le.mpr far)
      · rw [tables id.table here] at known'
        have read := tails.past id page place ((cache id).symm.trans found) known' far
        simpa only [TableFile.readPage, Disk.read, ends.others _ place here known'] using read
    · by_cases here : other = table
      · rw [here, known] at found
        cases found
        refine ⟨number + 1, here ▸ ends.known, .inr ?_⟩
        exact TableFile.remainder_eq_nil ends.length
      · refine ⟨place.pageCount, (tables other here).trans found, .inl ⟨rfl, ?_⟩⟩
        rw [TableFile.remainder, ends.others other place here found, TableFile.remainder]

theorem Puts.trails (puts : Puts table row number page changed pool after) : Trails pool after := by
  have grown : Lengthens table number pool { after with cache := pool.cache } :=
    ⟨puts.lengthens.kept, puts.lengthens.grown⟩
  have first := grown.trails inFiles tails puts.bound fun _ => rfl
  refine first.trans (first.tails.keep_disk (fun _ => rfl) (fun _ => rfl) fun id other found => ?_)
  rw [puts.cache] at found
  split at found
  · next here =>
    right
    subst here
    rw [grown.pageCount puts.bound]
    split
    · exact Nat.lt_succ_self number
    · next apart => exact Nat.lt_of_le_of_ne puts.bound fun same => apart ⟨rfl, same⟩
  · exact .inl (loaded_of_cached found)

end Grow

/-! ## Inserts and deletes -/

variable {mark : Page → Page} {held : PageId → LockMode → Prop} {ahead strays : List Nat}

/-- Whatever an insert comes to, files keep what follows their pages, or lose it. -/
theorem InsertEffect.trails {result : InsertOutcome}
    (effect : InsertEffect tx table row mark held ahead strays pool result)
    (tails : pool.TailsAsStored) : Trails pool result.1 := by
  cases effect with
  | put _ inFiles reads full order owns first puts =>
      have early := tails.reads reads
      exact early.trans (puts.trails inFiles early.tails)
  | @failed middle _ _ inFiles reads grown =>
      have early := tails.reads reads
      obtain rfl | ⟨number, bound, appended⟩ := grown
      · exact early
      · have cache := cache_appendPage appended
        exact early.trans ((lengthens_append appended).1.trails inFiles early.tails bound fun id => by rw [cache])
  | parked inFiles reads owns awaits => exact tails.reads reads

theorem WithinFiles.trails_delete (inFiles : pool.WithinFiles) (tails : pool.TailsAsStored) (tx : TxId)
    (location : Option RecordId) : Trails pool (pool.delete tx location).1 := by
  obtain ⟨middle, reads, same | ⟨record, changed, _, inside, here, same⟩⟩ :=
    inFiles.named.delete_cases tx location
  · rw [same]
    exact tails.reads reads
  · have early := tails.reads reads
    rw [same]
    refine early.trans (early.tails.keep_disk (fun _ => rfl) (fun _ => rfl) fun id page found => ?_)
    rw [get?_putPage] at found
    split at found
    · next equal =>
      right
      rwa [equal, here, reads.pageCount]
    · exact .inl (loaded_of_cached found)

/-! ## Writing and restoring -/

section Complete

variable (inFiles : pool.WithinFiles) (tails : pool.TailsAsStored)
include inFiles tails

theorem WithinFiles.trails_flushPage (found : pool.cache.get? page.id = some page) (dirty : page.dirty ≠ none)
    (flushed : pool.flushPage page = .ok after) : Trails pool after := by
  have inFile := inFiles.pages _ page found
  obtain ⟨file, known, size, inside⟩ := inFile.filed
  have inside := inside dirty
  have fits := inFiles.files _ file known
  unfold Pool.flushPage TableFile.writePage at flushed
  simp only [table?_eq_ok.mpr known] at flushed
  rw [if_pos fits.named.symm, if_pos inside] at flushed
  cases written : pool.disk.write file.handle (page.id.number * file.pageSize) page.image with
  | error error => simp [written] at flushed
  | ok disk =>
      simp only [written, Except.ok.injEq] at flushed
      subst flushed
      have bytes := (Disk.of_write written).2.2.2
      have width : page.image.length = file.pageSize := (length_fitBytes _ _).trans size
      have behind : page.id.number * file.pageSize + page.image.length ≤ file.pageCount * file.pageSize :=
        width ▸ TableFile.page_end_le inside
      have room := Nat.le_trans behind fits.long
      refine tails.keep (fun _ => rfl) (fun table other listed => ?_) fun id other cached => ?_
      · change (disk.bytes other.handle).length = _ ∧ other.remainder disk = _
        by_cases same : other.handle = file.handle
        · obtain rfl : table = page.id.table := inFiles.apart listed known same
          obtain rfl : file = other := Option.some.inj (known.symm.trans listed)
          rw [TableFile.remainder, bytes, if_pos rfl]
          exact ⟨Disk.length_overwrite room, Disk.drop_overwrite room behind⟩
        · rw [TableFile.remainder, bytes, if_neg same]
          exact ⟨rfl, rfl⟩
      · rw [get?_putPage] at cached
        split at cached
        · next here =>
          right
          rw [here]
          exact (pageCount_eq known).symm ▸ inside
        · exact .inl (loaded_of_cached cached)

theorem WithinFiles.trails_flushEach (listed : Listed pool pages) : Trails pool (pool.flushEach pages).1 := by
  induction pages generalizing pool with
  | nil => exact tails.refl
  | cons page pages ih =>
      have found := listed.found page List.mem_cons_self
      obtain ⟨tx, dirty⟩ := listed.dirty page List.mem_cons_self
      have changed : page.dirty ≠ none := by simp [dirty]
      unfold Pool.flushEach
      rcases inFiles.flushPage found changed with ⟨_, failed⟩ | ⟨_, middle, flushed, first⟩
      · simp only [failed]
        exact tails.refl
      · have early := inFiles.trails_flushPage tails found changed flushed
        simp only [flushed]
        exact early.trans (ih first.inFiles early.tails (listed.tail first.toCleaned))

theorem WithinFiles.trails_restore (tx : TxId) : Trails pool (pool.restore tx).1 := by
  obtain ⟨restores, _⟩ := inFiles.restore tx
  refine tails.keep_disk (fun _ => by rw [restores.disk]) (fun _ => by rw [restores.tables])
    fun id page found => ?_
  by_cases listed : id ∈ (pool.dirtyPages (some tx)).map Page.id
  · obtain ⟨changed, member, rfl⟩ := List.mem_map.mp listed
    obtain ⟨known, dirty⟩ := inFiles.of_mem_dirtyPages member
    obtain ⟨file, registered, _, inside⟩ := (inFiles.pages _ changed known).filed
    right
    rw [pageCount_eq registered]
    exact inside (by simp [dirty])
  · rw [restores.others id listed] at found
    exact .inl (loaded_of_cached found)

theorem WithinFiles.trails_commit (tx : TxId) : Trails pool (pool.commit tx).1 := by
  have flushes := inFiles.trails_flushEach tails (inFiles.named.listed (some tx))
  obtain ⟨written, left, split, after, _⟩ := inFiles.flushEach (inFiles.named.listed (some tx))
  have fits := after.inFiles
  unfold Pool.commit Pool.flush
  generalize pool.flushEach (pool.dirtyPages (some tx)) = answer at flushes fits
  obtain ⟨middle, outcome⟩ := answer
  cases outcome with
  | ok => exact flushes.trans (flushes.tails.reads (Reads.of_locks middle _))
  | error =>
      have restores := fits.trails_restore flushes.tails tx
      exact flushes.trans (restores.trans (restores.tails.reads (Reads.of_locks _ _)))

theorem WithinFiles.trails_abort (tx : TxId) : Trails pool (pool.abort tx).1 := by
  have restores := inFiles.trails_restore tails tx
  exact restores.trans (restores.tails.reads (Reads.of_locks _ _))

/-- A file that is registered is opened with all its pages. -/
theorem WithinFiles.trails_addTable {opening : Opening} {disk : Disk}
    (opened : TableFile.openAt pool.disk opening.path opening.schema opening.pageSize = .ok (disk, file)) :
    Trails pool ({ pool with disk }.addTable file) := by
  obtain ⟨reached, _, roomy, counted⟩ := TableFile.of_openAt opened
  obtain ⟨_, _, _, bytes⟩ := inFiles.disk.of_openOrCreate reached
  have kept : ∀ table other, pool.tables.get? table = some other →
      ({ pool with disk }.addTable file).tables.get? table = some other ∧
        disk.bytes other.handle = pool.disk.bytes other.handle := by
    intro table other known
    refine ⟨?_, bytes _ _ (inFiles.files table other known).located⟩
    rw [get?_addTable]
    split
    · next same => rw [← same, known, Option.getD_some]
    · exact known
  refine ⟨⟨fun table other known => ?_, fun id page other found known past => ?_⟩, fun table other known => ?_⟩
  · cases before : pool.tables.get? table with
    | some first =>
        obtain ⟨same, stays⟩ := kept table first before
        obtain rfl : first = other := Option.some.inj (same.symm.trans known)
        exact (congrArg List.length stays).symm ▸ tails.short table first before
    | none =>
        rw [get?_addTable] at known
        split at known
        · next here =>
          obtain rfl : file = other := by
            rw [← here] at known
            simpa [before] using known
          have count : file.pageCount = (disk.bytes file.handle).length / file.pageSize :=
            (congrArg TableFile.pageCount counted).symm
          rw [count]
          exact Nat.lt_mul_of_div_lt (Nat.lt_succ_self _) (TableFile.pageSize_pos roomy)
        · cases before.symm.trans known
  · obtain ⟨first, before, _⟩ := (inFiles.pages id page found).filed
    obtain ⟨same, stays⟩ := kept _ first before
    obtain rfl : first = other := Option.some.inj (same.symm.trans known)
    have read := tails.past id page first found before past
    simpa only [TableFile.readPage, Disk.read, Pool.addTable, stays] using read
  · obtain ⟨same, stays⟩ := kept table other known
    refine ⟨other.pageCount, same, .inl ⟨rfl, ?_⟩⟩
    exact congrArg (List.drop _) stays

end Complete

end Pool

end RowStore
