import Mathlib.Algebra.Order.Floor.Div
import RowStore.Proofs.Pool.FirstFit

namespace RowStore.Pool

/-! A table that rows are only put into.

Its rows lie packed, from the first slot of the first page on, and the table has as many
pages as they need. Reading a table and writing its changed pages leaves every row where
it is, in memory and in the file.
-/

variable {pool after : Pool} {tx : TxId} {table : TableId} {page : Page} {row : Row} {record : RecordId}
variable {number slot count capacity total : Nat} {file : TableFile}

/-! ## What leaves rows where they are -/

/-- A table has the pages that it had, with the same rows. -/
structure Keeps (table : TableId) (pool after : Pool) : Prop where
  count : after.pageCount table = pool.pageCount table
  pages : ∀ number < pool.pageCount table, ∀ page, (pool.load ⟨table, number⟩).2 = .done page →
    ∃ again, (after.load ⟨table, number⟩).2 = .done again ∧ again.id = page.id ∧ again.slots = page.slots

theorem Spares.keeps (spares : Spares table pool after) : Keeps table pool after :=
  ⟨spares.pageCount, fun number _ page loaded => ⟨page, (spares.load number).trans loaded, rfl, rfl⟩⟩

theorem Reads.keeps (reads : Reads pool after) (table : TableId) : Keeps table pool after :=
  ⟨reads.pageCount table, fun _ _ page loaded => ⟨page, (reads.load _).trans loaded, rfl, rfl⟩⟩

/-- Each page was written if it was changed, or left alone. -/
theorem keeps_of_written (tables : after.tables = pool.tables)
    (each : ∀ id, (after.cache.get? id = pool.cache.get? id ∧ after.pageBytes id = pool.pageBytes id) ∨
      ∃ page, pool.cache.get? id = some page ∧ after.cache.get? id = some (page.markDirty none).keepImage)
    (table : TableId) : Keeps table pool after := by
  refine ⟨by rw [Pool.pageCount, Pool.pageCount, tables], fun number inside page loaded => ?_⟩
  rcases each ⟨table, number⟩ with ⟨cache, bytes⟩ | ⟨changed, found, written⟩
  · obtain ⟨file, known, within⟩ := exists_of_lt_pageCount inside
    have same := load_of_pageBytes cache known (by rw [tables, known]) within (Nat.le_refl _) bytes
    exact ⟨page, same.trans loaded, rfl, rfl⟩
  · cases (loaded_of_cached found).symm.trans loaded
    exact ⟨_, loaded_of_cached written, rfl, rfl⟩

theorem WithinFiles.keeps_flushEach (inFiles : pool.WithinFiles) {pages : List Page} (listed : Listed pool pages)
    (table : TableId) : Keeps table pool (pool.flushEach pages).1 := by
  obtain ⟨written, _, split, flushes, _⟩ := inFiles.flushEach listed
  refine keeps_of_written flushes.tables (fun id => ?_) table
  by_cases member : id ∈ written.map Page.id
  · obtain ⟨page, among, rfl⟩ := List.mem_map.mp member
    obtain ⟨_, cached, _, rfl⟩ := flushes.cleaned page among
    exact .inr ⟨page, listed.found page (split ▸ List.mem_append_left _ among), cached⟩
  · exact .inl ⟨flushes.others id member, flushes.bytes id member⟩

theorem WithinFiles.keeps_commit (inFiles : pool.WithinFiles) (done : (pool.commit tx).2 = .ok ())
    (table : TableId) :
    Keeps table pool (pool.commit tx).1 := by
  obtain ⟨ended, _, committed⟩ := inFiles.commit tx
  refine keeps_of_written ended.tables (fun id => ?_) table
  by_cases own : ∃ page, pool.cache.get? id = some page ∧ page.dirty = some tx
  · obtain ⟨page, found, dirty⟩ := own
    exact .inr ⟨page, found, (committed done id page found dirty).1⟩
  · exact .inl (ended.others id fun page found dirty => own ⟨page, found, dirty⟩)

/-! ## Packed tables -/

theorem lt_ceilDiv_iff (room : 0 < capacity) : number < count ⌈/⌉ capacity ↔ number * capacity < count := by
  rw [← not_le, ceilDiv_le_iff_le_mul room, not_le, Nat.mul_comm]

/-- So many rows lie on the pages of a table, one behind the other. -/
structure Packed (table : TableId) (file : TableFile) (count : Nat) (pool : Pool) : Prop where
  known : pool.tables.get? table = some { file with pageCount := count ⌈/⌉ file.capacity }
  whole : TableFile.remainder { file with pageCount := count ⌈/⌉ file.capacity } pool.disk = []
  pages : ∀ number < count ⌈/⌉ file.capacity, ∃ page, (pool.load ⟨table, number⟩).2 = .done page ∧
    page.slotTotal = file.capacity ∧
      ∀ slot < file.capacity, (page.row? slot).isSome ↔ number * file.capacity + slot < count

theorem packed_empty (known : pool.tables.get? table = some file) (empty : file.pageCount = 0)
    (whole : file.remainder pool.disk = []) : Packed table file 0 pool := by
  have same : { file with pageCount := 0 ⌈/⌉ file.capacity } = file := by
    rw [zero_ceilDiv, ← empty]
  exact ⟨by rw [same, known], by rw [same, whole], by simp⟩

namespace Packed

variable (packed : Packed table file count pool)
include packed

theorem pageCount : pool.pageCount table = count ⌈/⌉ file.capacity := pageCount_eq packed.known

/-- What happens to the end of a file does not matter when nothing stands there. -/
theorem filed (trails : Trails pool after) (counted : after.pageCount table = total) :
    after.tables.get? table = some { file with pageCount := total } ∧
      TableFile.remainder { file with pageCount := total } after.disk = [] := by
  obtain ⟨reached, now, ends⟩ := trails.files table _ packed.known
  obtain rfl : reached = total := (pageCount_eq now).symm.trans counted
  refine ⟨now, ends.elim (fun stays => ?_) fun gone => gone⟩
  obtain ⟨rfl, same⟩ := stays
  exact same.trans packed.whole

theorem keep (keeps : Keeps table pool after) (trails : Trails pool after) : Packed table file count after := by
  obtain ⟨known, whole⟩ := packed.filed trails (keeps.count.trans packed.pageCount)
  refine ⟨known, whole, fun number inside => ?_⟩
  obtain ⟨page, loaded, total, used⟩ := packed.pages number inside
  obtain ⟨again, now, id, slots⟩ := keeps.pages number (packed.pageCount.symm ▸ inside) page loaded
  refine ⟨again, now, by rw [← total, Page.slotTotal, Page.slotTotal, slots], fun slot within => ?_⟩
  rw [← used slot within, Page.row?, Page.row?, id, slots]

/-- All pages before the last row are full. -/
theorem count_of_full (full : pool.Full table) (room : 0 < file.capacity) :
    pool.pageCount table * file.capacity = count := by
  rw [packed.pageCount]
  refine Nat.le_antisymm ?_ (Nat.mul_comm _ _ ▸ le_smul_ceilDiv room)
  cases pages : count ⌈/⌉ file.capacity with
  | zero => simp
  | succ last =>
      have inside : last < count ⌈/⌉ file.capacity := pages ▸ Nat.lt_succ_self last
      obtain ⟨page, loaded, total, used⟩ := packed.pages last inside
      have filled := full last (packed.pageCount.symm ▸ inside)
      have final := (used (file.capacity - 1) (by omega)).mp (filled.isSome loaded (by omega))
      rw [Nat.succ_mul]
      omega

/-- The first free slot is behind the last row. -/
theorem position (inFiles : pool.WithinFiles) (tails : pool.TailsAsStored)
    (fits : FirstFit tx table row record pool after) :
    ∃ page, (pool.load record.page).2 = .done page ∧ page.slotTotal = file.capacity ∧
      record.slot < file.capacity ∧ record.page.number * file.capacity + record.slot = count ∧
        ∀ slot < file.capacity, (page.row? slot).isSome ↔ slot < record.slot := by
  obtain ⟨page, loaded, named, first, _⟩ := fits.page
  by_cases full : pool.Full table
  · obtain ⟨rfl, blank⟩ := fits.fresh full
    obtain ⟨total, free⟩ := tails.vacant_past inFiles packed.known packed.whole packed.pageCount loaded
    have room : 0 < file.capacity := total ▸ first.1
    exact ⟨page, loaded, total, room, packed.count_of_full full room, fun slot _ => by simp [free]⟩
  · obtain ⟨vacant, _⟩ := fits.least (not_not.mp (mt fits.full.mpr full))
    have inside := packed.pageCount ▸ vacant.inside
    obtain ⟨same, again, total, used⟩ := packed.pages _ inside
    rw [← fits.home] at again
    cases again.symm.trans loaded
    have room : record.slot < file.capacity := total ▸ first.1
    have free := mt (used record.slot room).mpr (by simp [first.2.1])
    have before := (lt_ceilDiv_iff (Nat.zero_lt_of_lt room)).mp inside
    have position : record.page.number * file.capacity + record.slot = count := by
      refine Nat.le_antisymm ?_ (Nat.not_lt.mp free)
      cases shape : record.slot with
      | zero => omega
      | succ earlier =>
          have taken := (used earlier (by omega)).mp (first.2.2 earlier (by omega))
          omega
    exact ⟨page, loaded, total, room, position, fun slot within => by rw [used slot within]; omega⟩

/-- One more row lies behind the others. -/
theorem insert (inFiles : pool.WithinFiles) (tails : pool.TailsAsStored)
    (fits : FirstFit tx table row record pool after)
    (trails : Trails pool after) : Packed table file (count + 1) after := by
  obtain ⟨page, loaded, total, room, position, used⟩ := packed.position inFiles tails fits
  have roomy : 0 < file.capacity := Nat.zero_lt_of_lt room
  have enough : ∀ rows ≤ count + 1, rows ⌈/⌉ file.capacity ≤ record.page.number + 1 := by
    intro rows bound
    rw [ceilDiv_le_iff_le_mul roomy, Nat.mul_comm, Nat.succ_mul]
    omega
  have pages : (count + 1) ⌈/⌉ file.capacity = record.page.number + 1 :=
    Nat.le_antisymm (enough _ (Nat.le_refl _)) ((lt_ceilDiv_iff roomy).mpr (by omega))
  have counted : after.pageCount table = (count + 1) ⌈/⌉ file.capacity := by
    have bound := fits.bound
    have last := enough count (Nat.le_succ count)
    rw [fits.home, packed.pageCount] at bound
    rw [pages, fits.counts, fits.home, packed.pageCount]
    simp only [true_and]
    split <;> omega
  obtain ⟨known, whole⟩ := packed.filed trails counted
  refine ⟨known, whole, fun number inside => ?_⟩
  rw [pages] at inside
  rcases Nat.lt_or_eq_of_le (Nat.le_of_lt_succ inside) with before | rfl
  · -- The pages before are full, and nothing happened to them.
    have earlier := Nat.mul_le_mul_right file.capacity before
    rw [Nat.succ_mul] at earlier
    have within : number < count ⌈/⌉ file.capacity := (lt_ceilDiv_iff roomy).mpr (by omega)
    obtain ⟨other, had, slots, full⟩ := packed.pages number within
    have differs : (⟨table, number⟩ : PageId) ≠ record.page := by
      rintro same
      rw [← same] at before
      exact Nat.lt_irrefl _ before
    refine ⟨other, (fits.others _ differs (packed.pageCount.symm ▸ within)).trans had, slots, fun slot low => ?_⟩
    rw [full slot low]
    omega
  · obtain ⟨same, had, named, first, now⟩ := fits.loaded
    cases had.symm.trans loaded
    have here : (⟨table, record.page.number⟩ : PageId) = record.page := by rw [← fits.home]
    refine ⟨_, here ▸ now, ?_, fun slot low => ?_⟩
    · rw [← total]
      exact List.length_set
    · have stored := @Page.row?_setSlot page record.slot (some row.values) first.1 slot
      change (((page.setSlot record.slot (some row.values)).row? slot).isSome ↔ _)
      rw [stored]
      split
      · exact iff_of_true rfl (by omega)
      · rw [used slot low]
        omega

end Packed

end RowStore.Pool
