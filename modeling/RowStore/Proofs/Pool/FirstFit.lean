import RowStore.Proofs.Pool.Shown

namespace RowStore

/-- How many rows fit on a page. -/
def TableFile.capacity (file : TableFile) : Nat := slotCount file.pageSize file.schema.rowWidth

/-- On an empty page the first slot is free. -/
theorem Page.FirstFree.eq_zero {page : Page} {slot : Nat} (first : page.FirstFree slot)
    (free : ∀ slot, page.row? slot = none) : slot = 0 := by
  rcases Nat.eq_zero_or_pos slot with zero | above
  · exact zero
  · have used := first.2.2 0 above
    rw [free] at used
    contradiction

namespace Pool

/-! The place that an insert finds when it need not wait.

It looks at the pages of its table in order, and does not pass one with a free slot. So the
row goes to the first free slot of the table. When there is none the file grows by a page,
which is an empty one if the file has no bytes after its last page.
-/

variable {pool after : Pool} {tx : TxId} {table : TableId} {id : PageId} {page : Page} {row : Row}
variable {record other : RecordId} {number slot : Nat} {file : TableFile}

/-- A free slot of a page that the table has. -/
structure Vacant (pool : Pool) (table : TableId) (record : RecordId) : Prop where
  home : record.page.table = table
  inside : record.page.number < pool.pageCount table
  free : ∃ page, (pool.load record.page).2 = .done page ∧ record.slot < page.slotTotal ∧
    page.row? record.slot = none

/-- Every page that the table has is full. -/
def Full (pool : Pool) (table : TableId) : Prop :=
  ∀ number < pool.pageCount table, pool.FullAt ⟨table, number⟩

theorem FullAt.isSome (full : pool.FullAt id) (loaded : (pool.load id).2 = .done page)
    (inside : slot < page.slotTotal) : (page.row? slot).isSome := by
  obtain ⟨same, found, full⟩ := full
  cases found.symm.trans loaded
  rw [Page.isSome_row? inside]
  exact List.all_eq_true.mp full _ (List.getElem_mem inside)

theorem FullAt.not_vacant (full : pool.FullAt record.page) : ¬ pool.Vacant table record := by
  rintro ⟨_, _, page, loaded, inside, free⟩
  have used := full.isSome loaded inside
  rw [free] at used
  contradiction

theorem Full.not_vacant (full : pool.Full table) (record : RecordId) : ¬ pool.Vacant table record := by
  intro vacant
  have here : pool.FullAt ⟨record.page.table, record.page.number⟩ :=
    vacant.home.symm ▸ full record.page.number vacant.inside
  exact here.not_vacant vacant

theorem WithinFiles.known_of_load (inFiles : pool.WithinFiles) (loaded : (pool.load id).2 = .done page) :
    ∃ file, pool.tables.get? id.table = some file := by
  cases known : pool.tables.get? id.table with
  | some file => exact ⟨file, rfl⟩
  | none =>
      cases found : pool.cache.get? id with
      | some cached =>
          obtain ⟨_, same, _⟩ := (inFiles.pages id cached found).filed
          simp [known] at same
      | none => simp [Pool.load, found, Pool.table?, known] at loaded

theorem WithinFiles.pageInFile_of_load (inFiles : pool.WithinFiles) (loaded : (pool.load id).2 = .done page) :
    (pool.load id).1.PageInFile id page := by
  refine (inFiles.load id).pages id page ?_
  obtain ⟨cached, found, same⟩ | ⟨_, same⟩ | ⟨read, _, restorable, _, same⟩ := pool.load_cases id
  · rw [same] at loaded ⊢
    cases loaded
    exact found
  · simp [same] at loaded
  · rw [same] at loaded ⊢
    cases loaded
    rw [get?_putPage, if_pos restorable.named.symm]

theorem WithinFiles.id_of_load (inFiles : pool.WithinFiles) (loaded : (pool.load id).2 = .done page) :
    page.id = id :=
  (inFiles.pageInFile_of_load loaded).restorable.named

/-- The page just past the end is an empty one when nothing follows the last page of the file. -/
theorem TailsAsStored.vacant_past (tails : pool.TailsAsStored) (inFiles : pool.WithinFiles)
    (known : pool.tables.get? id.table = some file) (whole : file.remainder pool.disk = [])
    (past : id.number = file.pageCount) (loaded : (pool.load id).2 = .done page) :
    page.slotTotal = file.capacity ∧ ∀ slot, page.row? slot = none := by
  have read := (tails.load_past known (Nat.le_of_eq past.symm)).mp loaded
  rw [TableFile.readPage_past (inFiles.files _ file known).named.symm past, whole] at read
  have total := Page.slotTotal_decode read
  refine ⟨total, fun slot => ?_⟩
  rcases Nat.lt_or_ge slot page.slotTotal with inside | outside
  · have used := Page.isSome_row?_decode read (total ▸ inside)
    simpa [headerBit] using used
  · exact Page.row?_eq_none_of_le outside

/-- A row was put into the first free slot of a table, or into the first slot of a new page. -/
structure FirstFit (tx : TxId) (table : TableId) (row : Row) (record : RecordId) (pool after : Pool) : Prop
    extends Receives tx row record pool after where
  home : record.page.table = table
  least : (∃ other, pool.Vacant table other) → pool.Vacant table record ∧ ∀ other, pool.Vacant table other →
    record.page.number < other.page.number ∨ record.page = other.page ∧ record.slot ≤ other.slot
  fresh : pool.Full table → record = ⟨⟨table, pool.pageCount table⟩, 0⟩ ∧
    ∀ slot, pool.row? ⟨record.page, slot⟩ = none
  full : pool.Full table ↔ ¬ ∃ other, pool.Vacant table other
  /-- The file grows by one page just if all its pages are full. -/
  grows : (pool.Full table → after.pageCount table = pool.pageCount table + 1) ∧
    (¬ pool.Full table → after.pageCount table = pool.pageCount table)
  stored : after.row? record = some ⟨row.values, some record⟩
  rows : ∀ other, other ≠ record →
    other.page = record.page ∨ other.page.number < pool.pageCount other.page.table →
      after.row? other = pool.row? other

/-- Numbers that are passed in order, up to one that is not. -/
theorem passed_of_range {passed : List Nat} {count : Nat} (order : passed ++ [number] <+: List.range count) :
    passed = List.range number ∧ number < count := by
  have taken := List.prefix_iff_eq_take.mp order
  have bound := order.length_le
  rw [List.length_append, List.length_singleton, List.length_range] at bound
  rw [List.length_append, List.length_singleton, List.take_range, Nat.min_eq_left bound, List.range_succ] at taken
  obtain ⟨same, last⟩ := List.append_inj' taken rfl
  obtain rfl := List.singleton_inj.mp last
  exact ⟨same, bound⟩

section Receive

variable (receives : Receives tx row ⟨⟨table, number⟩, slot⟩ pool after)
  (full : ∀ other < number, pool.FullAt ⟨table, other⟩)
include receives full

/-- The row went to a page of the table, behind full ones. -/
theorem Receives.firstFit_inside (inside : number < pool.pageCount table) :
    FirstFit tx table row ⟨⟨table, number⟩, slot⟩ pool after := by
  obtain ⟨page, loaded, named, first, _⟩ := receives.page
  have vacant : pool.Vacant table ⟨⟨table, number⟩, slot⟩ := ⟨rfl, inside, page, loaded, first.1, first.2.1⟩
  have room : ¬ pool.Full table := fun all => all.not_vacant _ vacant
  have count := receives.counts table
  rw [if_neg fun both => Nat.ne_of_lt inside both.2] at count
  refine ⟨receives, rfl, fun _ => ⟨vacant, fun other free => ?_⟩, fun all => absurd all room,
    ⟨fun all => absurd all room, fun none => absurd ⟨_, vacant⟩ none⟩,
    ⟨fun all => absurd all room, fun _ => count⟩, (receives.row?_page slot).trans (if_pos rfl),
    fun other differs among => receives.row?_of_ne differs among⟩
  obtain ⟨home, _, again, had, within, unused⟩ := free
  rcases Nat.lt_trichotomy other.page.number number with before | same | behind
  · -- The pages before are full.
    have used := (full _ before).isSome (home ▸ had) within
    rw [unused] at used
    contradiction
  · right
    have here : other.page = ⟨table, number⟩ := by rw [← home, ← same]
    refine ⟨here.symm, Nat.not_lt.mp fun lower => ?_⟩
    rw [here] at had
    cases had.symm.trans loaded
    have used := first.2.2 other.slot lower
    rw [unused] at used
    contradiction
  · exact .inl behind

/-- No page of the table had room, so the row went to a new one. -/
theorem Receives.firstFit_past (inFiles : pool.WithinFiles) (tails : pool.TailsAsStored)
    (whole : ∀ file, pool.tables.get? table = some file → file.remainder pool.disk = [])
    (past : number = pool.pageCount table) : FirstFit tx table row ⟨⟨table, number⟩, slot⟩ pool after := by
  have all : pool.Full table := fun other inside => full other (past ▸ inside)
  have none := all.not_vacant
  obtain ⟨page, loaded, named, first, _⟩ := receives.page
  have blank : ∀ slot, page.row? slot = Option.none := by
    obtain ⟨file, known⟩ := inFiles.known_of_load loaded
    exact (tails.vacant_past inFiles known (whole file known) (past.trans (pageCount_eq known)) loaded).2
  have lowest : slot = 0 := first.eq_zero blank
  have count := receives.counts table
  rw [if_pos ⟨rfl, past⟩] at count
  refine ⟨receives, rfl, fun ⟨other, free⟩ => absurd free (none other),
    fun _ => ⟨by rw [lowest, past], fun other => ?_⟩, ⟨fun _ ⟨other, free⟩ => none other free, fun _ => all⟩,
    ⟨fun _ => past ▸ count, fun room => absurd all room⟩, (receives.row?_page slot).trans (if_pos rfl),
    fun other differs among => receives.row?_of_ne differs among⟩
  rw [@row?_eq _ _ ⟨⟨table, number⟩, other⟩ loaded, blank]

end Receive

theorem InsertEffect.firstFit {held : PageId → LockMode → Prop} {strays : List Nat} {result : InsertOutcome}
    (effect : InsertEffect tx table row (Page.markDirty · (some tx)) held (List.range (pool.pageCount table)) strays
      pool result) (inFiles : pool.WithinFiles) (tails : pool.TailsAsStored)
    (whole : ∀ file, pool.tables.get? table = some file → file.remainder pool.disk = [])
    (done : result.2 = .done number) :
    ∃ slot, FirstFit tx table row ⟨⟨table, number⟩, slot⟩ pool result.1 := by
  obtain ⟨slot, passed, receives, full, order⟩ := effect.receives tails done
  rw [← List.range_succ] at order
  obtain ⟨rfl, bound⟩ := passed_of_range order
  have full : ∀ other < number, pool.FullAt ⟨table, other⟩ := fun other before =>
    full other (List.mem_range.mpr before)
  rcases Nat.lt_or_eq_of_le (Nat.le_of_lt_succ bound) with inside | past
  · exact ⟨slot, receives.firstFit_inside full inside⟩
  · exact ⟨slot, receives.firstFit_past full inFiles tails whole past⟩

end Pool

end RowStore
