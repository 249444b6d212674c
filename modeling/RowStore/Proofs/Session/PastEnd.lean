import Mathlib.Tactic.IntervalCases
import RowStore.Proofs.Pool.FirstFit
import RowStore.Proofs.Session.Completion
import RowStore.Proofs.Session.TailsAndWaits

namespace RowStore

/-! The page just past the end of a file, and what a scan finds when the file has grown by it.

A file is opened with as many pages as it has bytes for, and bytes that fill no page stay
behind them. The page just past the end is read from those. It is an empty page just if no
header bit of a slot is set there; any other row that they hold comes up in scans once an
insert has made the page one of the file.
-/

namespace Page

variable {page : Page} {row : Row} {slot other : Nat} {held : Option (List Value)}

/-- A row is the only one of its page when it was put on an empty page. -/
theorem rows_setSlot_iff (first : page.FirstFree slot) (row : Row) :
    (page.setSlot slot (some row.values)).rows = [⟨row.values, some ⟨page.id, 0⟩⟩] ↔
      ∀ slot, page.row? slot = none := by
  have stored := @row?_setSlot page slot (some row.values) first.1
  constructor
  · intro only other
    by_contra held
    obtain ⟨found, held⟩ := Option.ne_none_iff_exists'.mp held
    have differs : other ≠ slot := by
      rintro rfl
      rw [first.2.1] at held
      contradiction
    have new := mem_rows_iff.mpr ⟨slot, (stored slot).trans (if_pos rfl)⟩
    have old := mem_rows_iff.mpr ⟨other, (stored other).trans ((if_neg differs).trans held)⟩
    rw [only, List.mem_singleton] at new old
    subst old
    have places := location_of_row? held
    simp only [Row.mk.injEq, Option.some.injEq, RecordId.mk.injEq, true_and] at new places
    exact differs (places.symm.trans new.symm)
  · intro free
    obtain rfl := first.eq_zero free
    have total : (page.setSlot 0 (some row.values)).slotTotal = page.slotTotal := List.length_set
    obtain ⟨rest, count⟩ := Nat.exists_eq_succ_of_ne_zero (Nat.ne_of_gt first.1)
    have others : (List.range rest).filterMap ((page.setSlot 0 (some row.values)).row? ∘ Nat.succ) = [] := by
      refine List.filterMap_eq_nil_iff.mpr fun other _ => ?_
      exact (stored (other + 1)).trans (free _)
    rw [rows_eq_filterMap, total, count, List.range_succ_eq_map, List.filterMap_cons, stored 0,
      List.filterMap_map, others]
    rfl

end Page

namespace TableFile

variable {file : TableFile} {disk : Disk}

/-- No header bit of a slot is set in the bytes that fill no page. -/
def Bare (file : TableFile) (disk : Disk) : Prop :=
  ∀ slot < file.capacity, headerBit (file.remainder disk) slot = false

theorem bare_of_nil (whole : file.remainder disk = []) : file.Bare disk := by
  intro slot _
  simp [whole, headerBit]

/-- The page just past the end of a file, as it is read. -/
structure Ends (file : TableFile) (disk : Disk) : Prop where
  vacant : (∃ page, file.readPage disk (file.pageId file.pageCount) = .ok page ∧ ∀ slot, page.row? slot = none) ↔
    file.Bare disk
  whole : file.pageSize ∣ (disk.bytes file.handle).length → file.Bare disk

theorem vacant_past_iff : (∃ page, file.readPage disk (file.pageId file.pageCount) = .ok page ∧
    ∀ slot, page.row? slot = none) ↔ file.Bare disk := by
  rw [readPage_past rfl rfl]
  exact Page.vacant_iff

theorem ends_of_openAt {path : Path} {schema : Schema} {size : Nat} {before : Disk}
    (opened : openAt before path schema size = .ok (disk, file)) : file.Ends disk := by
  refine ⟨vacant_past_iff, fun even => bare_of_nil (remainder_eq_nil ?_)⟩
  have counted := congrArg pageCount (@of_openAt _ _ _ ⟨path, schema, size⟩ opened).2.2.2
  change (disk.bytes file.handle).length / file.pageSize = file.pageCount at counted
  rw [Whole, ← counted, Nat.div_mul_cancel even]

end TableFile

namespace Pool

variable {pool after : Pool} {tx : TxId} {table : TableId} {page : Page} {row : Row} {rows : List Row}
variable {number slot last : Nat} {numbers : List Nat} {file : TableFile}

theorem pagesFrom_zero (pool : Pool) (table : TableId) :
    pool.pagesFrom table 0 = List.range (pool.pageCount table) := by
  rw [pagesFrom, Nat.sub_zero, List.range_eq_range']

/-- The rows of one more page come behind the others. -/
theorem readRows_concat (read : pool.readRows table numbers = (rows, .done ()))
    (loaded : (pool.load ⟨table, last⟩).2 = .done page) :
    pool.readRows table (numbers ++ [last]) = (rows ++ page.rows, .done ()) := by
  induction numbers generalizing rows with
  | nil =>
      cases read
      simp only [List.nil_append, readRows, loaded, List.append_nil]
  | cons number rest ih =>
      rw [readRows] at read
      rw [List.cons_append, readRows]
      generalize (pool.load ⟨table, number⟩).2 = outcome at read ⊢
      cases outcome with
      | failed | parked => simp at read
      | done first =>
          obtain ⟨rfl, ended⟩ := Prod.mk.inj read
          have others := ih (Prod.ext rfl ended)
          simp only [others, List.append_assoc]

theorem Full.readRows (full : pool.Full table) :
    ∃ rows, pool.readRows table (pool.pagesFrom table 0) = (rows, .done ()) := by
  rw [pagesFrom_zero]
  suffices each : ∀ count ≤ pool.pageCount table,
      ∃ rows, pool.readRows table (List.range count) = (rows, .done ()) from each _ (Nat.le_refl _)
  intro count
  induction count with
  | zero => exact fun _ => ⟨[], rfl⟩
  | succ count ih =>
      intro bound
      obtain ⟨rows, read⟩ := ih (Nat.le_of_succ_le bound)
      obtain ⟨page, loaded, _⟩ := full count bound
      exact ⟨_, List.range_succ ▸ readRows_concat read loaded⟩

/-- When the file grew by the page that got the row, a scan finds the rows of that page behind those that
it found before. -/
theorem Receives.readRows (receives : Receives tx row ⟨⟨table, number⟩, slot⟩ pool after)
    (past : number = pool.pageCount table) (loaded : (pool.load ⟨table, number⟩).2 = .done page)
    (read : pool.readRows table (pool.pagesFrom table 0) = (rows, .done ())) :
    after.readRows table (after.pagesFrom table 0) =
      (rows ++ (page.setSlot slot (some row.values)).rows, .done ()) := by
  obtain ⟨same, before, _, _, now⟩ := receives.loaded
  cases before.symm.trans loaded
  have counted := receives.counts table
  rw [if_pos ⟨rfl, past⟩] at counted
  rw [pagesFrom_zero, ← past] at read
  rw [pagesFrom_zero, counted, List.range_succ]
  have still : after.readRows table (List.range number) = (rows, .done ()) := by
    refine Eq.trans (readRows_congr fun other listed => ?_) read
    have inside := List.mem_range.mp listed
    refine receives.others _ (fun here => ?_) (past ▸ inside)
    exact Nat.ne_of_lt inside (congrArg PageId.number here)
  have all := readRows_concat still now
  exact all

/-- A table has grown by the page that got a row, and scans find what was on that page as well. -/
structure Uncovers (table : TableId) (file : TableFile) (row : Row) (page : Page) (slot : Nat)
    (pool after : Pool) : Prop where
  past : Page.decode ⟨table, file.pageCount⟩ file.schema file.pageSize (file.remainder pool.disk) = .ok page
  first : page.FirstFree slot
  /-- What a scan found before, and what a scan finds then, so far as locks let it. -/
  scans : ∃ rows, pool.readRows table (pool.pagesFrom table 0) = (rows, .done ()) ∧
    (∀ tx, ¬ StoppedByLock (pool.scanAll tx table .start).2.2.2 →
      (pool.scanAll tx table .start).2.2 = (rows, .done ())) ∧
    ∀ tx, ¬ StoppedByLock (after.scanAll tx table .start).2.2.2 →
      (after.scanAll tx table .start).2.2 = (rows ++ (page.setSlot slot (some row.values)).rows, .done ())
  only : (page.setSlot slot (some row.values)).rows = [⟨row.values, some ⟨⟨table, file.pageCount⟩, 0⟩⟩] ↔
    file.Bare pool.disk

theorem InsertEffect.uncovers {held : PageId → LockMode → Prop} {ahead strays : List Nat} {result : InsertOutcome}
    (effect : InsertEffect tx table row (Page.markDirty · (some tx)) held ahead strays pool result)
    (inFiles : pool.WithinFiles) (tails : pool.TailsAsStored) (known : pool.tables.get? table = some file)
    (full : pool.Full table) (done : result.2 = .done number)
    (longer : result.1.pageCount table = file.pageCount + 1) :
    ∃ page slot, Uncovers table file row page slot pool result.1 := by
  obtain ⟨slot, passed, receives, _, _⟩ := effect.receives tails done
  have count := pageCount_eq known
  have past : number = file.pageCount := by
    have counted := receives.counts table
    rw [longer, count] at counted
    simp only [true_and] at counted
    split at counted <;> omega
  obtain ⟨page, loaded, named, first, _⟩ := receives.page
  have own := (inFiles.files table file known).named
  have read := (tails.load_past known (Nat.le_of_eq past.symm)).mp loaded
  rw [TableFile.readPage_past own.symm past] at read
  subst past
  obtain ⟨rows, before⟩ := full.readRows
  have later := receives.readRows count.symm loaded before
  refine ⟨page, slot, read, first, ⟨rows, before, fun reader answered => ?_, fun reader answered => ?_⟩, ?_⟩
  · rw [scanAll_eq pool reader table answered, before]
  · rw [scanAll_eq _ reader table answered, later]
  · have named : page.id = ⟨table, file.pageCount⟩ := named
    rw [← named, Page.rows_setSlot_iff first]
    refine Iff.trans ⟨fun free => ⟨page, read, free⟩, fun vacant => ?_⟩ Page.vacant_iff
    obtain ⟨same, again, free⟩ := vacant
    cases read.symm.trans again
    exact free

end Pool

namespace Session

variable {session : Session} {table : TableId} {file : TableFile}

/-- What the page just past the end of a file is, whatever the file holds, and what scans find once the
file has grown by it. -/
theorem pastEnd_of_reached (reached : Reached session) (known : session.pool.tables.get? table = some file) :
    (∀ disk path schema size later opened,
      TableFile.openAt disk path schema size = .ok (later, opened) → opened.Ends later) ∧
    file.Ends session.pool.disk ∧
    ∀ action tx row stage, session.call? action = some (tx, .insert table row stage) →
      session.Enabled action → (session.act action).2 = some (.ok .nothing) → session.pool.Full table →
      (session.act action).1.pool.pageCount table = file.pageCount + 1 →
      ∃ page slot, Pool.Uncovers table file row page slot session.pool (session.act action).1.pool := by
  have inFiles := reached.inFiles
  have awaiting := reached.tailsAndWaits
  refine ⟨fun _ _ _ _ _ _ made => TableFile.ends_of_openAt made, ⟨TableFile.vacant_past_iff, fun even => ?_⟩,
    fun action tx row stage calls enabled answered full longer => ?_⟩
  · exact TableFile.bare_of_nil (awaiting.tails.remainder_of_dvd inFiles.pool known even)
  · obtain ⟨number, done⟩ := insert_of_answered calls answered
    rw [pool_of_insert calls] at longer ⊢
    have effect := insertEffect_insert inFiles awaiting enabled calls (.refl tx table _ session.pool)
    exact effect.uncovers inFiles.pool awaiting.tails known full done longer

/-! ## Fewer bytes than a page -/

/-- A file with these bytes and room for two integers on a page. -/
def oddDisk (bytes : List UInt8) : Disk := (Disk.empty.replaceFile ⟨['/', 't']⟩ bytes).1

def oddFile : TableFile :=
  ⟨TableFile.idOfPlace integerPlace, integerPlace, .file 0, .ofTypes [.int], 9, 0⟩

def oddSession (bytes : List UInt8) : Session :=
  ofDatabase ⟨⟨['/']⟩, .empty, (Pool.empty .default (oddDisk bytes)).addTable oddFile⟩

theorem openAt_oddDisk (bytes : List UInt8) (few : bytes.length / 9 = 0) :
    TableFile.openAt (oddDisk bytes) ⟨['/', 't']⟩ (.ofTypes [.int]) 9 = .ok (oddDisk bytes, oddFile) := by
  change Except.ok (oddDisk bytes, { oddFile with pageCount := bytes.length / 9 }) = _
  rw [few]
  rfl

theorem reached_oddSession (bytes : List UInt8) (few : bytes.length / 9 = 0) : Reached (oddSession bytes) :=
  .developed (@Reached.opened (oddDisk bytes) ⟨['/']⟩ .default _ (Disk.sound_empty.replaceFile _ _) rfl)
    (@Develops.registered Enabled _ ⟨⟨['/', 't']⟩, .ofTypes [.int], 9⟩ _ _ (openAt_oddDisk bytes few))

theorem enabled_oddSession (bytes : List UInt8) (number : Int32) :
    (oddSession bytes).Enabled (.insert ⟨1⟩ oddFile.id ⟨[.int number], none⟩) := by
  refine ⟨rfl, fun value listed => ?_, rfl⟩
  cases List.mem_singleton.mp listed
  rfl

theorem known_oddSession (bytes : List UInt8) :
    (oddSession bytes).pool.tables.get? oddFile.id = some oddFile := by
  change ((Pool.empty .default (oddDisk bytes)).addTable oddFile).tables.get? oddFile.id = _
  rw [Pool.get?_addTable, if_pos rfl]
  rfl

theorem full_oddSession (bytes : List UInt8) : (oddSession bytes).pool.Full oddFile.id := by
  intro number inside
  rw [Pool.pageCount_eq (known_oddSession bytes)] at inside
  contradiction

/-- Five bytes with no bit of a slot: a scan finds the new row and no other. -/
theorem pastEnd_of_unusedBytes :
    Reached (oddSession [4, 7, 0, 0, 0]) ∧ oddFile.Ends (oddDisk [4, 7, 0, 0, 0]) ∧
      oddFile.Bare (oddDisk [4, 7, 0, 0, 0]) ∧
      ∃ page slot, Pool.Uncovers oddFile.id oddFile ⟨[.int 3], none⟩ page slot (oddSession [4, 7, 0, 0, 0]).pool
        ((oddSession [4, 7, 0, 0, 0]).act (.insert ⟨1⟩ oddFile.id ⟨[.int 3], none⟩)).1.pool := by
  have reached := reached_oddSession [4, 7, 0, 0, 0] rfl
  obtain ⟨opens, _, grows⟩ := pastEnd_of_reached reached (known_oddSession _)
  refine ⟨reached, opens _ _ _ _ _ _ (openAt_oddDisk _ rfl), ?_,
    grows _ _ _ _ rfl (enabled_oddSession _ 3) (by decide +kernel) (full_oddSession _) (by decide +kernel)⟩
  intro slot inside
  have low : slot < 2 := inside
  interval_cases slot <;> rfl

set_option maxRecDepth 4000 in
/-- Five bytes with the bit of a slot: the row that they hold is read past the end, and comes up in a scan
once the file has grown. -/
theorem uncovered_of_usedBytes :
    ∃ session page, Reached session ∧ session.pool.tables.get? oddFile.id = some oddFile ∧
      oddFile.readPage session.pool.disk (oddFile.pageId oddFile.pageCount) = .ok page ∧
      page.row? 0 = some ⟨[.int 7], some ⟨⟨oddFile.id, 0⟩, 0⟩⟩ ∧ session.pool.Full oddFile.id ∧
      session.Enabled (.insert ⟨1⟩ oddFile.id ⟨[.int 3], none⟩) ∧
      (session.act (.insert ⟨1⟩ oddFile.id ⟨[.int 3], none⟩)).2 = some (.ok .nothing) ∧
      (session.pool.scanAll ⟨1⟩ oddFile.id .start).2.2 = ([], .done ()) ∧
      ((session.act (.insert ⟨1⟩ oddFile.id ⟨[.int 3], none⟩)).1.pool.scanAll ⟨1⟩ oddFile.id .start).2.2 =
        ([⟨[.int 7], some ⟨⟨oddFile.id, 0⟩, 0⟩⟩, ⟨[.int 3], some ⟨⟨oddFile.id, 0⟩, 1⟩⟩], .done ()) := by
  refine ⟨oddSession [1, 7, 0, 0, 0], _, reached_oddSession _ rfl, known_oddSession _, by rfl, by rfl,
    full_oddSession _, enabled_oddSession _ 3, by decide +kernel, by decide +kernel, by decide +kernel⟩

end Session

end RowStore
