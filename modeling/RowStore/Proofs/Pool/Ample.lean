import RowStore.Proofs.Pool.Alone
import RowStore.Proofs.Pool.Listing

namespace RowStore

/-! Scans of a table that rows are stored in meanwhile.

Rows go to the first free slot. A scan has read the pages before the one that it reads
next, so it does not come by the new rows as long as they go to these pages. They do when
these pages have a free slot for every row that was read and is still to be stored, at each
page on the way. Then the scan hands out the rows that the table had when it began.
-/

namespace Page

variable {page : Page} {slot : Nat} {values : List Value}

theorem length_rows_setSlot (first : page.FirstFree slot) (values : List Value) :
    (page.setSlot slot (some values)).rows.length = page.rows.length + 1 := by
  have short : slot < page.slots.length := first.1
  have free : page.slots[slot].isNone := by
    rw [← Option.not_isSome, ← isSome_row? short, first.2.1]
    rfl
  have some_free : 0 < page.freeCount := List.countP_pos_iff.mpr ⟨_, List.getElem_mem short, free⟩
  have fewer : (page.setSlot slot (some values)).freeCount = page.freeCount - 1 := by
    simp only [freeCount, setSlot, List.countP_set short, free, if_true, Option.isNone_some, Bool.false_eq_true,
      if_false, Nat.add_zero]
  have total : (page.setSlot slot (some values)).slotTotal = page.slotTotal := List.length_set
  have before := page.freeCount_add_length_rows
  have after := (page.setSlot slot (some values)).freeCount_add_length_rows
  omega

theorem exists_free_of_rows (few : page.rows.length < page.slotTotal) :
    ∃ slot < page.slotTotal, page.row? slot = none := by
  have total := page.freeCount_add_length_rows
  have some_free : 0 < page.freeCount := by omega
  rw [freeCount_eq_countP, List.countP_pos_iff] at some_free
  obtain ⟨slot, listed, free⟩ := some_free
  exact ⟨slot, List.mem_range.mp listed, Option.isNone_iff_eq_none.mp free⟩

end Page

namespace Pool

variable {pool middle after : Pool} {tx : TxId} {table : TableId} {id : PageId} {page : Page} {file : TableFile}
variable {row taken : Row} {rows queue : List Row} {record : RecordId} {number count first : Nat}
variable {position reached : ScanPosition}

theorem Typed.slotTotal_of_load (typed : pool.Typed) (inFiles : pool.WithinFiles)
    (known : pool.tables.get? id.table = some file) (loaded : (pool.load id).2 = .done page) :
    page.slotTotal = file.capacity := by
  have inFile := inFiles.pageInFile_of_load loaded
  obtain ⟨other, found, size, _⟩ := inFile.filed
  rw [(reads_load pool id).tables] at found
  cases known.symm.trans found
  have schema := typed.of_load loaded file (inFile.restorable.named ▸ known)
  exact inFile.restorable.wellFormed.count.trans (by rw [size, schema, TableFile.capacity])

/-! ## Counting rows -/

/-- Pages that have fewer rows than slots have a free slot. -/
theorem exists_vacant_before (had : ∀ number < count, ∃ page, (pool.load ⟨table, number⟩).2 = .done page ∧
      page.slotTotal = file.capacity) (inside : count ≤ pool.pageCount table)
    (few : (pool.rowsBefore table count).length < count * file.capacity) :
    ∃ record, pool.Vacant table record ∧ record.page.number < count := by
  induction count with
  | zero => simp at few
  | succ count ih =>
      rw [rowsBefore_succ, List.length_append, Nat.succ_mul] at few
      by_cases before : (pool.rowsBefore table count).length < count * file.capacity
      · obtain ⟨record, vacant, below⟩ := ih (fun number below => had number (Nat.lt_succ_of_lt below))
          (Nat.le_of_succ_le inside) before
        exact ⟨record, vacant, Nat.lt_succ_of_lt below⟩
      · obtain ⟨page, loaded, total⟩ := had count (Nat.lt_succ_self count)
        rw [rowsOf_eq loaded] at few
        obtain ⟨slot, within, free⟩ := page.exists_free_of_rows (by omega)
        exact ⟨⟨⟨table, count⟩, slot⟩, ⟨rfl, inside, page, loaded, within, free⟩, Nat.lt_succ_self count⟩

section Store

variable (stores : Stores tx table file row record pool after) (alone : Alone tx table pool)
  (serves : Serves table file pool)
include stores alone serves

theorem Stores.rowsOf_of_ne (differs : id ≠ record.page) : after.rowsOf id = pool.rowsOf id :=
  rowsOf_congr fun _ => stores.row?_of_ne alone serves fun same => differs (congrArg RecordId.page same)

/-- The page of the new row has one more row, and no other page has. -/
theorem Stores.length_rowsBefore (count : Nat) : (after.rowsBefore table count).length =
    (pool.rowsBefore table count).length + if record.page.number < count then 1 else 0 := by
  induction count with
  | zero => rfl
  | succ count ih =>
      rw [rowsBefore_succ, rowsBefore_succ, List.length_append, List.length_append, ih]
      by_cases here : (⟨table, count⟩ : PageId) = record.page
      · obtain ⟨page, before, _, first, loaded⟩ := stores.loaded
        have more : (after.rowsOf ⟨table, count⟩).length = (pool.rowsOf ⟨table, count⟩).length + 1 := by
          rw [here, rowsOf_eq before, rowsOf_eq loaded]
          exact Page.length_rows_setSlot first row.values
        rw [more, ← here]
        simp
        omega
      · have apart : record.page.number ≠ count := fun same => here (by rw [← same, ← stores.home])
        rw [stores.rowsOf_of_ne alone serves here]
        split <;> split <;> omega

end Store

/-! ## What a scan has before it -/

/-- The rows of the pages that are not read yet. -/
def rowsFrom (pool : Pool) (table : TableId) (first : Nat) : List Row :=
  (List.range (pool.pageCount table - first)).flatMap fun number => pool.rowsOf ⟨table, first + number⟩

/-- A scan of a table that stands at a position has these rows before it, and can have their pages. -/
structure Ahead (table : TableId) (pool : Pool) (position : ScanPosition) (rows : List Row) : Prop where
  inside : position.nextPage ≤ pool.pageCount table
  rows : rows = position.queue ++ pool.rowsFrom table position.nextPage
  had : ∀ number < pool.pageCount table, position.nextPage ≤ number →
    ∃ page, (pool.load ⟨table, number⟩).2 = .done page

/-- When a scan of a table comes to any of its pages, the pages before it have a free slot for each row that
was read and is not stored yet. -/
def Ample (table : TableId) (file : TableFile) (pool : Pool) (position : ScanPosition) : Prop :=
  ∀ count, position.nextPage ≤ count → count ≤ pool.pageCount table →
    position.queue.length + 2 * (pool.rowsBefore table count).length ≤
      count * file.capacity + (pool.rowsBefore table position.nextPage).length

theorem ample_start_iff : Ample table file pool .start ↔
    ∀ count ≤ pool.pageCount table, 2 * (pool.rowsBefore table count).length ≤ count * file.capacity := by
  simp [Ample, ScanPosition.start, rowsBefore]

theorem rowsBefore_append_rowsFrom (inside : first ≤ pool.pageCount table) :
    pool.rowsBefore table (pool.pageCount table) = pool.rowsBefore table first ++ pool.rowsFrom table first := by
  obtain ⟨more, total⟩ := Nat.exists_eq_add_of_le inside
  rw [rowsFrom, total, Nat.add_sub_cancel_left, rowsBefore_append]

/-- Pages are read up to one that has a row. -/
theorem WithinFiles.scanAhead_had (inFiles : pool.WithinFiles) (unlocked : pool.Unlocked tx) (first length : Nat)
    (had : ∀ number, first ≤ number → number < first + length → ∃ page, (pool.load ⟨table, number⟩).2 = .done page) :
    ∃ after reached queue, scanAhead tx table (List.range' first length) ⟨first, []⟩ pool =
        (after, ⟨reached, queue⟩, .done !queue.isEmpty) ∧ Looks tx pool after ∧
      first ≤ reached ∧ reached ≤ first + length ∧ (queue = [] → reached = first + length) ∧
      pool.rowsBefore table reached = pool.rowsBefore table first ++ queue ∧
      ∀ count, first ≤ count → count < reached → pool.rowsBefore table count = pool.rowsBefore table first := by
  induction length generalizing pool first with
  | zero =>
      exact ⟨pool, first, [], rfl, inFiles.looks_refl tx, Nat.le_refl _, Nat.le_refl _, fun _ => rfl,
        (List.append_nil _).symm, fun count behind below => absurd below (Nat.not_lt.mpr behind)⟩
  | succ length ih =>
      obtain ⟨page, loaded⟩ := had first (Nat.le_refl _) (by omega)
      have attempts := inFiles.attempts tx ⟨table, first⟩ .shared
      rw [List.range'_succ, scanAhead]
      generalize pool.fetch tx ⟨table, first⟩ .shared = result at attempts ⊢
      obtain ⟨middle, outcome⟩ := result
      cases outcome with
      | parked stage => exact absurd unlocked (attempts.parked stage rfl)
      | failed error =>
          rcases attempts.failed error rfl with ⟨_, locked, _⟩ | failed
          · exact absurd unlocked locked
          · cases loaded.symm.trans failed
      | done found =>
          cases loaded.symm.trans (attempts.had found rfl)
          have looks := attempts.toLooks
          have read : pool.rowsBefore table (first + 1) = pool.rowsBefore table first ++ page.rows := by
            rw [rowsBefore_succ, rowsOf_eq loaded]
          simp only
          split
          · next empty =>
            rw [List.isEmpty_iff.mp empty] at read ⊢
            obtain ⟨after, reached, queue, scans, later, past, within, ended, rows, skipped⟩ := ih looks.inFiles
              (looks.unlocked unlocked) (first + 1) fun number behind below => by
                rw [looks.load]
                exact had number (by omega) (by omega)
            have same : ∀ count, middle.rowsBefore table count = pool.rowsBefore table count := fun count => by
              simp only [rowsBefore, rowsOf, looks.load]
            simp only [same, read, List.append_nil] at rows skipped
            refine ⟨after, reached, queue, scans, looks.trans later, by omega, by omega,
              fun dry => by rw [ended dry]; omega, rows, fun count behind below => ?_⟩
            rcases Nat.lt_or_eq_of_le behind with ahead | rfl
            · exact skipped count ahead below
            · rfl
          · next some_row =>
            refine ⟨middle, first + 1, page.rows, by rw [Bool.not_eq_true] at some_row; rw [some_row]; rfl, looks,
              by omega, by omega, fun dry => ?_, read, fun count behind below => ?_⟩
            · rw [dry] at some_row
              exact absurd rfl some_row
            · rw [Nat.le_antisymm (Nat.le_of_lt_succ below) behind]

/-- What a scan has before it when it was asked whether there is another row. -/
structure Asked (tx : TxId) (table : TableId) (pool : Pool) (position : ScanPosition) (rows : List Row)
    (after : Pool)
    (reached : ScanPosition) : Prop where
  looks : Looks tx pool after
  ahead : Ahead table after reached rows
  queued : rows ≠ [] → reached.queue ≠ []
  onward : position.nextPage ≤ reached.nextPage
  read : (pool.rowsBefore table reached.nextPage).length + position.queue.length =
    (pool.rowsBefore table position.nextPage).length + reached.queue.length
  skipped : ∀ count, position.nextPage ≤ count → count < reached.nextPage →
    position.queue = [] ∧ pool.rowsBefore table count = pool.rowsBefore table position.nextPage

/-- A scan says that there is another row just if there is, and then has it in its queue. -/
theorem Ahead.asks (ahead : Ahead table pool position rows) (inFiles : pool.WithinFiles)
    (unlocked : pool.Unlocked tx) :
    ∃ after reached, pool.scanHasNext tx table position = (after, reached, .done !rows.isEmpty) ∧
      Asked tx table pool position rows after reached := by
  obtain ⟨inside, left, had⟩ := ahead
  obtain ⟨first, queue⟩ := position
  unfold scanHasNext
  split
  · next empty =>
    obtain rfl : queue = [] := List.isEmpty_iff.mp empty
    simp only [List.nil_append] at inside left had
    obtain ⟨after, reached, queue, scans, looks, past, within, ended, read, skipped⟩ := inFiles.scanAhead_had unlocked
      first (pool.pageCount table - first) fun number behind below => had number (by omega) behind
    have bound : reached ≤ pool.pageCount table := by omega
    have total := rowsBefore_append_rowsFrom bound
    rw [rowsBefore_append_rowsFrom inside, read, List.append_assoc, List.append_cancel_left_eq, ← left] at total
    have later : after.rowsFrom table reached = pool.rowsFrom table reached := by
      simp only [rowsFrom, rowsOf, looks.load, looks.pageCount]
    have dry : queue = [] ↔ rows = [] := by
      refine ⟨fun dry => ?_, fun none => ?_⟩
      · rw [total, dry, ended dry, rowsFrom]
        simp; omega
      · rw [none] at total
        exact (List.append_eq_nil_iff.mp total.symm).1
    refine ⟨after, ⟨reached, queue⟩, ?_, looks, ⟨?_, ?_, ?_⟩, fun some => mt dry.mp some, past, ?_,
      fun count behind below => ⟨rfl, skipped count behind below⟩⟩
    · rw [pagesFrom, scans]
      have agree : queue.isEmpty = rows.isEmpty := by rw [Bool.eq_iff_iff, List.isEmpty_iff, List.isEmpty_iff, dry]
      rw [agree]
    · rw [looks.pageCount]
      exact bound
    · rw [later]
      exact total
    · intro number below behind
      rw [looks.load]
      exact had number (looks.pageCount table ▸ below) (Nat.le_trans past behind)
    · rw [read, List.length_append]
      rfl
  · next some_row =>
    have more : rows ≠ [] := by
      rintro rfl
      exact some_row (by simpa using (List.append_eq_nil_iff.mp left.symm).1)
    refine ⟨pool, ⟨first, queue⟩, ?_, inFiles.looks_refl tx, ⟨inside, left, had⟩, fun _ dry => some_row ?_,
      Nat.le_refl _, rfl, fun count behind below => absurd below (Nat.not_lt.mpr behind)⟩
    · cases rows with
      | nil => exact absurd rfl more
      | cons => rfl
    · exact List.isEmpty_iff.mpr dry

theorem Asked.rowsBefore (asked : Asked tx table pool position rows after reached) (count : Nat) :
    after.rowsBefore table count = pool.rowsBefore table count := by
  simp only [Pool.rowsBefore, rowsOf, asked.looks.load]

theorem length_rowsBefore_mono (pool : Pool) (table : TableId) (bound : first ≤ count) :
    (pool.rowsBefore table first).length ≤ (pool.rowsBefore table count).length := by
  obtain ⟨more, rfl⟩ := Nat.exists_eq_add_of_le bound
  rw [rowsBefore_append, List.length_append]
  exact Nat.le_add_right _ _

/-- Where no row is left, none needs room. -/
theorem Ahead.ample_of_nil (ahead : Ahead table pool position [])
    (room : (pool.rowsBefore table position.nextPage).length ≤ position.nextPage * file.capacity) :
    Ample table file pool position := by
  obtain ⟨none, rest⟩ := List.append_eq_nil_iff.mp ahead.rows.symm
  intro count behind bound
  have all := rowsBefore_append_rowsFrom ahead.inside
  rw [rest, List.append_nil] at all
  have fewer := all ▸ length_rowsBefore_mono pool table bound
  have more := Nat.mul_le_mul_right file.capacity behind
  rw [none, List.length_nil]
  omega

/-- Reading pages makes no room for rows and needs none. -/
theorem Asked.ample_iff (asked : Asked tx table pool position rows after reached)
    (room : (pool.rowsBefore table position.nextPage).length ≤ position.nextPage * file.capacity) :
    Ample table file after reached ↔ Ample table file pool position := by
  have read := asked.read
  refine ⟨fun ample count behind bound => ?_, fun ample count behind bound => ?_⟩
  · by_cases before : count < reached.nextPage
    · -- The pages up to there have no row.
      obtain ⟨none, same⟩ := asked.skipped count behind before
      have more := Nat.mul_le_mul_right file.capacity behind
      rw [same, none, List.length_nil]
      omega
    · have enough := ample count (Nat.not_lt.mp before) (asked.looks.pageCount table ▸ bound)
      rw [asked.rowsBefore, asked.rowsBefore] at enough
      omega
  · have enough := ample count (Nat.le_trans asked.onward behind) (asked.looks.pageCount table ▸ bound)
    rw [asked.rowsBefore, asked.rowsBefore]
    omega

/-- A row was taken and stored, and the pages that are not read yet show what they showed. -/
theorem Ahead.stored (ahead : Ahead table pool ⟨first, taken :: queue⟩ (row :: rows))
    (same : ∀ number < pool.pageCount table, first ≤ number →
      (after.load ⟨table, number⟩).2 = (pool.load ⟨table, number⟩).2)
    (size : after.pageCount table = pool.pageCount table) : Ahead table after ⟨first, queue⟩ rows := by
  obtain ⟨inside, left, had⟩ := ahead
  simp only [List.cons_append, List.cons.injEq] at inside left had
  refine ⟨size.symm ▸ inside, ?_, fun number below behind => ?_⟩
  · rw [left.2, rowsFrom, rowsFrom, size, List.flatMap_def, List.flatMap_def]
    refine congrArg (queue ++ List.flatten ·) (List.map_congr_left fun number listed => ?_)
    have below := List.mem_range.mp listed
    simp only [rowsOf, same (first + number) (by omega) (Nat.le_add_right _ _)]
  · rw [size] at below
    rw [same number below behind]
    exact had number below behind

/-! ## A scan of the table that is written -/

/-- Pages have no more rows than they have slots. -/
theorem Alone.length_rowsBefore_le (alone : Alone tx table pool) (serves : Serves table file pool) (count : Nat) :
    (pool.rowsBefore table count).length ≤ count * file.capacity := by
  obtain ⟨_, known⟩ := serves.known
  induction count with
  | zero => exact Nat.zero_le _
  | succ count ih =>
      have fits : (pool.rowsOf ⟨table, count⟩).length ≤ file.capacity := by
        generalize loaded : (pool.load ⟨table, count⟩).2 = outcome
        cases outcome with
        | failed | parked => simp [rowsOf, loaded]
        | done page =>
            have total := alone.typed.slotTotal_of_load alone.inFiles known loaded
            have all := page.freeCount_add_length_rows
            rw [rowsOf_eq loaded]
            exact (Nat.le_add_left _ _).trans (all.trans total).le
      rw [rowsBefore_succ, List.length_append, Nat.succ_mul]
      exact Nat.add_le_add ih fits

section Store

variable (alone : Alone tx table pool) (serves : Serves table file pool)
  (stores : Stores tx table file row record pool after)
include alone serves stores

/-- Where there is room, the row goes to a page that was read. -/
theorem Ample.lands (ample : Ample table file pool ⟨first, taken :: queue⟩)
    (inside : first ≤ pool.pageCount table) :
    record.page.number < first := by
  obtain ⟨count, known⟩ := serves.known
  have enough := ample first (Nat.le_refl _) inside
  simp only [List.length_cons] at enough
  obtain ⟨other, vacant, below⟩ := @exists_vacant_before pool table file first (fun number below => by
    obtain ⟨page, loaded⟩ := serves.had number (Nat.lt_of_lt_of_le below inside)
    have total := @Typed.slotTotal_of_load pool ⟨table, number⟩ page _ alone.typed alone.inFiles known loaded
    exact ⟨page, loaded, total⟩) inside (by omega)
  rcases (stores.least ⟨other, vacant⟩).2 other vacant with lower | ⟨same, _⟩
  · exact Nat.lt_trans lower below
  · exact same ▸ below

/-- When a row goes to a page that is not read yet, the scan comes by it as well. -/
theorem Ahead.stored_above (ahead : Ahead table pool ⟨first, taken :: queue⟩ (taken :: rows))
    (high : first ≤ record.page.number) :
    Ahead table after ⟨first, queue⟩ (queue ++ after.rowsFrom table first) ∧
      rows.length < (queue ++ after.rowsFrom table first).length := by
  have inside := Nat.le_trans ahead.inside stores.longer
  refine ⟨⟨inside, rfl, fun number below _ => stores.serves.had number below⟩, ?_⟩
  have left : rows = queue ++ pool.rowsFrom table first := (List.cons.inj ahead.rows).2
  have before := congrArg List.length (rowsBefore_append_rowsFrom ahead.inside)
  have now := congrArg List.length (rowsBefore_append_rowsFrom inside)
  have more := length_rowsBefore_mono pool table stores.longer
  simp only [List.length_append] at before now
  rw [stores.length_rowsBefore alone serves, stores.length_rowsBefore alone serves, if_pos stores.inside,
    if_neg (Nat.not_lt.mpr high)] at now
  rw [left, List.length_append, List.length_append]
  omega

variable (low : record.page.number < first)
include low

theorem Stores.pageCount_of_low (inside : first ≤ pool.pageCount table) :
    after.pageCount table = pool.pageCount table := by
  rw [stores.counts table, if_neg]
  rintro ⟨rfl, past⟩
  exact Nat.not_lt.mpr inside (past ▸ low)

/-- When it goes to a page that was read, the scan has the same rows before it but for the one that was taken,
and as much room. -/
theorem Ahead.stored_below (ahead : Ahead table pool ⟨first, taken :: queue⟩ (taken :: rows)) :
    Ahead table after ⟨first, queue⟩ rows ∧
      (Ample table file after ⟨first, queue⟩ ↔ Ample table file pool ⟨first, taken :: queue⟩) := by
  have size := stores.pageCount_of_low alone serves low ahead.inside
  refine ⟨ahead.stored (fun number below behind => stores.others _ (fun same => ?_) below) size, ?_⟩
  · rw [← same] at low
    exact Nat.not_lt.mpr behind low
  · refine forall_congr' fun count => forall_congr' fun behind => ?_
    rw [size, stores.length_rowsBefore alone serves, stores.length_rowsBefore alone serves, if_pos low,
      if_pos (Nat.lt_of_lt_of_le low behind)]
    simp only [List.length_cons]
    exact forall_congr' fun _ => by omega

end Store

end Pool

end RowStore
