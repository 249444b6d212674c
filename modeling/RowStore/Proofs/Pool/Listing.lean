import RowStore.Proofs.Pool.FirstFit
import RowStore.Proofs.Pool.Passes

namespace RowStore

/-! The rows of a table in the order in which a scan hands them out.

A scan reads one page at a time and may stop before any of them, for a lock or because the
page cannot be had. Where it stands it has the rows of the pages before, as long as these
pages show the same rows.
-/

/-- Page by page, and slot by slot. -/
def RecordId.Before (first second : RecordId) : Prop :=
  first.page.number < second.page.number ∨ first.page.number = second.page.number ∧ first.slot < second.slot

/-- The first row stands before the second one. -/
def Row.Before (first second : Row) : Prop :=
  ∃ place later, first.location = some place ∧ second.location = some later ∧ place.Before later

namespace Pool

variable {pool middle after : Pool} {tx : TxId} {table : TableId} {id : PageId} {page : Page}
variable {row : Row} {rows : List Row} {count number slot : Nat}

/-- The rows of a page as it is had; there are none of a page that cannot be had. -/
def rowsOf (pool : Pool) (id : PageId) : List Row :=
  match (pool.load id).2 with
  | .done page => page.rows
  | _ => []

/-- The rows of the first pages of a table. -/
def rowsBefore (pool : Pool) (table : TableId) (count : Nat) : List Row :=
  (List.range count).flatMap fun number => pool.rowsOf ⟨table, number⟩

/-- These are the rows of the first pages of a table, each with its place, once, and in order. -/
structure Lists (pool : Pool) (table : TableId) (count : Nat) (rows : List Row) : Prop where
  mem_iff : ∀ row, row ∈ rows ↔ ∃ number < count, ∃ slot, pool.row? ⟨⟨table, number⟩, slot⟩ = some row
  located : ∀ record row, pool.row? record = some row → row.location = some record
  ascending : rows.Pairwise Row.Before

theorem rowsOf_eq (loaded : (pool.load id).2 = .done page) : pool.rowsOf id = page.rows := by
  rw [rowsOf, loaded]

theorem rowsBefore_succ (pool : Pool) (table : TableId) (count : Nat) :
    pool.rowsBefore table (count + 1) = pool.rowsBefore table count ++ pool.rowsOf ⟨table, count⟩ := by
  rw [rowsBefore, List.range_succ, List.flatMap_append, List.flatMap_singleton, rowsBefore]

theorem rowsBefore_append (pool : Pool) (table : TableId) (count more : Nat) :
    pool.rowsBefore table (count + more) = pool.rowsBefore table count ++
      (List.range more).flatMap fun number => pool.rowsOf ⟨table, count + number⟩ := by
  rw [rowsBefore, List.range_add, List.flatMap_append, List.flatMap_map, rowsBefore]

theorem mem_rowsOf_iff : row ∈ pool.rowsOf id ↔ ∃ slot, pool.row? ⟨id, slot⟩ = some row := by
  unfold rowsOf
  split
  · next page loaded =>
    rw [Page.mem_rows_iff]
    exact exists_congr fun slot => by rw [@row?_eq _ _ ⟨id, slot⟩ loaded]
  · next missing =>
    refine ⟨fun listed => by contradiction, fun ⟨slot, held⟩ => ?_⟩
    unfold row? at held
    split at held
    · next page loaded => exact absurd loaded (missing page)
    · contradiction

theorem WithinFiles.location_of_row? (inFiles : pool.WithinFiles) {record : RecordId}
    (held : pool.row? record = some row) :
    row.location = some record := by
  unfold row? at held
  split at held
  · next page loaded =>
    rw [Page.location_of_row? held, inFiles.id_of_load loaded]
  · contradiction

theorem ascending_rowsOf (pool : Pool) (id : PageId) : (pool.rowsOf id).Pairwise Row.Before := by
  unfold rowsOf
  split
  · next page loaded =>
    rw [Page.rows_eq_filterMap, List.pairwise_filterMap]
    refine List.pairwise_lt_range.imp fun {slot later} less row first other second => ?_
    exact ⟨_, _, Page.location_of_row? first, Page.location_of_row? second, .inr ⟨rfl, less⟩⟩
  · exact .nil

/-- What the rows of first pages are. -/
theorem WithinFiles.lists_rowsBefore (inFiles : pool.WithinFiles) (table : TableId) (count : Nat) :
    pool.Lists table count (pool.rowsBefore table count) := by
  refine ⟨fun row => ?_, fun record row => inFiles.location_of_row?, ?_⟩
  · simp only [rowsBefore, List.mem_flatMap, List.mem_range, mem_rowsOf_iff]
  · rw [rowsBefore, List.pairwise_flatMap]
    refine ⟨fun number _ => pool.ascending_rowsOf _, List.pairwise_lt_range.imp fun {number later} less => ?_⟩
    intro row first other second
    obtain ⟨slot, held⟩ := mem_rowsOf_iff.mp first
    obtain ⟨place, stood⟩ := mem_rowsOf_iff.mp second
    exact ⟨_, _, inFiles.location_of_row? held, inFiles.location_of_row? stood, .inl less⟩

/-- Pages that add no row have none. -/
theorem row?_eq_none_of_rowsBefore {first last : Nat} (ahead : first ≤ last)
    (same : pool.rowsBefore table last = pool.rowsBefore table first) (between : first ≤ number ∧ number < last)
    (slot : Nat) : pool.row? ⟨⟨table, number⟩, slot⟩ = none := by
  obtain ⟨more, rfl⟩ := Nat.exists_eq_add_of_le ahead
  obtain ⟨place, rfl⟩ := Nat.exists_eq_add_of_le between.1
  rw [rowsBefore_append, List.append_right_eq_self, List.flatMap_eq_nil_iff] at same
  have nothing := same place (List.mem_range.mpr (by omega))
  by_contra held
  obtain ⟨row, held⟩ := Option.ne_none_iff_exists'.mp held
  have listed := mem_rowsOf_iff.mpr ⟨slot, held⟩
  rw [nothing] at listed
  contradiction

/-! ## Tables that stand still -/

/-- A table has the pages that it had, and in every slot of them the row that it had. -/
structure Unaltered (table : TableId) (pool after : Pool) : Prop where
  count : after.pageCount table = pool.pageCount table
  rows : ∀ number < pool.pageCount table, ∀ slot,
    after.row? ⟨⟨table, number⟩, slot⟩ = pool.row? ⟨⟨table, number⟩, slot⟩

theorem Unaltered.refl (table : TableId) (pool : Pool) : Unaltered table pool pool := ⟨rfl, fun _ _ _ => rfl⟩

theorem Unaltered.trans (early : Unaltered table pool middle) (late : Unaltered table middle after) :
    Unaltered table pool after :=
  ⟨late.count.trans early.count, fun number inside slot =>
    (late.rows number (early.count.symm ▸ inside) slot).trans (early.rows number inside slot)⟩

theorem Reads.unaltered (reads : Reads pool after) (table : TableId) : Unaltered table pool after :=
  ⟨reads.pageCount table, fun _ _ _ => row?_congr (reads.load _)⟩

/-- How many slots are looked at does not matter, if there are enough. -/
theorem rowsOf_eq_filterMap (pool : Pool) (id : PageId) : ∃ total, ∀ more,
    pool.rowsOf id = (List.range (total + more)).filterMap fun slot => pool.row? ⟨id, slot⟩ := by
  generalize loaded : (pool.load id).2 = outcome
  cases outcome with
  | done page =>
      refine ⟨page.slotTotal, fun more => ?_⟩
      have held : (fun slot => pool.row? ⟨id, slot⟩) = page.row? :=
        funext fun slot => @row?_eq _ _ ⟨id, slot⟩ loaded
      have past : (List.map (page.slotTotal + ·) (List.range more)).filterMap page.row? = [] := by
        refine List.filterMap_eq_nil_iff.mpr fun slot listed => ?_
        obtain ⟨place, _, rfl⟩ := List.mem_map.mp listed
        exact Page.row?_eq_none_of_le (Nat.le_add_right _ _)
      rw [held, List.range_add, List.filterMap_append, past, List.append_nil, rowsOf_eq loaded,
        Page.rows_eq_filterMap]
  | failed | parked =>
      refine ⟨0, fun more => ?_⟩
      rw [rowsOf, loaded]
      exact (List.filterMap_eq_nil_iff.mpr fun slot _ => by rw [row?, loaded]).symm

theorem rowsOf_congr (same : ∀ slot, after.row? ⟨id, slot⟩ = pool.row? ⟨id, slot⟩) :
    after.rowsOf id = pool.rowsOf id := by
  obtain ⟨total, before⟩ := pool.rowsOf_eq_filterMap id
  obtain ⟨later, now⟩ := after.rowsOf_eq_filterMap id
  rw [now total, before later, Nat.add_comm]
  simp only [same]

theorem Unaltered.rowsBefore (unaltered : Unaltered table pool after) (inside : count ≤ pool.pageCount table) :
    after.rowsBefore table count = pool.rowsBefore table count := by
  rw [Pool.rowsBefore, Pool.rowsBefore, List.flatMap_def, List.flatMap_def]
  refine congrArg List.flatten (List.map_congr_left fun number listed => rowsOf_congr ?_)
  exact unaltered.rows number (Nat.lt_of_lt_of_le (List.mem_range.mp listed) inside)

/-! ## Passes over a table that stands still -/

/-- The rows are those of the first pages of the table, and if the transaction keeps its locks these pages
are locked. -/
structure Reaches (keeping : Prop) (tx : TxId) (table : TableId) (pool : Pool) (count : Nat) (rows : List Row) :
    Prop where
  inFiles : pool.WithinFiles
  inside : count ≤ pool.pageCount table
  rows : rows = pool.rowsBefore table count
  has : keeping → ∀ number < count, pool.locks.Has tx ⟨table, number⟩ .shared

variable {keeping : Prop}

theorem WithinFiles.reaches_none (inFiles : pool.WithinFiles) : Reaches keeping tx table pool 0 [] :=
  ⟨inFiles, Nat.zero_le _, rfl, fun _ => nofun⟩

theorem Reaches.keep (reaches : Reaches keeping tx table pool count rows) (inFiles : after.WithinFiles)
    (unaltered : Unaltered table pool after)
    (has : keeping → ∀ number, pool.locks.Has tx ⟨table, number⟩ .shared →
      after.locks.Has tx ⟨table, number⟩ .shared) :
    Reaches keeping tx table after count rows :=
  ⟨inFiles, unaltered.count.symm ▸ reaches.inside,
    reaches.rows.trans (unaltered.rowsBefore reaches.inside).symm,
    fun keeps number below => has keeps number (reaches.has keeps number below)⟩

theorem readsOn_reaches (keeping : Prop) (tx : TxId) (table : TableId) :
    ReadsOn tx table (Reaches keeping tx table) := by
  have stop : ∀ {pool count rows}, Reaches keeping tx table pool count rows →
      Reaches keeping tx table (pool.fetch tx ⟨table, count⟩ .shared).1 count rows := by
    intro pool count rows reaches
    have fetches := reaches.inFiles.fetchEffect tx ⟨table, count⟩ .shared
    exact reaches.keep fetches.inFiles (fetches.reads.unaltered table) fun _ _ has => fetches.keeps has
  refine ⟨Reaches.inside, @fun pool after count rows page reaches inside fetched => ?_, stop⟩
  have fetches := reaches.inFiles.fetchEffect tx ⟨table, count⟩ .shared
  have kept := stop reaches
  rw [fetched] at fetches kept
  refine ⟨fetches.inFiles, ?_, ?_, fun keeps number below => ?_⟩
  · rw [fetches.reads.pageCount]
    exact inside
  · rw [rowsBefore_succ, ← kept.rows, rowsOf_eq ((fetches.reads.load _).trans (fetches.loaded page rfl))]
  · rcases Nat.lt_succ_iff_lt_or_eq.mp below with early | rfl
    · exact kept.has keeps number early
    · exact (fetches.has page rfl _ _).mpr (.inr ⟨rfl, nofun⟩)

/-! ## Where a scan stops -/

/-- A scan that is stopped has handed out all that it had read. It stands at the page that could not be had,
or that it waits for. -/
structure Stalls (tx : TxId) (table : TableId) (pool : Pool) (position : ScanPosition)
    (result : Pool × ScanPosition × Outcome Unit Bool) : Prop where
  stopped : (∀ more, result.2.2 ≠ .done more) →
    position.queue = [] ∧ result.2.1.queue = [] ∧ position.nextPage ≤ result.2.1.nextPage
  cause : ∀ error, result.2.2 = .failed error → (∃ reason, error = .aborted tx reason) ∨
    (pool.load ⟨table, result.2.1.nextPage⟩).2 = .failed error

theorem stalls_scanAhead (pool : Pool) (tx : TxId) (table : TableId) (first length : Nat) :
    Stalls tx table pool ⟨first, []⟩ (scanAhead tx table (List.range' first length) ⟨first, []⟩ pool) := by
  induction length generalizing pool first with
  | zero => exact ⟨fun undone => absurd rfl (undone false), by simp [scanAhead]⟩
  | succ length ih =>
      have reads := reads_fetch pool tx ⟨table, first⟩ .shared
      have errors : ∀ error, (pool.fetch tx ⟨table, first⟩ .shared).2 = .failed error →
          (∃ reason, error = .aborted tx reason) ∨ (pool.load ⟨table, first⟩).2 = .failed error :=
        fun _ failed => (fetch_error failed).imp_left (Exists.imp fun _ => And.right)
      rw [List.range'_succ, scanAhead]
      generalize pool.fetch tx ⟨table, first⟩ .shared = result at reads errors ⊢
      obtain ⟨middle, outcome⟩ := result
      cases outcome with
      | parked => exact ⟨fun _ => ⟨rfl, rfl, Nat.le_refl first⟩, by simp⟩
      | failed error =>
          refine ⟨fun _ => ⟨rfl, rfl, Nat.le_refl first⟩, fun other failed => ?_⟩
          cases failed
          exact errors error rfl
      | done page =>
          simp only
          split
          · next empty =>
            rw [List.isEmpty_iff.mp empty]
            obtain ⟨stopped, cause⟩ := ih middle (first + 1)
            refine ⟨fun undone => ?_, fun error failed => ?_⟩
            · obtain ⟨_, dry, ahead⟩ := stopped undone
              exact ⟨rfl, dry, Nat.le_of_succ_le ahead⟩
            · rw [← reads.load]
              exact cause error failed
          · exact ⟨fun undone => absurd rfl (undone true), by simp⟩

theorem stalls_scanHasNext (pool : Pool) (tx : TxId) (table : TableId) (position : ScanPosition) :
    Stalls tx table pool position (pool.scanHasNext tx table position) := by
  obtain ⟨first, queue⟩ := position
  unfold scanHasNext
  split
  · next empty =>
    obtain rfl : queue = [] := List.isEmpty_iff.mp empty
    exact stalls_scanAhead pool tx table first _
  · exact ⟨fun undone => absurd rfl (undone true), nofun⟩

end Pool

end RowStore
