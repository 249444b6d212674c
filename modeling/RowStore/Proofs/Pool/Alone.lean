import RowStore.Proofs.Pool.Hindered

namespace RowStore

/-! Inserts that nothing stops.

A transaction works alone on a file of whole pages, each of which can be had, and storage
takes what is written. Then every insert of a row with the columns of the table is done, and
leaves the transaction as it was for the next one.
-/

namespace Pool

variable {pool middle after : Pool} {tx : TxId} {table : TableId} {file : TableFile} {row : Row}
variable {record : RecordId} {number : Nat} {page changed : Page}

/-- Storage does not fail on a table: its pages can be had, and its file takes what is written. -/
structure Serves (table : TableId) (file : TableFile) (pool : Pool) : Prop where
  known : ∃ count, pool.tables.get? table = some { file with pageCount := count }
  real : file.handle ≠ .fullDevice
  accepts : pool.disk.failWrites = false
  had : ∀ number < pool.pageCount table, ∃ page, (pool.load ⟨table, number⟩).2 = .done page

/-- Nobody else has a lock, and the file of the table has whole pages. -/
structure Alone (tx : TxId) (table : TableId) (pool : Pool) : Prop where
  inFiles : pool.WithinFiles
  typed : pool.Typed
  tails : pool.TailsAsStored
  whole : ∀ file, pool.tables.get? table = some file → file.remainder pool.disk = []
  unlocked : pool.Unlocked tx

theorem Serves.reads (serves : Serves table file pool) (reads : Reads pool after) : Serves table file after := by
  refine ⟨reads.tables.symm ▸ serves.known, serves.real, reads.disk.symm ▸ serves.accepts, fun number inside => ?_⟩
  rw [reads.load]
  exact serves.had number (reads.pageCount table ▸ inside)

theorem Alone.looks (alone : Alone tx table pool) (looks : Looks tx pool after) : Alone tx table after :=
  ⟨looks.inFiles, alone.typed.reads looks.toReads, (alone.tails.reads looks.toReads).tails,
    fun file known => by rw [looks.disk]; exact alone.whole file (looks.tables ▸ known),
    looks.unlocked alone.unlocked⟩

/-- Nobody else is given a lock by the steps of a transaction. -/
theorem Steps.unlocked (steps : Steps tx table pool after) (inFiles : pool.WithinFiles)
    (unlocked : pool.Unlocked tx) :
    after.Unlocked tx := by
  intro id holder listed
  by_contra differs
  have has : after.locks.Has holder id .shared := ⟨listed, nofun⟩
  exact differs (unlocked id holder ((Steps.has_iff steps inFiles differs).mp has).1)

theorem TableFile.append_of_accepts {disk : Disk} (real : file.handle ≠ .fullDevice)
    (accepts : disk.failWrites = false) (number : Nat) : ∃ grown, file.appendPage disk number = .ok grown := by
  unfold TableFile.appendPage
  split
  · obtain ⟨changed, written, _⟩ := Disk.write_of_not_refuses real (Disk.refuses_of_accepts accepts)
      (number * file.pageSize) (List.replicate file.pageSize 0)
    exact ⟨_, by rw [written]⟩
  · exact ⟨_, rfl⟩

theorem Puts.failWrites (puts : Puts table row number page changed pool after) :
    after.disk.failWrites = pool.disk.failWrites := by
  rcases Nat.lt_or_eq_of_le puts.bound with inside | past
  · rw [(puts.lengthens.kept inside).1]
  · obtain ⟨_, _, _, written, rfl, _⟩ := puts.lengthens.grown past
    exact (Disk.of_write written).2.2.1

/-! ## Past the end -/

/-- The page just past the end of whole pages can be had. -/
theorem Alone.had_past (alone : Alone tx table pool) (known : pool.tables.get? table = some file) :
    ∃ page, (pool.load ⟨table, file.pageCount⟩).2 = .done page := by
  have own := (alone.inFiles.files table file known).named
  obtain ⟨page, read, _⟩ := @Page.decode_vacant file.pageSize [] ⟨table, file.pageCount⟩ file.schema fun _ _ => rfl
  refine ⟨page, (alone.tails.load_past known (Nat.le_refl _)).mpr ?_⟩
  rw [TableFile.readPage_past own.symm rfl, alone.whole file known, read]

/-- There is no row past the end of whole pages. -/
theorem Alone.row?_past (alone : Alone tx table pool) (known : pool.tables.get? table = some file)
    (home : record.page.table = table) (past : file.pageCount ≤ record.page.number) : pool.row? record = none := by
  subst home
  generalize loaded : (pool.load record.page).2 = outcome
  cases outcome with
  | failed | parked => rw [row?, loaded]
  | done page =>
      obtain ⟨_, bound, _⟩ := TableFile.of_readPage ((alone.tails.load_past known past).mp loaded)
      rw [row?_eq loaded]
      exact (alone.tails.vacant_past alone.inFiles known (alone.whole file known) (Nat.le_antisymm bound past)
        loaded).2 record.slot

/-! ## Storing a row -/

/-- A row was stored in the first free slot of its table, and nobody else did anything. -/
structure Stores (tx : TxId) (table : TableId) (file : TableFile) (row : Row) (record : RecordId)
    (pool after : Pool) : Prop extends FirstFit tx table row record pool after where
  alone : Alone tx table after
  serves : Serves table file after
  inside : record.page.number < after.pageCount table
  spares : ∀ other, other ≠ table → Spares other pool after

theorem Receives.had (receives : Receives tx row record pool after)
    (had : ∀ number < pool.pageCount record.page.table,
      ∃ page, (pool.load ⟨record.page.table, number⟩).2 = .done page)
    (inside : number < after.pageCount record.page.table) :
    ∃ page, (after.load ⟨record.page.table, number⟩).2 = .done page := by
  by_cases here : (⟨record.page.table, number⟩ : PageId) = record.page
  · obtain ⟨_, _, _, _, loaded⟩ := receives.loaded
    exact ⟨_, here ▸ loaded⟩
  · have within : number < pool.pageCount record.page.table := by
      have counts := receives.counts record.page.table
      rw [counts] at inside
      split at inside
      · -- The table grew by the page that got the row, so any other one was there before.
        next grown =>
        refine grown.2 ▸ Nat.lt_of_le_of_ne (Nat.le_of_lt_succ inside) fun same => here ?_
        rw [same]
      · exact inside
    rw [receives.others _ here within]
    exact had number within

/-- Nothing hinders an insert of a row with the columns of the table. -/
theorem Alone.not_hinders (alone : Alone tx table pool) (serves : Serves table file pool)
    (conforms : row.Conforms file.schema) (error : StoreError) : ¬ Hinders tx table row pool error := by
  obtain ⟨count, known⟩ := serves.known
  have size : pool.pageCount table = count := pageCount_eq known
  intro hinders
  cases hinders with
  | unknown missing => cases known.symm.trans missing
  | mismatch found differs =>
      cases known.symm.trans found
      exact differs conforms.types
  | refused _ locked => exact locked alone.unlocked
  | @unreadable number _ bound failed =>
      have had : ∃ page, (pool.load ⟨table, number⟩).2 = .done page := by
        rcases Nat.lt_or_eq_of_le bound with before | past
        · exact serves.had number before
        · subst past
          rw [size]
          exact alone.had_past known
      obtain ⟨page, loaded⟩ := had
      cases loaded.symm.trans failed
  | unwritten found failed =>
      cases known.symm.trans found
      obtain ⟨_, grown⟩ := @TableFile.append_of_accepts { file with pageCount := count } pool.disk serves.real
        serves.accepts count
      cases grown.symm.trans failed

theorem Alone.stores (alone : Alone tx table pool) (serves : Serves table file pool)
    (conforms : row.Conforms file.schema) :
    ∃ number record after, pool.insert tx table row .start = (after, .done number) ∧
      Stores tx table file row record pool after := by
  obtain ⟨count, known⟩ := serves.known
  have inFiles := alone.inFiles
  have within : InsertStage.start.Within table pool := trivial
  have stops := @WithinFiles.stops_insert pool tx table row .start inFiles alone.typed alone.tails alone.whole within
    fun begun => absurd rfl begun
  have inserts := @Named.insert pool tx table row inFiles.named conforms.kept .start within
  have effect := @WithinFiles.insertEffect_insert pool tx table row [] .start _ inFiles within trivial
    (.refl tx table _ pool)
  generalize pool.insert tx table row .start = result at stops inserts effect
  obtain ⟨after, outcome⟩ := result
  cases outcome with
  | parked => exact absurd alone.unlocked stops.2
  | failed error => exact absurd stops.2 (alone.not_hinders serves conforms error)
  | done number =>
      have steps := inserts.steps
      have trails := effect.trails alone.tails
      have accepts : after.disk.failWrites = false := by
        cases effect with
        | put _ _ reads _ _ _ _ puts => rw [puts.failWrites, reads.disk, serves.accepts]
      obtain ⟨slot, fits⟩ := effect.firstFit inFiles alone.tails alone.whole rfl
      obtain ⟨_, now, ends⟩ := trails.files table _ known
      refine ⟨number, _, after, rfl, fits, ⟨steps.inFiles inFiles, steps.typed alone.typed, trails.tails,
        fun other found => ?_, steps.unlocked inFiles alone.unlocked⟩, ⟨⟨_, now⟩, serves.real, accepts,
        fun other inside => fits.had serves.had inside⟩, inserts.placed number rfl,
        fun other apart => steps.spares inFiles apart⟩
      cases now.symm.trans found
      refine ends.elim (fun stays => ?_) fun gone => gone
      obtain ⟨rfl, kept⟩ := stays
      exact kept.trans (alone.whole _ known)

namespace Stores

variable (stores : Stores tx table file row record pool after)
include stores

/-- Every other slot shows what it showed. -/
theorem row?_of_ne (alone : Alone tx table pool) (serves : Serves table file pool) {other : RecordId}
    (differs : other ≠ record) : after.row? other = pool.row? other := by
  obtain ⟨_, known⟩ := serves.known
  obtain ⟨_, now⟩ := stores.serves.known
  by_cases home : other.page.table = table
  · by_cases among : other.page = record.page ∨ other.page.number < pool.pageCount other.page.table
    · exact stores.rows other differs among
    · -- It is past the end, before and after.
      obtain ⟨elsewhere, past⟩ := not_or.mp among
      rw [home, Nat.not_lt] at past
      have beyond : after.pageCount table ≤ other.page.number := by
        rw [stores.counts table]
        split
        · next grown =>
          refine Nat.lt_of_le_of_ne (grown.2 ▸ grown.1 ▸ past) fun same => elsewhere ?_
          obtain ⟨⟨_, _⟩, _⟩ := other
          obtain ⟨⟨_, _⟩, _⟩ := record
          simp_all
        · exact past
      rw [stores.alone.row?_past now home (pageCount_eq now ▸ beyond),
        alone.row?_past known home (pageCount_eq known ▸ past)]
  · exact row?_congr ((stores.spares _ home).load other.page.number)

theorem longer : pool.pageCount table ≤ after.pageCount table := by
  rw [stores.counts table]
  split
  · next grown =>
    rw [grown.1, ← grown.2]
    exact Nat.le_succ _
  · exact Nat.le_refl _

/-- The slot was free. -/
theorem free : pool.row? record = none := by
  obtain ⟨page, loaded, _, first, _⟩ := stores.page
  rw [row?_eq loaded]
  exact first.2.1

end Stores

end Pool

end RowStore
