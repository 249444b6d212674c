import RowStore.Proofs.Page.Deletes
import RowStore.Proofs.Pool.Typed
import RowStore.Proofs.Pool.Unreadable

namespace RowStore

/-! Why inserts and deletes fail, and what they leave then.

Whatever stops an insert comes before it changes anything: its table is not known, its row
does not fit, a lock is refused, a page cannot be read, or the file cannot grow. Once the
file has grown the row is stored, since the page that it grew by is empty and has the
columns of the table. So an insert that fails or waits has only read pages, and so has a
delete that is refused.
-/

theorem Page.isFull_eq_false {page : Page} {slot : Nat} (inside : slot < page.slotTotal)
    (free : page.row? slot = none) : page.isFull = false := by
  rw [Bool.eq_false_iff]
  intro full
  have used := List.all_eq_true.mp full _ (List.getElem_mem inside)
  rw [← Page.isSome_row? inside, free] at used
  contradiction

theorem Page.exists_free_of_not_full {page : Page} (room : page.isFull = false) :
    ∃ slot < page.slotTotal, page.row? slot = none := by
  obtain ⟨held, listed, free⟩ := List.all_eq_false.mp room
  obtain ⟨slot, inside, rfl⟩ := List.getElem_of_mem listed
  refine ⟨slot, inside, ?_⟩
  rw [← Option.not_isSome_iff_eq_none, Page.isSome_row? inside]
  exact free

namespace Pool

variable {pool middle after : Pool} {tx : TxId} {table : TableId} {id : PageId} {page changed : Page}
variable {row : Row} {number : Nat} {rest : List Nat} {mode : LockMode} {error : StoreError}
variable {stage : InsertStage} {file : TableFile} {location : Option RecordId}

/-! ## Looking at pages -/

/-- Pages were read, and nobody else was given a lock. -/
structure Looks (tx : TxId) (pool after : Pool) : Prop extends Reads pool after where
  inFiles : after.WithinFiles
  unlocked : pool.Unlocked tx → after.Unlocked tx

theorem Looks.trans (early : Looks tx pool middle) (late : Looks tx middle after) : Looks tx pool after :=
  ⟨early.toReads.trans late.toReads, late.inFiles, fun alone => late.unlocked (early.unlocked alone)⟩

/-- What a fetch leaves, and why it hands out no page. -/
structure Attempts (tx : TxId) (id : PageId) (pool after : Pool) (outcome : Outcome Unit Page) : Prop
    extends Looks tx pool after where
  had : ∀ page, outcome = .done page → (pool.load id).2 = .done page
  found : ∀ page, outcome = .done page → after.cache.get? id = some page
  failed : ∀ error, outcome = .failed error →
    (∃ reason, ¬ pool.Unlocked tx ∧ error = .aborted tx reason) ∨ (pool.load id).2 = .failed error
  parked : ∀ stage, outcome = .parked stage → ¬ pool.Unlocked tx

section Look

variable (inFiles : pool.WithinFiles)
include inFiles

theorem WithinFiles.looks_refl (tx : TxId) : Looks tx pool pool := ⟨.refl pool, inFiles, fun alone => alone⟩

theorem WithinFiles.attempts (tx : TxId) (id : PageId) (mode : LockMode) :
    Attempts tx id pool (pool.fetch tx id mode).1 (pool.fetch tx id mode).2 := by
  have fetches := inFiles.fetchEffect tx id mode
  have granted := fun alone : pool.Unlocked tx =>
    @LockTable.Sound.request_granted _ _ id mode inFiles.locks (alone id)
  refine ⟨⟨fetches.reads, fetches.inFiles, fun alone => alone.fetch inFiles.locks id mode⟩,
    fetches.loaded, fetches.found, fun error failed => ?_, fun stage waits alone => ?_⟩
  · refine (fetch_error failed).imp_left ?_
    rintro ⟨reason, refused, same⟩
    exact ⟨reason, fun alone => by simp [granted alone] at refused, same⟩
  · -- A request is granted where nobody else holds a page.
    unfold Pool.fetch at waits
    have given := granted alone
    generalize pool.locks.request tx id mode = answer at waits given
    obtain ⟨locks, verdict⟩ := answer
    cases given
    exact load_ne_parked { pool with locks } id stage waits

theorem WithinFiles.looks_release (tx : TxId) (id : PageId) : Looks tx pool (pool.release tx id) := by
  refine ⟨Reads.of_locks pool _, inFiles.withLocks (inFiles.locks.release tx id), fun alone place holder listed => ?_⟩
  change holder ∈ ((pool.locks.release tx id).lockOn place).holders at listed
  rw [LockTable.lockOn_release] at listed
  split at listed
  · exact alone id holder (PageLock.mem_holders_release.mp listed).1
  · exact alone place holder listed

end Look

/-! ## Inserts -/

/-- What keeps an insert from storing its row. -/
inductive Hinders (tx : TxId) (table : TableId) (row : Row) (pool : Pool) : StoreError → Prop
  | unknown (missing : pool.tables.get? table = none) : Hinders tx table row pool (.noSuchTable table)
  | mismatch {file : TableFile} (known : pool.tables.get? table = some file)
      (differs : row.types ≠ file.schema.types) : Hinders tx table row pool (.schemaMismatch table)
  | refused (reason : AbortReason) (locked : ¬ pool.Unlocked tx) : Hinders tx table row pool (.aborted tx reason)
  | unreadable {number : Nat} {error : StoreError} (bound : number ≤ pool.pageCount table)
      (failed : (pool.load ⟨table, number⟩).2 = .failed error) : Hinders tx table row pool error
  /-- The file cannot grow. -/
  | unwritten {file : TableFile} {error : StoreError} (known : pool.tables.get? table = some file)
      (failed : file.appendPage pool.disk file.pageCount = .error error) : Hinders tx table row pool error

theorem Hinders.before (hinders : Hinders tx table row middle error) (looks : Looks tx pool middle) :
    Hinders tx table row pool error := by
  cases hinders with
  | unknown missing => exact .unknown (looks.tables ▸ missing)
  | mismatch known differs => exact .mismatch (looks.tables ▸ known) differs
  | refused reason locked => exact .refused reason (mt looks.unlocked locked)
  | unreadable bound failed => exact .unreadable (looks.pageCount table ▸ bound) ((looks.load _).symm.trans failed)
  | unwritten known failed => exact .unwritten (looks.tables ▸ known) (looks.disk ▸ failed)

theorem Hinders.ne_pageFull (hinders : Hinders tx table row pool error) (id : PageId) : error ≠ .pageFull id := by
  rintro rfl
  cases hinders with
  | unreadable _ failed => cases load_error failed
  | @unwritten file _ _ failed =>
      unfold TableFile.appendPage at failed
      rw [if_pos rfl] at failed
      split at failed
      · next unwritten =>
        cases failed
        cases Disk.write_error unwritten
      · contradiction

/-- An insert that stores no row has only looked at pages. -/
def Stops (tx : TxId) (table : TableId) (row : Row) (pool : Pool) : InsertOutcome → Prop
  | (_, .done _) => True
  | (after, .failed error) => Looks tx pool after ∧ Hinders tx table row pool error
  | (after, .parked _) => Looks tx pool after ∧ ¬ pool.Unlocked tx

theorem Stops.after_looks {result : InsertOutcome} (looks : Looks tx pool middle)
    (stops : Stops tx table row middle result) : Stops tx table row pool result := by
  obtain ⟨after, outcome⟩ := result
  cases outcome with
  | done => trivial
  | failed => exact ⟨looks.trans stops.1, stops.2.before looks⟩
  | parked => exact ⟨looks.trans stops.1, mt looks.unlocked stops.2⟩

/-- Every page takes the row, and the one just past the end has room for it. -/
structure Welcomes (table : TableId) (row : Row) (pool : Pool) : Prop where
  types : ∀ number page, (pool.load ⟨table, number⟩).2 = .done page → row.types = page.schema.types
  room : ∀ page, (pool.load ⟨table, pool.pageCount table⟩).2 = .done page → page.isFull = false

theorem Welcomes.keep (welcomes : Welcomes table row pool) (reads : Reads pool after) :
    Welcomes table row after := by
  refine ⟨fun number page loaded => welcomes.types number page ((reads.load _).symm.trans loaded),
    fun page loaded => welcomes.room page ?_⟩
  rw [reads.pageCount, reads.load] at loaded
  exact loaded

theorem storeIn_of_room (pool : Pool) (types : row.types = page.schema.types) (room : page.isFull = false) :
    ∃ after number, pool.storeIn page row = (after, .done number) := by
  obtain ⟨slot, _, inserted⟩ := Page.insert_firstFree types (Page.exists_free_of_not_full room)
  exact ⟨_, _, by rw [Pool.storeIn, inserted]⟩

section Insert

variable (inFiles : pool.WithinFiles) (welcomes : Welcomes table row pool)
include inFiles

theorem WithinFiles.stops_grow (named : page.id = ⟨table, number⟩) (types : row.types = page.schema.types)
    (room : page.isFull = false) : Stops tx table row pool (pool.grow page row) := by
  unfold Pool.grow
  rw [named]
  split
  · next error failed =>
    refine ⟨inFiles.looks_refl tx, ?_⟩
    unfold Pool.appendPage at failed
    split at failed
    · next missing =>
      cases failed
      unfold Pool.table? at missing
      split at missing
      · contradiction
      · next absent =>
        cases missing
        exact .unknown absent
    · next file known =>
      split at failed
      · next unwritten =>
        cases failed
        have here : number = file.pageCount := by
          by_contra elsewhere
          simp [TableFile.appendPage, elsewhere] at unwritten
        exact .unwritten (table?_eq_ok.mp known) (here ▸ unwritten)
      · contradiction
  · next grown _ =>
    obtain ⟨after, stored, same⟩ := storeIn_of_room grown types room
    rw [same]
    trivial

include welcomes

theorem WithinFiles.stops_extend : Stops tx table row pool (pool.extend tx table row) := by
  have attempts := inFiles.attempts tx ⟨table, pool.pageCount table⟩ .exclusive
  unfold Pool.extend
  simp only
  generalize pool.fetch tx ⟨table, pool.pageCount table⟩ .exclusive = result at attempts ⊢
  obtain ⟨middle, outcome⟩ := result
  cases outcome with
  | parked stage => exact ⟨attempts.toLooks, attempts.parked stage rfl⟩
  | failed error =>
      refine ⟨attempts.toLooks, ?_⟩
      rcases attempts.failed error rfl with ⟨reason, locked, rfl⟩ | failed
      · exact .refused reason locked
      · exact .unreadable (Nat.le_refl _) failed
  | done page =>
      have loaded := attempts.had page rfl
      exact Stops.after_looks attempts.toLooks (attempts.inFiles.stops_grow
        (attempts.inFiles.named _ page (attempts.found page rfl)) (welcomes.types _ page loaded)
        (welcomes.room page loaded))

theorem WithinFiles.stops_extendAt (bound : number ≤ pool.pageCount table) :
    Stops tx table row pool (pool.extendAt tx table row number) := by
  have attempts := inFiles.attempts tx ⟨table, number⟩ .exclusive
  unfold Pool.extendAt
  generalize pool.fetch tx ⟨table, number⟩ .exclusive = result at attempts ⊢
  obtain ⟨middle, outcome⟩ := result
  cases outcome with
  | parked stage => exact ⟨attempts.toLooks, attempts.parked stage rfl⟩
  | failed error =>
      refine ⟨attempts.toLooks, ?_⟩
      rcases attempts.failed error rfl with ⟨reason, locked, rfl⟩ | failed
      · exact .refused reason locked
      · exact .unreadable bound failed
  | done page =>
      have loaded := attempts.had page rfl
      refine Stops.after_looks attempts.toLooks ?_
      simp only
      split
      · exact attempts.inFiles.stops_extend (welcomes.keep attempts.toReads)
      · next room =>
        refine attempts.inFiles.stops_grow (attempts.inFiles.named _ page (attempts.found page rfl))
          (welcomes.types _ page loaded) ?_
        by_contra full
        have past : number = pool.pageCount table := by
          refine Nat.le_antisymm bound (Nat.not_lt.mp fun inside => room ⟨by simpa using full, ?_⟩)
          rwa [attempts.pageCount]
        exact full (welcomes.room page (past ▸ loaded))

theorem WithinFiles.stops_claim (inside : number < pool.pageCount table) {next : Pool → InsertOutcome}
    (proceeds : ∀ middle, Looks tx pool middle → Stops tx table row middle (next middle)) :
    Stops tx table row pool (pool.claim tx table row number rest next) := by
  have attempts := inFiles.attempts tx ⟨table, number⟩ .exclusive
  unfold Pool.claim
  generalize pool.fetch tx ⟨table, number⟩ .exclusive = result at attempts ⊢
  obtain ⟨middle, outcome⟩ := result
  cases outcome with
  | parked stage => exact ⟨attempts.toLooks, attempts.parked stage rfl⟩
  | failed error =>
      refine ⟨attempts.toLooks, ?_⟩
      rcases attempts.failed error rfl with ⟨reason, locked, rfl⟩ | failed
      · exact .refused reason locked
      · exact .unreadable (Nat.le_of_lt inside) failed
  | done page =>
      simp only
      split
      · exact Stops.after_looks attempts.toLooks (proceeds middle attempts.toLooks)
      · next room =>
        obtain ⟨after, stored, same⟩ := storeIn_of_room middle
          (welcomes.types _ page (attempts.had page rfl)) (by simpa using room)
        rw [same]
        trivial

theorem WithinFiles.stops_inspect (inside : number < pool.pageCount table) {heldBefore : Bool}
    {next : Pool → InsertOutcome}
    (proceeds : ∀ middle, Looks tx pool middle → Stops tx table row middle (next middle)) :
    Stops tx table row pool (pool.inspect tx table row number heldBefore rest next) := by
  have attempts := inFiles.attempts tx ⟨table, number⟩ .shared
  unfold Pool.inspect
  generalize pool.fetch tx ⟨table, number⟩ .shared = result at attempts ⊢
  obtain ⟨middle, outcome⟩ := result
  cases outcome with
  | parked stage => exact ⟨attempts.toLooks, attempts.parked stage rfl⟩
  | failed error =>
      refine ⟨attempts.toLooks, ?_⟩
      rcases attempts.failed error rfl with ⟨reason, locked, rfl⟩ | failed
      · exact .refused reason locked
      · exact .unreadable (Nat.le_of_lt inside) failed
  | done page =>
      have looks := attempts.toLooks
      simp only
      split
      · cases heldBefore with
        | true => exact Stops.after_looks looks (proceeds middle looks)
        | false =>
            have released := looks.trans (attempts.inFiles.looks_release tx ⟨table, number⟩)
            exact Stops.after_looks released (proceeds _ released)
      · refine Stops.after_looks looks (attempts.inFiles.stops_claim (welcomes.keep attempts.toReads) ?_
          fun last more => proceeds last (looks.trans more))
        rwa [attempts.pageCount]

theorem WithinFiles.stops_inspectEach {numbers : List Nat}
    (inside : ∀ number ∈ numbers, number < pool.pageCount table) :
    Stops tx table row pool (inspectEach tx table row numbers pool) := by
  induction numbers generalizing pool with
  | nil => exact inFiles.stops_extend welcomes
  | cons number rest ih =>
      obtain ⟨here, others⟩ := List.forall_mem_cons.mp inside
      refine inFiles.stops_inspect welcomes here fun middle looks => ih looks.inFiles (welcomes.keep looks.toReads) ?_
      exact fun other listed => (looks.pageCount table).symm ▸ others other listed

end Insert

/-- A row with the columns of its table is welcome on every page, when files have whole pages. -/
theorem Typed.welcomes (typed : pool.Typed) (inFiles : pool.WithinFiles) (tails : pool.TailsAsStored)
    (known : pool.tables.get? table = some file) (whole : file.remainder pool.disk = [])
    (types : row.types = file.schema.types) : Welcomes table row pool := by
  refine ⟨fun number page loaded => ?_, fun page loaded => ?_⟩
  · have named := inFiles.id_of_load loaded
    rw [types, typed.of_load loaded file (named.symm ▸ known)]
  · have past : (⟨table, pool.pageCount table⟩ : PageId).number = file.pageCount := pageCount_eq known
    obtain ⟨total, free⟩ := tails.vacant_past inFiles known whole past loaded
    exact Page.isFull_eq_false (total ▸ typed.roomy table file known) (free 0)

theorem WithinFiles.stops_insert (inFiles : pool.WithinFiles) (typed : pool.Typed) (tails : pool.TailsAsStored)
    (whole : ∀ file, pool.tables.get? table = some file → file.remainder pool.disk = [])
    (within : stage.Within table pool)
    (checked : stage ≠ .start → ∃ file, pool.tables.get? table = some file ∧ row.types = file.schema.types) :
    Stops tx table row pool (pool.insert tx table row stage) := by
  suffices stops : Stops tx table row pool (pool.place tx table row stage) by
    unfold Pool.insert
    generalize pool.place tx table row stage = result at stops ⊢
    obtain ⟨after, outcome⟩ := result
    cases outcome with
    | done => trivial
    | failed | parked => exact stops
  have welcome : ∀ {file}, pool.tables.get? table = some file → row.types = file.schema.types →
      Welcomes table row pool := fun known types => typed.welcomes inFiles tails known (whole _ known) types
  have proceeds : Welcomes table row pool → ∀ {rest : List Nat}, (∀ number ∈ rest, number < pool.pageCount table) →
      ∀ middle, Looks tx pool middle → Stops tx table row middle (Pool.inspectEach tx table row rest middle) :=
    fun welcomes _ inside _ looks => looks.inFiles.stops_inspectEach (welcomes.keep looks.toReads)
      fun number listed => (looks.pageCount table).symm ▸ inside number listed
  cases stage with
  | start =>
      simp only [Pool.place]
      split
      · next missing =>
        refine ⟨inFiles.looks_refl tx, ?_⟩
        unfold Pool.table? at missing
        split at missing
        · contradiction
        · next absent =>
          cases missing
          exact .unknown absent
      · next file found =>
        have known := table?_eq_ok.mp found
        split
        · next types =>
          refine inFiles.stops_inspectEach (welcome known types) fun number listed => ?_
          rw [pageCount_eq known]
          exact List.mem_range.mp listed
        · next differs => exact ⟨inFiles.looks_refl tx, .mismatch known differs⟩
  | inspecting number heldBefore rest =>
      obtain ⟨file, known, types⟩ := checked (by simp)
      obtain ⟨here, others⟩ := List.forall_mem_cons.mp within
      exact inFiles.stops_inspect (welcome known types) here (proceeds (welcome known types) others)
  | claiming number rest =>
      obtain ⟨file, known, types⟩ := checked (by simp)
      obtain ⟨here, others⟩ := List.forall_mem_cons.mp within
      exact inFiles.stops_claim (welcome known types) here (proceeds (welcome known types) others)
  | appending number =>
      obtain ⟨file, known, types⟩ := checked (by simp)
      exact inFiles.stops_extendAt (welcome known types) within

/-- The row of an insert that waits has the columns of its table. -/
theorem types_of_parked {again : InsertStage} (parked : (pool.insert tx table row stage).2 = .parked again)
    (checked : stage ≠ .start → ∃ file, pool.tables.get? table = some file ∧ row.types = file.schema.types) :
    ∃ file, pool.tables.get? table = some file ∧ row.types = file.schema.types := by
  by_cases begins : stage = .start
  · subst begins
    simp only [Pool.insert, Pool.place] at parked
    cases found : pool.table? table with
    | error error => simp [found] at parked
    | ok file =>
        by_cases types : row.types = file.schema.types
        · exact ⟨file, table?_eq_ok.mp found, types⟩
        · simp [found, types] at parked
  · exact checked begins

/-! ## Deletes -/

/-- Putting back a page that is in memory changes nothing. -/
theorem reads_putPage (found : pool.cache.get? page.id = some page) : Reads pool (pool.putPage page) := by
  refine ⟨rfl, rfl, fun id other cached => ?_, fun id other cached => ?_⟩
  · rw [get?_putPage]
    split
    · next here => rwa [here, found] at cached
    · exact cached
  · rw [get?_putPage] at cached
    split at cached
    · next here =>
      cases cached
      exact loaded_of_cached (here ▸ found)
    · exact loaded_of_cached cached

/-- A delete takes its row away, or names a slot that its page does not have, or has only read the
page. -/
theorem WithinFiles.delete_cases (inFiles : pool.WithinFiles) (tx : TxId) (location : Option RecordId) :
    (∃ number, (pool.delete tx location).2 = .done number) ∨
      (pool.delete tx location).2 = .failed .indexOutOfRange ∨ Reads pool (pool.delete tx location).1 := by
  have stay : ∀ {outcome : Outcome Unit Nat}, (∃ number, outcome = .done number) ∨
      outcome = .failed .indexOutOfRange ∨ Reads pool pool := .inr (.inr (.refl pool))
  unfold Pool.delete Pool.remove
  split
  · exact stay
  · next record =>
    split
    · exact stay
    · next file known =>
      by_cases own : record.page.table = file.id
      · by_cases inside : record.page.number < file.pageCount
        · simp only [if_pos own, if_pos inside]
          have attempts := inFiles.attempts tx record.page .exclusive
          generalize pool.fetch tx record.page .exclusive = result at attempts ⊢
          obtain ⟨middle, outcome⟩ := result
          cases outcome with
          | parked | failed => exact .inr (.inr attempts.toReads)
          | done page =>
              have found := attempts.found page rfl
              have here := attempts.inFiles.named _ page found
              simp only
              rcases page.delete_cases (some record) with stored | strays | ⟨error, refuses⟩
              · obtain ⟨_, ⟨⟩, same, held⟩ := stored
                rw [Page.delete_stored same held]
                exact .inl ⟨_, rfl⟩
              · obtain ⟨_, ⟨⟩, same, past, set⟩ := strays
                rw [Page.delete_stray same past set]
                exact .inr (.inl rfl)
              · rw [refuses.delete]
                exact .inr (.inr (attempts.toReads.trans (reads_putPage (here ▸ found))))
        · simp only [if_pos own, if_neg inside]
          exact stay
      · simp only [if_neg own]
        exact stay

end Pool

end RowStore
