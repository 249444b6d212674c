import RowStore.Proofs.Pool.Quiet

namespace RowStore.Pool

/-! Scans change no row, and they read the same from memory as from the files when no page in
memory is a changed one. -/

variable {pool : Pool} {table : TableId}

section Quiet

variable (coherent : pool.Coherent) (tx : TxId) (table : TableId)
include coherent

theorem Coherent.scanAhead (numbers : List Nat) (position : ScanPosition) :
    Quiet tx pool (scanAhead tx table numbers position pool).1 := by
  induction numbers generalizing pool position with
  | nil => exact Quiet.refl tx coherent
  | cons number rest ih =>
      have fetched := coherent.fetch tx ⟨table, number⟩ .shared
      rw [Pool.scanAhead]
      generalize pool.fetch tx ⟨table, number⟩ .shared = result at fetched ⊢
      obtain ⟨middle, outcome⟩ := result
      cases outcome with
      | parked | failed => exact fetched.quiet
      | done page =>
          simp only
          split
          · exact fetched.quiet.trans (ih fetched.quiet.coherent _)
          · exact fetched.quiet

theorem Coherent.scanHasNext (position : ScanPosition) :
    Quiet tx pool (pool.scanHasNext tx table position).1 := by
  unfold Pool.scanHasNext
  split
  · exact coherent.scanAhead tx table _ _
  · exact Quiet.refl tx coherent

theorem Coherent.scanNext (position : ScanPosition) :
    Quiet tx pool (pool.scanNext tx table position).1 := by
  have asked := coherent.scanHasNext tx table position
  unfold Pool.scanNext
  generalize pool.scanHasNext tx table position = result at asked ⊢
  obtain ⟨middle, reached, outcome⟩ := result
  cases outcome with
  | parked | failed => exact asked
  | done more =>
      simp only
      split <;> exact asked

theorem Coherent.scanPages (numbers : List Nat) (position : ScanPosition) :
    Quiet tx pool (scanPages tx table numbers position pool).1 := by
  induction numbers generalizing pool position with
  | nil => exact Quiet.refl tx coherent
  | cons number rest ih =>
      have fetched := coherent.fetch tx ⟨table, number⟩ .shared
      rw [Pool.scanPages]
      generalize pool.fetch tx ⟨table, number⟩ .shared = result at fetched ⊢
      obtain ⟨middle, outcome⟩ := result
      cases outcome with
      | parked | failed => exact fetched.quiet
      | done page => exact fetched.quiet.trans (ih fetched.quiet.coherent _)

theorem Coherent.scanAll (position : ScanPosition) :
    Quiet tx pool (pool.scanAll tx table position).1 := coherent.scanPages tx table _ _

end Quiet

/-! ## What a scan reads -/

def Unchanged (pool : Pool) : Prop := ∀ id page, pool.cache.get? id = some page → page.dirty = none

def Unlocked (tx : TxId) (pool : Pool) : Prop :=
  ∀ id, ∀ holder ∈ (pool.locks.lockOn id).holders, holder = tx

/-- A page as its file holds it. -/
def filedPage (pool : Pool) (id : PageId) : Except StoreError Page :=
  match pool.table? id.table with
  | .error error => .error error
  | .ok file => file.readPage pool.disk id

/-- The rows of some pages as their file holds them, up to a page that cannot be read. -/
def filedRows (pool : Pool) (table : TableId) : List Nat → List Row × Outcome Unit Unit
  | [] => ([], .done ())
  | number :: rest =>
      match pool.filedPage ⟨table, number⟩ with
      | .error error => ([], .failed error)
      | .ok page => (page.rows ++ (pool.filedRows table rest).1, (pool.filedRows table rest).2)

/-- The scan was stopped by a lock, and not by the pages that it read. -/
def StoppedByLock : Outcome Unit Unit → Prop
  | .parked _ => True
  | .failed (.aborted _ _) => True
  | _ => False

theorem filedPage_congr {other : Pool} (disk : other.disk = pool.disk)
    (tables : ∀ table, other.tables.get? table = pool.tables.get? table) (id : PageId) :
    other.filedPage id = pool.filedPage id := by
  simp only [filedPage, Pool.table?, disk, tables]

theorem filedRows_congr {other : Pool} (disk : other.disk = pool.disk)
    (tables : ∀ table, other.tables.get? table = pool.tables.get? table) (numbers : List Nat) :
    other.filedRows table numbers = pool.filedRows table numbers := by
  induction numbers with
  | nil => rfl
  | cons number rest ih => simp only [filedRows, filedPage_congr disk tables, ih]

/-- What a page in memory was when it was last read or written is what its file holds. -/
theorem Coherent.filedPage_eq_restored (coherent : pool.Coherent) {id : PageId} {page : Page}
    (found : pool.cache.get? id = some page) : pool.filedPage id = page.restored := by
  have agrees := coherent.agrees id page found
  obtain ⟨file, known, schema, size, bound, before⟩ := agrees.filed
  simp only [filedPage, table?_eq_ok.mpr known]
  rw [TableFile.readPage_of_le (coherent.files.named known).symm bound, Page.restored, agrees.named,
    schema, size, before]

theorem Coherent.filedPage_of_clean (coherent : pool.Coherent) {id : PageId} {page : Page}
    (found : pool.cache.get? id = some page) (clean : page.dirty = none) :
    ∃ image, pool.filedPage id = .ok image ∧ image.slots = page.slots ∧ image.rows = page.rows := by
  obtain ⟨image, restored, same⟩ := (coherent.agrees id page found).restored
  exact ⟨image, (coherent.filedPage_eq_restored found).trans restored, same clean,
    Page.rows_congr (Page.of_decode restored).1 (same clean)⟩

/-- A page that is had by a fetch has the rows that its file holds; a page that cannot be had
cannot be read from its file either, unless a lock was refused. -/
theorem Coherent.fetch_rows (coherent : pool.Coherent) (unchanged : pool.Unchanged) (tx : TxId)
    (id : PageId) (mode : LockMode) :
    match (pool.fetch tx id mode).2 with
    | .done page => ∃ image, pool.filedPage id = .ok image ∧ image.rows = page.rows
    | .failed error => pool.filedPage id = .error error ∨
        (∃ reason, error = .aborted tx reason) ∧ ¬ Unlocked tx pool
    | .parked _ => ¬ Unlocked tx pool := by
  have granted := fun alone : Unlocked tx pool =>
    @LockTable.Sound.request_granted _ _ id mode coherent.locks (alone id)
  unfold Pool.fetch
  generalize pool.locks.request tx id mode = answer at granted
  obtain ⟨locks, verdict⟩ := answer
  cases verdict with
  | parked => exact fun alone => by simpa using granted alone
  | refused reason => exact Or.inr ⟨⟨reason, rfl⟩, fun alone => by simpa using granted alone⟩
  | granted =>
      simp only [Pool.load]
      cases found : pool.cache.get? id with
      | some page =>
          obtain ⟨image, filed, _, rows⟩ := coherent.filedPage_of_clean found (unchanged id page found)
          exact ⟨image, filed, rows⟩
      | none =>
          simp only [filedPage, Pool.table?]
          cases pool.tables.get? id.table with
          | none => exact Or.inl rfl
          | some file =>
              simp only
              cases file.readPage pool.disk id with
              | error error => exact Or.inl rfl
              | ok page => exact ⟨page, rfl, rfl⟩

theorem Unlocked.fetch {tx : TxId} (unlocked : Unlocked tx pool) (sound : pool.locks.Sound) (id : PageId)
    (mode : LockMode) : Unlocked tx (pool.fetch tx id mode).1 := by
  have granted := @LockTable.Sound.request_granted _ _ id mode sound (unlocked id)
  have holders := fun place other => @LockTable.mem_holders_request pool.locks tx other id place mode
  unfold Pool.fetch
  generalize pool.locks.request tx id mode = answer at granted holders
  obtain ⟨locks, verdict⟩ := answer
  cases granted
  intro place holder listed
  rw [load_locks] at listed
  exact (holders place holder listed).elim (fun same => same) (unlocked place holder)

theorem Quiet.unchanged {after : Pool} {tx : TxId} (quiet : Quiet tx pool after) (unchanged : pool.Unchanged) :
    after.Unchanged := by
  intro id page found
  cases dirty : page.dirty with
  | none => rfl
  | some owner =>
      obtain ⟨before, known, _, same⟩ := quiet.before found dirty
      rw [unchanged id before known] at same
      contradiction

/-- A scan that no lock stops reads what the file holds. -/
theorem Coherent.scanPages_rows (coherent : pool.Coherent) (unchanged : pool.Unchanged) (tx : TxId)
    (table : TableId) (numbers : List Nat) (position : ScanPosition)
    (free : Unlocked tx pool ∨ ¬ StoppedByLock (Pool.scanPages tx table numbers position pool).2.2.2) :
    (Pool.scanPages tx table numbers position pool).2.2 = pool.filedRows table numbers := by
  induction numbers generalizing pool position with
  | nil => rfl
  | cons number rest ih =>
      have fetched := coherent.fetch tx ⟨table, number⟩ .shared
      have rows := coherent.fetch_rows unchanged tx ⟨table, number⟩ .shared
      have alone := fun unlocked : Unlocked tx pool => unlocked.fetch coherent.locks ⟨table, number⟩ .shared
      rw [Pool.scanPages] at free ⊢
      generalize pool.fetch tx ⟨table, number⟩ .shared = result at fetched rows alone free ⊢
      obtain ⟨middle, outcome⟩ := result
      cases outcome with
      | parked =>
          rcases free with unlocked | answered
          · exact absurd unlocked rows
          · exact absurd trivial answered
      | failed error =>
          rcases rows with unreadable | ⟨⟨reason, rfl⟩, locked⟩
          · simp only [filedRows, unreadable]
          · rcases free with unlocked | answered
            · exact absurd unlocked locked
            · exact absurd trivial answered
      | done page =>
          obtain ⟨image, filed, same⟩ := rows
          have rest := ih fetched.quiet.coherent (fetched.quiet.unchanged unchanged) ⟨number + 1, []⟩
            (free.imp alone id)
          rw [filedRows_congr fetched.disk fun _ => by rw [fetched.tables]] at rest
          simp only [filedRows, filed, ← rest, same]

end RowStore.Pool
