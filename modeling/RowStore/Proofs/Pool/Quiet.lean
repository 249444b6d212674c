import RowStore.Pool.Scan
import RowStore.Proofs.Pool.Coherent

namespace RowStore.Pool

/-! Steps of a transaction that change no row: pages are locked and read into memory, pages that
the transaction did not change are given up, and files grow. -/

variable {pool middle after : Pool} {tx other : TxId} {id : PageId} {page cached : Page}
variable {mode : LockMode}

structure Quiet (tx : TxId) (pool after : Pool) : Prop where
  coherent : after.Coherent
  grows : Grows pool after
  bytes : ∀ id, KeepsBytes pool after id
  cached : ∀ id page, pool.cache.get? id = some page →
    ∃ same, after.cache.get? id = some same ∧ same.slots = page.slots ∧ same.dirty = page.dirty
  /-- Only pages that were in memory before can be changed ones. -/
  loaded : ∀ id page tx, after.cache.get? id = some page → page.dirty = some tx →
    ∃ before, pool.cache.get? id = some before
  held : ∀ other, other ≠ tx → after.locks.heldPages other = pool.locks.heldPages other
  accepts : after.disk.failWrites = pool.disk.failWrites

theorem Quiet.refl (tx : TxId) (coherent : pool.Coherent) : Quiet tx pool pool :=
  ⟨coherent, Grows.of_same rfl rfl, KeepsBytes.of_same rfl, fun _ page found => ⟨page, found, rfl, rfl⟩,
    fun _ page _ found _ => ⟨page, found⟩, fun _ _ => rfl, rfl⟩

theorem Quiet.trans (first : Quiet tx pool middle) (second : Quiet tx middle after) :
    Quiet tx pool after := by
  refine ⟨second.coherent, first.grows.trans second.grows,
    fun id => (first.bytes id).trans first.grows (second.bytes id), fun id page found => ?_,
    fun id page tx found dirty => ?_, fun other differs => ?_, second.accepts.trans first.accepts⟩
  · obtain ⟨between, found, slots, dirty⟩ := first.cached id page found
    obtain ⟨last, found, lastSlots, lastDirty⟩ := second.cached id between found
    exact ⟨last, found, lastSlots.trans slots, lastDirty.trans dirty⟩
  · obtain ⟨between, known⟩ := second.loaded id page tx found dirty
    obtain ⟨last, same, _, lastDirty⟩ := second.cached id between known
    rw [found] at same
    cases same
    exact first.loaded id between tx known (lastDirty.symm.trans dirty)
  · exact (second.held other differs).trans (first.held other differs)

/-- A changed page was in memory before, with the same slots and the same mark. -/
theorem Quiet.before (quiet : Quiet tx pool after) {owner : TxId}
    (found : after.cache.get? id = some page) (dirty : page.dirty = some owner) :
    ∃ before, pool.cache.get? id = some before ∧ page.slots = before.slots ∧ before.dirty = some owner := by
  obtain ⟨before, known⟩ := quiet.loaded id page owner found dirty
  obtain ⟨last, same, slots, lastDirty⟩ := quiet.cached id before known
  rw [found] at same
  cases same
  exact ⟨before, known, slots, lastDirty.symm.trans dirty⟩

/-! ## The steps one by one -/

theorem Quiet.withLocks (coherent : pool.Coherent) {locks : LockTable} (sound : locks.Sound)
    (keeps : ∀ id page tx, pool.cache.get? id = some page → page.dirty = some tx →
      locks.lockOn id = pool.locks.lockOn id)
    (held : ∀ other, other ≠ tx → locks.heldPages other = pool.locks.heldPages other) :
    Quiet tx pool { pool with locks } :=
  ⟨coherent.withLocks sound keeps, Grows.of_same rfl rfl, KeepsBytes.of_same rfl,
    fun _ page found => ⟨page, found, rfl, rfl⟩, fun _ page _ found _ => ⟨page, found⟩, held, rfl⟩

theorem Quiet.request (coherent : pool.Coherent) (tx : TxId) (id : PageId) (mode : LockMode) :
    Quiet tx pool { pool with locks := (pool.locks.request tx id mode).1 } := by
  refine Quiet.withLocks coherent (coherent.locks.request tx id mode) (fun place page owner found dirty => ?_)
    fun other differs => LockTable.heldPages_request_of_ne differs
  have owned := ((coherent.agrees place page found).locked owner dirty).1
  rw [coherent.locks.lockOn_request_of_exclusive owned, owned]

theorem Quiet.release (coherent : pool.Coherent)
    (clean : ∀ page, pool.cache.get? id = some page → page.dirty ≠ some tx) :
    Quiet tx pool (pool.release tx id) := by
  refine Quiet.withLocks coherent (coherent.locks.release tx id) (fun place page owner found dirty => ?_)
    fun other differs => LockTable.heldPages_release.trans (if_neg differs)
  have owned := ((coherent.agrees place page found).locked owner dirty).1
  rw [coherent.locks.lockOn_release_of_exclusive owned, owned]
  rintro rfl rfl
  exact clean page found dirty

theorem Quiet.putPage (coherent : pool.Coherent) (agrees : pool.Agrees page.id page)
    (same : ∀ before, pool.cache.get? page.id = some before →
      page.slots = before.slots ∧ page.dirty = before.dirty)
    (clean : pool.cache.get? page.id = none → page.dirty = none) :
    Quiet tx pool (pool.putPage page) := by
  refine ⟨coherent.putPage agrees, Grows.of_same rfl rfl, KeepsBytes.of_same rfl, fun id before found => ?_,
    fun id after owner found dirty => ?_, fun _ _ => rfl, rfl⟩
  · rw [get?_putPage]
    by_cases here : id = page.id
    · subst here
      exact ⟨page, if_pos rfl, same before found⟩
    · exact ⟨before, (if_neg here).trans found, rfl, rfl⟩
  · rw [get?_putPage] at found
    split at found
    · next here =>
      subst here
      cases found
      cases missing : pool.cache.get? page.id with
      | none => simp [clean missing] at dirty
      | some before => exact ⟨before, rfl⟩
    · exact ⟨after, found⟩

theorem Quiet.append (coherent : pool.Coherent) (appended : pool.appendPage id = .ok after) :
    Quiet tx pool after := by
  obtain ⟨sound, grows, bytes, cache, locks, accepts, _⟩ := coherent.append appended
  refine ⟨sound, grows, bytes, fun id page found => ⟨page, ?_, rfl, rfl⟩,
    fun id page _ found _ => ⟨page, ?_⟩, fun _ _ => ?_, accepts⟩
  · rw [cache, found]
  · rw [← cache, found]
  · rw [locks]

/-- Header bits that belong to no slot carry nothing. -/
theorem Quiet.setPadding (coherent : pool.Coherent) (found : pool.cache.get? page.id = some page)
    {padding : List Bool} (same : padding.length = page.padding.length) :
    Quiet tx pool (pool.putPage { page with padding }) := by
  have agrees := coherent.agrees page.id page found
  refine Quiet.putPage coherent ?_ (fun before known => ?_) fun missing => ?_
  · exact ⟨rfl, agrees.wellFormed.setPadding same, agrees.filed, agrees.restored, agrees.locked⟩
  · rw [found] at known
    cases known
    exact ⟨rfl, rfl⟩
  · rw [found] at missing
    contradiction

/-! ## Fetching a page -/

structure Fetched (tx : TxId) (id : PageId) (mode : LockMode) (pool after : Pool)
    (outcome : Outcome Unit Page) : Prop where
  quiet : Quiet tx pool after
  tables : after.tables = pool.tables
  disk : after.disk = pool.disk
  cached : ∀ page, outcome = .done page → after.cache.get? id = some page
  locked : ∀ page, outcome = .done page → mode = .exclusive →
    after.locks.lockOn id = ⟨some .exclusive, [tx]⟩
  /-- Who does not hold a page has not changed it. -/
  unchanged : ∀ page, outcome = .done page → id ∉ pool.locks.heldPages tx → page.dirty ≠ some tx
  /-- Who waits to read a page does not hold it. -/
  parked : ∀ stage, outcome = .parked stage → mode = .shared → id ∉ after.locks.heldPages tx

theorem Fetched.pageCount {outcome : Outcome Unit Page} (fetched : Fetched tx id mode pool after outcome)
    (table : TableId) : after.pageCount table = pool.pageCount table := by
  rw [Pool.pageCount, Pool.pageCount, fetched.tables]

theorem load_locks (pool : Pool) (id : PageId) : (pool.load id).1.locks = pool.locks := by
  unfold Pool.load
  split
  · rfl
  · split
    · rfl
    · split <;> rfl

theorem Coherent.load (coherent : pool.Coherent) (tx : TxId) (id : PageId) :
    Quiet tx pool (pool.load id).1 ∧ (pool.load id).1.tables = pool.tables ∧
      (pool.load id).1.disk = pool.disk ∧ (∀ stage, (pool.load id).2 ≠ .parked stage) ∧
      ∀ page, (pool.load id).2 = .done page → (pool.load id).1.cache.get? id = some page ∧
        (page.dirty = none ∨ pool.cache.get? id = some page) := by
  unfold Pool.load
  split
  · next page found =>
    refine ⟨Quiet.refl tx coherent, rfl, rfl, by simp, fun other same => ?_⟩
    cases same
    exact ⟨found, Or.inr found⟩
  · next missing =>
    split
    · exact ⟨Quiet.refl tx coherent, rfl, rfl, by simp, by simp⟩
    · next file table =>
      split
      · exact ⟨Quiet.refl tx coherent, rfl, rfl, by simp, by simp⟩
      · next page read =>
        obtain ⟨agrees, clean⟩ := agrees_of_readPage (table?_eq_ok.mp table) read
        have named := agrees.named
        subst named
        refine ⟨Quiet.putPage coherent agrees (by simp [missing]) fun _ => clean, rfl, rfl, by simp,
          fun other same => ?_⟩
        cases same
        exact ⟨(get?_putPage _ _ _).trans (if_pos rfl), Or.inl clean⟩

theorem Coherent.fetch (coherent : pool.Coherent) (tx : TxId) (id : PageId) (mode : LockMode) :
    Fetched tx id mode pool (pool.fetch tx id mode).1 (pool.fetch tx id mode).2 := by
  have request := Quiet.request coherent tx id mode
  have sound := coherent.locks
  have unheld : ∀ page, pool.cache.get? id = some page → id ∉ pool.locks.heldPages tx →
      page.dirty ≠ some tx := by
    intro page found absent dirty
    refine absent ((sound.held tx id).mp ?_)
    rw [((coherent.agrees id page found).locked tx dirty).1]
    exact List.mem_singleton_self tx
  unfold Pool.fetch
  generalize asked : pool.locks.request tx id mode = answer at request
  obtain ⟨locks, verdict⟩ := answer
  cases verdict with
  | parked =>
      refine ⟨request, rfl, rfl, by simp, by simp, by simp, fun _ _ reading => ?_⟩
      subst reading
      have absent := sound.not_mem_heldPages_of_request (show (pool.locks.request tx id .shared).2 ≠ .granted by
        rw [asked]
        simp)
      rwa [asked] at absent
  | refused reason => exact ⟨request, rfl, rfl, by simp, by simp, by simp, by simp⟩
  | granted =>
      obtain ⟨quiet, tables, disk, running, done⟩ := request.coherent.load tx id
      refine ⟨request.trans quiet, tables, disk, fun page same => (done page same).1, fun page same writing => ?_,
        fun page same absent => ?_, fun stage same => absurd same (running stage)⟩
      · subst writing
        have owned := sound.lockOn_request_of_granted (show (pool.locks.request tx id .exclusive).2 = .granted by
          rw [asked])
        rw [asked] at owned
        exact (congrArg (LockTable.lockOn · id) (load_locks _ id)).trans owned
      · rcases (done page same).2 with clean | found
        · simp [clean]
        · exact unheld page found absent

end RowStore.Pool
