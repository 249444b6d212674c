import RowStore.Proofs.Lock.Holding
import RowStore.Proofs.Pool.Complete
import RowStore.Proofs.Pool.Quiet

namespace RowStore

/-! Whoever changed a page has it locked to write, whatever the files hold.

This asks less than the agreement of memory and files: nothing is said of the
lengths of files, of the tables that share one, or of writes that fail. Every page
in memory can be put back to its image, so a transaction that ends leaves no page
that is marked as changed by it.
-/

namespace Page

variable {page clean : Page} {id : PageId}

/-- The slots of a page, and the header bits that belong to no slot. -/
def contents (page : Page) : List (Option (List Value)) × List Bool := (page.slots, page.padding)

/-- The page can be written and read again, and its image can be read. -/
structure Restorable (id : PageId) (page : Page) : Prop where
  named : page.id = id
  wellFormed : page.WellFormed
  recovers : ∃ image, page.restored = .ok image

theorem restorable_of_decode {schema : Schema} {size : Nat} {data : List UInt8}
    (read : decode id schema size data = .ok page) : page.Restorable id := by
  obtain ⟨named, sameSchema, sameSize, _, before, wellFormed⟩ := of_decode read
  refine ⟨named, wellFormed, page, ?_⟩
  rw [restored, named, sameSchema, sameSize, before, decode_fitBytes, read]

theorem Restorable.markDirty (restorable : page.Restorable id) (owner : Option TxId) :
    (page.markDirty owner).Restorable id :=
  ⟨restorable.named, restorable.wellFormed.markDirty owner, restorable.recovers⟩

theorem Restorable.setSlot (restorable : page.Restorable id) {slot : Nat} {held : Option (List Value)}
    (fits : SlotFits page.schema.types held) : (page.setSlot slot held).Restorable id :=
  ⟨restorable.named, restorable.wellFormed.setSlot fits, restorable.recovers⟩

theorem Restorable.setPadding (restorable : page.Restorable id) {padding : List Bool}
    (same : padding.length = page.padding.length) : Restorable id { page with padding } :=
  ⟨restorable.named, restorable.wellFormed.setPadding same, restorable.recovers⟩

theorem Restorable.flushed (restorable : page.Restorable id) : ((page.markDirty none).keepImage).Restorable id :=
  ⟨restorable.named, restorable.wellFormed.keepImage, _, restorable.wellFormed.decode_image⟩

theorem Restorable.restored (restorable : page.Restorable id) (restored : page.restored = .ok clean) :
    clean.Restorable id ∧ clean.dirty = none := by
  have named := restorable.named
  subst named
  exact ⟨restorable_of_decode restored, (of_decode restored).2.2.2.1⟩

end Page

namespace Pool

variable {pool middle after : Pool} {tx other : TxId} {id : PageId} {page clean : Page}
variable {pages : List Page} {mode : LockMode}

structure Guarded (pool : Pool) : Prop where
  locks : pool.locks.Sound
  restorable : ∀ id page, pool.cache.get? id = some page → page.Restorable id
  owned : ∀ id page tx, pool.cache.get? id = some page → page.dirty = some tx →
    pool.locks.Has tx id .exclusive

theorem guarded_of_empty (cache : pool.cache = .empty) (sound : pool.locks.Sound) : pool.Guarded :=
  ⟨sound, by simp [cache], by simp [cache]⟩

theorem Guarded.named (guarded : pool.Guarded) : pool.Named :=
  fun id page found => (guarded.restorable id page found).named

theorem Guarded.congr (guarded : pool.Guarded)
    (cache : ∀ id, after.cache.get? id = pool.cache.get? id) (locks : after.locks = pool.locks) :
    after.Guarded := by
  refine ⟨locks ▸ guarded.locks, fun id page found => ?_, fun id page tx found dirty => ?_⟩
  · exact guarded.restorable id page ((cache id).symm.trans found)
  · exact locks ▸ guarded.owned id page tx ((cache id).symm.trans found) dirty

theorem Guarded.withLocks (guarded : pool.Guarded) {locks : LockTable} (sound : locks.Sound)
    (keeps : ∀ id page tx, pool.cache.get? id = some page → page.dirty = some tx →
      pool.locks.Has tx id .exclusive → locks.Has tx id .exclusive) : Guarded { pool with locks } :=
  ⟨sound, guarded.restorable, fun id page tx found dirty =>
    keeps id page tx found dirty (guarded.owned id page tx found dirty)⟩

theorem Guarded.putPage (guarded : pool.Guarded) (restorable : page.Restorable page.id)
    (owned : ∀ tx, page.dirty = some tx → pool.locks.Has tx page.id .exclusive) :
    (pool.putPage page).Guarded := by
  refine ⟨guarded.locks, fun id other found => ?_, fun id other tx found dirty => ?_⟩
  · rw [get?_putPage] at found
    split at found
    · next here =>
      cases found
      exact here ▸ restorable
    · exact guarded.restorable id other found
  · rw [get?_putPage] at found
    split at found
    · next here =>
      cases found
      exact here ▸ owned tx dirty
    · exact guarded.owned id other tx found dirty

/-! ## Reading pages into memory -/

/-- Pages were read into memory from the files, and nothing else happened to pages and files. -/
structure Reads (pool after : Pool) : Prop where
  disk : after.disk = pool.disk
  tables : after.tables = pool.tables
  cached : ∀ id page, pool.cache.get? id = some page → after.cache.get? id = some page
  loaded : ∀ id page, after.cache.get? id = some page → (pool.load id).2 = .done page

theorem load_of_cached (found : pool.cache.get? id = some page) : pool.load id = (pool, .done page) := by
  simp [load, found]

theorem load_congr (disk : after.disk = pool.disk) (tables : after.tables = pool.tables)
    (cache : after.cache.get? id = pool.cache.get? id) : (after.load id).2 = (pool.load id).2 := by
  simp only [load, cache, table?, tables, disk]
  split
  · rfl
  · split
    · rfl
    · split <;> rfl

theorem Reads.refl (pool : Pool) : Reads pool pool :=
  ⟨rfl, rfl, fun _ _ found => found, fun _ _ found => by rw [load_of_cached found]⟩

theorem Reads.trans (first : Reads pool middle) (second : Reads middle after) : Reads pool after := by
  refine ⟨second.disk.trans first.disk, second.tables.trans first.tables,
    fun id page found => second.cached id page (first.cached id page found), fun id page found => ?_⟩
  have later := second.loaded id page found
  cases known : middle.cache.get? id with
  | some before =>
      rw [load_of_cached known] at later
      cases later
      exact first.loaded id page known
  | none =>
      have missing : pool.cache.get? id = none := by
        cases known' : pool.cache.get? id with
        | none => rfl
        | some before => simp [first.cached id before known'] at known
      rwa [load_congr first.disk first.tables (known.trans missing.symm)] at later

/-- A page is had from memory, or it is read from its file and put into memory, or it cannot be had. -/
theorem load_cases (pool : Pool) (id : PageId) :
    (∃ page, pool.cache.get? id = some page ∧ pool.load id = (pool, .done page)) ∨
    (∃ error, pool.load id = (pool, .failed error)) ∨
    ∃ page, pool.cache.get? id = none ∧ page.Restorable id ∧ page.dirty = none ∧
      pool.load id = (pool.putPage page, .done page) := by
  cases found : pool.cache.get? id with
  | some cached => exact Or.inl ⟨cached, rfl, load_of_cached found⟩
  | none =>
      right
      simp only [load, found]
      split
      · next error _ => exact Or.inl ⟨error, rfl⟩
      · split
        · next error _ => exact Or.inl ⟨error, rfl⟩
        · next page read =>
          obtain ⟨_, _, decoded⟩ := TableFile.of_readPage read
          obtain ⟨_, _, _, unchanged, _⟩ := Page.of_decode decoded
          exact Or.inr ⟨page, trivial, Page.restorable_of_decode decoded, unchanged, rfl⟩

theorem get?_load (pool : Pool) (id place : PageId) :
    (pool.load id).1.cache.get? place = pool.cache.get? place ∨
      place = id ∧ ∃ page, (pool.load id).2 = .done page := by
  obtain ⟨_, _, same⟩ | ⟨_, same⟩ | ⟨page, _, restorable, _, same⟩ := pool.load_cases id
  · exact Or.inl (by rw [same])
  · exact Or.inl (by rw [same])
  · by_cases here : place = id
    · exact Or.inr ⟨here, page, by rw [same]⟩
    · exact Or.inl (by rw [same, get?_putPage, restorable.named, if_neg here])

theorem load_ne_parked (pool : Pool) (id : PageId) (stage : Unit) : (pool.load id).2 ≠ .parked stage := by
  obtain ⟨_, _, same⟩ | ⟨_, same⟩ | ⟨_, _, _, _, same⟩ := pool.load_cases id <;> simp [same]

theorem Reads.of_locks (pool : Pool) (locks : LockTable) : Reads pool { pool with locks } := by
  refine ⟨rfl, rfl, fun _ _ found => found, fun id page found => ?_⟩
  change pool.cache.get? id = some page at found
  rw [load_of_cached found]

theorem Guarded.load (guarded : pool.Guarded) (id : PageId) :
    (pool.load id).1.Guarded ∧ Reads pool (pool.load id).1 ∧
      ∀ page, (pool.load id).2 = .done page → (pool.load id).1.cache.get? id = some page := by
  obtain ⟨page, found, same⟩ | ⟨error, same⟩ | ⟨page, missing, restorable, unchanged, same⟩ := pool.load_cases id
  · rw [same]
    exact ⟨guarded, Reads.refl pool, fun _ done => by cases done; exact found⟩
  · rw [same]
    exact ⟨guarded, Reads.refl pool, by simp⟩
  · have named := restorable.named
    subst named
    have kept : (pool.putPage page).Guarded := guarded.putPage restorable (by simp [unchanged])
    refine ⟨same ▸ kept, same ▸ ⟨rfl, rfl, fun id before known => ?_, fun id before known => ?_⟩,
      fun other done => ?_⟩
    · rw [get?_putPage, if_neg fun here => ?_]
      · exact known
      · rw [here, missing] at known
        contradiction
    · rw [get?_putPage] at known
      split at known
      · next here =>
        cases known
        rw [here, same]
      · rw [load_of_cached known]
    · rw [same] at done ⊢
      cases done
      rw [get?_putPage, if_pos rfl]

/-! ## Fetching a page -/

/-- What a fetch leaves: nobody has less than before, and a page that is handed out is in memory and
in the hands of its reader. -/
structure Hands (tx : TxId) (id : PageId) (mode : LockMode) (pool after : Pool)
    (outcome : Outcome Unit Page) : Prop where
  guarded : after.Guarded
  reads : Reads pool after
  keeps : ∀ other place wish, pool.locks.Has other place wish → after.locks.Has other place wish
  held : ∀ other, other ≠ tx → after.locks.heldPages other = pool.locks.heldPages other
  cached : ∀ page, outcome = .done page → after.cache.get? id = some page
  has : ∀ page, outcome = .done page → after.locks.Has tx id mode
  alone : ∀ page, outcome = .done page → ∀ other, pool.locks.Has other id .exclusive → tx = other
  /-- No page is read into memory but one that is handed out. -/
  fresh : ∀ place, after.cache.get? place = pool.cache.get? place ∨ place = id ∧ ∃ page, outcome = .done page
  /-- Who waits to read a page does not hold it. -/
  parked : ∀ stage, outcome = .parked stage → mode = .shared → ¬ after.locks.Has tx id .shared

theorem Guarded.request (guarded : pool.Guarded) (tx : TxId) (id : PageId) (mode : LockMode) :
    Guarded { pool with locks := (pool.locks.request tx id mode).1 } :=
  guarded.withLocks (guarded.locks.request tx id mode) fun _ _ _ _ _ has => has.request tx id mode

theorem Guarded.fetch (guarded : pool.Guarded) (tx : TxId) (id : PageId) (mode : LockMode) :
    Hands tx id mode pool (pool.fetch tx id mode).1 (pool.fetch tx id mode).2 := by
  have request := guarded.request tx id mode
  have reads := Reads.of_locks pool (pool.locks.request tx id mode).1
  have keeps : ∀ other place wish, pool.locks.Has other place wish →
      (pool.locks.request tx id mode).1.Has other place wish :=
    fun _ _ _ has => has.request tx id mode
  have held : ∀ other, other ≠ tx →
      (pool.locks.request tx id mode).1.heldPages other = pool.locks.heldPages other :=
    fun _ differs => LockTable.heldPages_request_of_ne differs
  unfold Pool.fetch
  generalize asked : pool.locks.request tx id mode = answer at request reads keeps held
  obtain ⟨locks, verdict⟩ := answer
  cases verdict with
  | parked =>
      refine ⟨request, reads, keeps, held, by simp, by simp, by simp, fun _ => Or.inl rfl, fun _ _ reading has => ?_⟩
      subst reading
      have refused : (pool.locks.request tx id .shared).2 ≠ .granted := by simp [asked]
      have absent := guarded.locks.not_mem_heldPages_of_request refused
      rw [asked] at absent
      exact absent (request.locks.has_shared_iff.mp has)
  | refused reason =>
      exact ⟨request, reads, keeps, held, by simp, by simp, by simp, fun _ => Or.inl rfl, by simp⟩
  | granted =>
      have granted : (pool.locks.request tx id mode).2 = .granted := by rw [asked]
      have has := LockTable.has_of_granted granted
      rw [asked] at has
      obtain ⟨loaded, more, cached⟩ := request.load id
      have fresh := get?_load { pool with locks } id
      have locksSame := load_locks { pool with locks } id
      refine ⟨loaded, reads.trans more, ?_, ?_, cached, ?_, ?_, fresh, ?_⟩
      · rwa [locksSame]
      · rwa [locksSame]
      · rw [locksSame]
        exact fun _ _ => has
      · exact fun _ _ other written => guarded.locks.eq_of_granted granted written
      · exact fun stage same => absurd same (load_ne_parked _ id stage)

/-! ## Flushing and the end of a transaction -/

def contents? (pool : Pool) (id : PageId) : Option (List (Option (List Value)) × List Bool) :=
  (pool.cache.get? id).map Page.contents

/-- Pages were cleaned, and their locks still guard all pages. -/
structure Tidied (fate : Page → Page → Prop) (pages : List Page) (pool after : Pool) : Prop
    extends Cleaned fate pages pool after where
  guarded : after.Guarded
  locks : after.locks = pool.locks

section Tidied

variable {fate : Page → Page → Prop}

theorem Tidied.nil (fate : Page → Page → Prop) (guarded : pool.Guarded) : Tidied fate [] pool pool :=
  ⟨Cleaned.nil fate pool, guarded, rfl⟩

theorem Tidied.cons (first : Tidied fate [page] pool middle) (rest : Tidied fate pages middle after)
    (apart : page.id ∉ pages.map Page.id) : Tidied fate (page :: pages) pool after :=
  ⟨first.toCleaned.cons rest.toCleaned apart, rest.guarded, rest.locks.trans first.locks⟩

theorem Guarded.putClean (guarded : pool.Guarded) (restorable : clean.Restorable page.id)
    (unchanged : clean.dirty = none) (kept : fate page clean) :
    Tidied fate [page] pool (pool.putPage clean) := by
  have named := restorable.named
  exact ⟨Cleaned.put named unchanged kept, guarded.putPage (named.symm ▸ restorable) (by simp [unchanged]), rfl⟩

/-- Pages that hold the same after they were cleaned: memory shows no difference. -/
theorem Cleaned.contents? (cleaned : Cleaned fate pages pool after)
    (listed : ∀ page ∈ pages, pool.cache.get? page.id = some page)
    (same : ∀ page clean, fate page clean → clean.contents = page.contents) (id : PageId) :
    after.contents? id = pool.contents? id := by
  by_cases member : id ∈ pages.map Page.id
  · obtain ⟨page, found, rfl⟩ := List.mem_map.mp member
    obtain ⟨clean, now, _, kept⟩ := cleaned.cleaned page found
    rw [Pool.contents?, Pool.contents?, now, listed page found, Option.map_some, Option.map_some,
      same page clean kept]
  · rw [Pool.contents?, Pool.contents?, cleaned.others id member]

end Tidied

def SameContents (page clean : Page) : Prop := clean.contents = page.contents

theorem of_flushPage (flushed : pool.flushPage page = .ok after) :
    ∃ disk, after = putPage { pool with disk } (page.markDirty none).keepImage := by
  unfold Pool.flushPage at flushed
  split at flushed
  · contradiction
  · split at flushed
    · contradiction
    · next disk _ => exact ⟨disk, (Except.ok.inj flushed).symm⟩

section End

variable (guarded : pool.Guarded)
include guarded

theorem Guarded.flushPage (found : pool.cache.get? page.id = some page)
    (flushed : pool.flushPage page = .ok after) : Tidied SameContents [page] pool after := by
  obtain ⟨disk, rfl⟩ := of_flushPage flushed
  have same : Guarded { pool with disk } := guarded.congr (fun _ => rfl) rfl
  obtain ⟨⟨cleaned, others⟩, kept, locks⟩ := same.putClean (guarded.restorable _ page found).flushed rfl
    (show SameContents page _ from rfl)
  exact ⟨⟨cleaned, others⟩, kept, locks⟩

theorem Guarded.flushEach (listed : Listed pool pages) :
    ∃ written left, pages = written ++ left ∧ Tidied SameContents written pool (pool.flushEach pages).1 ∧
      ((pool.flushEach pages).2 = .ok () → left = []) := by
  induction pages generalizing pool with
  | nil => exact ⟨[], [], rfl, Tidied.nil _ guarded, fun _ => rfl⟩
  | cons page pages ih =>
      unfold Pool.flushEach
      split
      · exact ⟨[], page :: pages, rfl, Tidied.nil _ guarded, by simp⟩
      · next middle flushed =>
        have first := guarded.flushPage (listed.found page List.mem_cons_self) flushed
        obtain ⟨written, left, rfl, rest, ended⟩ := ih first.guarded (listed.tail first.toCleaned)
        have apart : page.id ∉ written.map Page.id := fun again =>
          (List.nodup_cons.mp listed.distinct).1 (by
            rw [List.map_append]
            exact List.mem_append_left _ again)
        exact ⟨page :: written, left, rfl, first.cons rest apart, ended⟩

/-- The image of a page in memory can always be read. -/
theorem Guarded.restoreEach (listed : Listed pool pages) :
    Tidied (fun _ _ => True) pages pool (pool.restoreEach pages).1 ∧ (pool.restoreEach pages).2 = .ok () := by
  induction pages generalizing pool with
  | nil => exact ⟨Tidied.nil _ guarded, rfl⟩
  | cons page pages ih =>
      have restorable := guarded.restorable _ page (listed.found page List.mem_cons_self)
      obtain ⟨clean, restored⟩ := restorable.recovers
      obtain ⟨saneAgain, unchanged⟩ := restorable.restored restored
      have first : Tidied (fun _ _ => True) [page] pool (pool.putPage clean) :=
        guarded.putClean saneAgain unchanged trivial
      obtain ⟨rest, ended⟩ := ih first.guarded (listed.tail first.toCleaned)
      unfold Pool.restoreEach
      simp only [restored]
      exact ⟨first.cons rest (List.nodup_cons.mp listed.distinct).1, ended⟩

/-- Writing changed pages to their files shows in no page, however far it comes. -/
theorem Guarded.flush (owner : Option TxId) :
    (pool.flushEach (pool.dirtyPages owner)).1.Guarded ∧
      (pool.flushEach (pool.dirtyPages owner)).1.locks = pool.locks ∧
      ∀ id, (pool.flushEach (pool.dirtyPages owner)).1.contents? id = pool.contents? id := by
  have listed := guarded.named.listed owner
  obtain ⟨written, left, split, cleaned, _⟩ := guarded.flushEach listed
  refine ⟨cleaned.guarded, cleaned.locks, cleaned.contents? (fun page member => ?_) fun _ _ same => same⟩
  refine listed.found page ?_
  rw [split]
  exact List.mem_append_left _ member

/-- A transaction that is undone changes the pages that it has locked to write, and then nothing is
left of it in memory. -/
theorem Guarded.restore (tx : TxId) :
    Tidied (fun _ _ => True) (pool.dirtyPages (some tx)) pool (pool.restore tx).1 ∧
      (pool.restore tx).2 = .ok () ∧ CleanOf tx (pool.restore tx).1 ∧
      ∀ id, (pool.restore tx).1.cache.get? id = pool.cache.get? id ∨ pool.locks.Has tx id .exclusive := by
  obtain ⟨cleaned, ended⟩ := guarded.restoreEach (guarded.named.listed (some tx))
  refine ⟨cleaned, ended, cleaned.toCleaned.cleanOf guarded.named, fun id => ?_⟩
  by_cases member : id ∈ (pool.dirtyPages (some tx)).map Page.id
  · obtain ⟨page, found, rfl⟩ := List.mem_map.mp member
    obtain ⟨known, owner, dirty, own⟩ := (guarded.named.mem_dirtyPages_iff _).mp found
    obtain rfl := own tx rfl
    exact Or.inr (guarded.owned _ page owner known dirty)
  · exact Or.inl (cleaned.others id member)

/-- The end of a transaction: pages that it had locked to write may be put back, and all its locks
are given up. -/
theorem Guarded.complete (tx : TxId) (commit : Bool) :
    ∃ middle, middle.Guarded ∧ middle.locks = pool.locks ∧ CleanOf tx middle ∧
      (if commit then (pool.commit tx).1 else (pool.abort tx).1) = middle.releaseAll tx ∧
      ∀ id, middle.contents? id = pool.contents? id ∨ pool.locks.Has tx id .exclusive := by
  cases commit with
  | false =>
      obtain ⟨cleaned, _, clean, same⟩ := guarded.restore tx
      refine ⟨_, cleaned.guarded, cleaned.locks, clean, rfl, fun id => (same id).imp (fun kept => ?_) fun has => has⟩
      rw [contents?, contents?, kept]
  | true =>
      have listed := guarded.named.listed (some tx)
      obtain ⟨written, left, split, cleaned, ended⟩ := guarded.flushEach listed
      obtain ⟨_, _, shows⟩ := guarded.flush (some tx)
      simp only [if_true]
      unfold Pool.commit
      generalize flushed : pool.flush tx = result
      rw [Pool.flush] at flushed
      rw [flushed] at cleaned ended shows
      obtain ⟨middle, outcome⟩ := result
      cases outcome with
      | ok =>
          rw [ended rfl, List.append_nil] at split
          rw [← split] at cleaned
          exact ⟨middle, cleaned.guarded, cleaned.locks, cleaned.toCleaned.cleanOf guarded.named, rfl,
            fun id => Or.inl (shows id)⟩
      | error error =>
          obtain ⟨restored, _, clean, same⟩ := cleaned.guarded.restore tx
          refine ⟨_, restored.guarded, restored.locks.trans cleaned.locks, clean, rfl,
            fun id => (same id).imp (fun kept => ?_) fun has => cleaned.locks ▸ has⟩
          rw [← shows id, contents?, contents?, kept]

end End

theorem Guarded.releaseAll (guarded : pool.Guarded) (clean : CleanOf tx pool) :
    (pool.releaseAll tx).Guarded := by
  refine guarded.withLocks (guarded.locks.releaseAll tx) fun id page owner found dirty has => ?_
  refine has.releaseAll guarded.locks ?_
  rintro rfl
  exact clean id page found dirty

end Pool

end RowStore
