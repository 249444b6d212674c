import RowStore.Pool.Delete
import RowStore.Pool.Insert
import RowStore.Pool.Scan
import RowStore.Proofs.Pool.Guarded

namespace RowStore

/-! Which pages a call hands to its transaction.

The functions here go through the pages in the way the calls do, and take down
every page that is handed out, also those that a call only looks at on its way. A
call hands out pages one after the other; what it changes, it changes when the
last one was handed out, on pages that it has locked to write by then.
-/

/-- A page that is handed to a transaction. -/
structure Visit where
  tx : TxId
  id : PageId
  mode : LockMode
  page : Page

/-- A parked insert that waits to look at a page does not hold that page. -/
def InsertStage.Unheld (tx : TxId) (table : TableId) (pool : Pool) : InsertStage → Prop
  | .inspecting number _ _ => ¬ pool.locks.Has tx ⟨table, number⟩ .shared
  | _ => True

namespace Pool

/-! ## The pages that a call comes by -/

def fetchVisits (pool : Pool) (tx : TxId) (id : PageId) (mode : LockMode)
    (next : Pool → Page → List Visit) : List Visit :=
  match pool.fetch tx id mode with
  | (pool, .done page) => ⟨tx, id, mode, page⟩ :: next pool page
  | _ => []

def extendVisits (pool : Pool) (tx : TxId) (table : TableId) : List Visit :=
  pool.fetchVisits tx ⟨table, pool.pageCount table⟩ .exclusive fun _ _ => []

def extendAtVisits (pool : Pool) (tx : TxId) (table : TableId) (number : Nat) : List Visit :=
  pool.fetchVisits tx ⟨table, number⟩ .exclusive fun pool page =>
    if page.isFull ∧ number < pool.pageCount table then pool.extendVisits tx table else []

def claimVisits (pool : Pool) (tx : TxId) (table : TableId) (number : Nat)
    (next : Pool → List Visit) : List Visit :=
  pool.fetchVisits tx ⟨table, number⟩ .exclusive fun pool page => if page.isFull then next pool else []

def inspectVisits (pool : Pool) (tx : TxId) (table : TableId) (number : Nat) (heldBefore : Bool)
    (next : Pool → List Visit) : List Visit :=
  pool.fetchVisits tx ⟨table, number⟩ .shared fun pool page =>
    if page.isFull then next (if heldBefore then pool else pool.release tx ⟨table, number⟩)
    else pool.claimVisits tx table number next

def inspectEachVisits (tx : TxId) (table : TableId) : List Nat → Pool → List Visit
  | [], pool => pool.extendVisits tx table
  | number :: rest, pool =>
      pool.inspectVisits tx table number (pool.locks.holds tx ⟨table, number⟩)
        (inspectEachVisits tx table rest)

def insertVisits (pool : Pool) (tx : TxId) (table : TableId) (row : Row) : InsertStage → List Visit
  | .start =>
      match pool.table? table with
      | .error _ => []
      | .ok file =>
          if row.types = file.schema.types then
            inspectEachVisits tx table (List.range file.pageCount) pool
          else []
  | .inspecting number heldBefore rest =>
      pool.inspectVisits tx table number heldBefore (inspectEachVisits tx table rest)
  | .claiming number rest => pool.claimVisits tx table number (inspectEachVisits tx table rest)
  | .appending number => pool.extendAtVisits tx table number

def removeVisits (pool : Pool) (tx : TxId) (file : TableFile) : Option RecordId → List Visit
  | none => []
  | some record =>
      if record.page.table = file.id ∧ record.page.number < file.pageCount then
        pool.fetchVisits tx record.page .exclusive fun _ _ => []
      else []

def deleteVisits (pool : Pool) (tx : TxId) : Option RecordId → List Visit
  | none => []
  | some record =>
      match pool.table? record.page.table with
      | .error _ => []
      | .ok file => pool.removeVisits tx file (some record)

def scanAheadVisits (tx : TxId) (table : TableId) : List Nat → Pool → List Visit
  | [], _ => []
  | number :: rest, pool =>
      pool.fetchVisits tx ⟨table, number⟩ .shared fun pool page =>
        if page.rows.isEmpty then scanAheadVisits tx table rest pool else []

def scanHasNextVisits (pool : Pool) (tx : TxId) (table : TableId) (position : ScanPosition) :
    List Visit :=
  if position.queue.isEmpty then
    scanAheadVisits tx table (pool.pagesFrom table position.nextPage) pool
  else []

def scanPagesVisits (tx : TxId) (table : TableId) : List Nat → Pool → List Visit
  | [], _ => []
  | number :: rest, pool =>
      pool.fetchVisits tx ⟨table, number⟩ .shared fun pool _ => scanPagesVisits tx table rest pool

def scanAllVisits (pool : Pool) (tx : TxId) (table : TableId) (position : ScanPosition) :
    List Visit :=
  scanPagesVisits tx table (pool.pagesFrom table position.nextPage) pool

/-! ## Handing out pages -/

variable {pool middle after : Pool} {tx : TxId} {table : TableId} {id : PageId} {page : Page}
variable {row : Row} {number : Nat} {rest : List Nat} {mode : LockMode} {visit : Visit}
variable {visits : List Visit} {gives : Bool}

/-- A page that was only looked at, since it is full, and was given up at once, since it was not held
before. -/
structure Passed (pool : Pool) (visit : Visit) : Prop where
  reading : visit.mode = .shared
  full : visit.page.isFull = true
  unheld : ¬ pool.locks.Has visit.tx visit.id .shared

structure Visited (tx : TxId) (gives : Bool) (pool : Pool) (visit : Visit) (after : Pool) : Prop where
  caller : visit.tx = tx
  cached : after.cache.get? visit.id = some visit.page
  /-- Nobody else has the page locked to write. -/
  alone : ∀ other, pool.locks.Has other visit.id .exclusive → tx = other
  kept : after.locks.Has tx visit.id visit.mode ∨ gives = true ∧ pool.Passed visit

/-- Pages were handed to a transaction, one after the other. Nobody has less than before, and no page
shows another content. -/
structure Walked (tx : TxId) (gives : Bool) (pool : Pool) (visits : List Visit) (after : Pool) :
    Prop where
  guarded : after.Guarded
  reads : Reads pool after
  keeps : ∀ other place wish, pool.locks.Has other place wish → after.locks.Has other place wish
  held : ∀ other, other ≠ tx → after.locks.heldPages other = pool.locks.heldPages other
  /-- Every page that was read into memory was handed out. -/
  listed : ∀ id, after.cache.get? id = pool.cache.get? id ∨ ∃ visit ∈ visits, visit.id = id
  visited : ∀ visit ∈ visits, Visited tx gives pool visit after

theorem Walked.stay (guarded : pool.Guarded) : Walked tx gives pool [] pool :=
  ⟨guarded, Reads.refl pool, fun _ _ _ has => has, fun _ _ => rfl, fun _ => Or.inl rfl, by simp⟩

theorem Walked.stop {outcome : Outcome Unit Page} (hands : Hands tx id mode pool after outcome)
    (nothing : ∀ page, outcome ≠ .done page) : Walked tx gives pool [] after := by
  refine ⟨hands.guarded, hands.reads, hands.keeps, hands.held, fun place => ?_, by simp⟩
  exact (hands.fresh place).imp_right fun ⟨_, page, done⟩ => absurd done (nothing page)

/-- The page that is handed out first is all that is read into memory before the others are. -/
theorem Hands.listed (hands : Hands tx id mode pool middle (.done page)) {given : Pool}
    (cache : given.cache = middle.cache)
    (later : ∀ place, after.cache.get? place = given.cache.get? place ∨ ∃ visit ∈ visits, visit.id = place)
    (place : PageId) :
    after.cache.get? place = pool.cache.get? place ∨
      ∃ visit ∈ (⟨tx, id, mode, page⟩ : Visit) :: visits, visit.id = place := by
  rcases later place with same | ⟨visit, member, here⟩
  · rcases hands.fresh place with before | ⟨rfl, _⟩
    · exact Or.inl (by rw [same, cache, before])
    · exact Or.inr ⟨_, List.mem_cons_self, rfl⟩
  · exact Or.inr ⟨visit, List.mem_cons_of_mem _ member, here⟩

/-- What was so before a page was handed out is so after it. -/
theorem Visited.earlier (visited : Visited tx gives middle visit after)
    (keeps : ∀ other place wish, pool.locks.Has other place wish → middle.locks.Has other place wish) :
    Visited tx gives pool visit after := by
  refine ⟨visited.caller, visited.cached, fun other written => visited.alone other (keeps _ _ _ written),
    visited.kept.imp_right fun ⟨gives, passed⟩ => ⟨gives, passed.reading, passed.full, ?_⟩⟩
  exact mt (keeps _ _ _) passed.unheld

theorem Walked.hand (hands : Hands tx id mode pool middle (.done page))
    (walked : Walked tx gives middle visits after) :
    Walked tx gives pool (⟨tx, id, mode, page⟩ :: visits) after := by
  refine ⟨walked.guarded, hands.reads.trans walked.reads,
    fun other place wish has => walked.keeps other place wish (hands.keeps other place wish has),
    fun other differs => (walked.held other differs).trans (hands.held other differs),
    hands.listed rfl walked.listed, fun visit listed => ?_⟩
  rcases List.mem_cons.mp listed with rfl | later
  · exact ⟨rfl, walked.reads.cached id page (hands.cached page rfl), hands.alone page rfl,
      Or.inl (walked.keeps tx id mode (hands.has page rfl))⟩
  · exact (walked.visited visit later).earlier hands.keeps

theorem Guarded.walkFetch (guarded : pool.Guarded) (tx : TxId) (id : PageId) (mode : LockMode) :
    Walked tx gives pool (pool.fetchVisits tx id mode fun _ _ => []) (pool.fetch tx id mode).1 := by
  have hands := guarded.fetch tx id mode
  unfold fetchVisits
  generalize pool.fetch tx id mode = result at hands ⊢
  obtain ⟨after, outcome⟩ := result
  cases outcome with
  | done page => exact Walked.hand hands (Walked.stay hands.guarded)
  | failed | parked => exact Walked.stop hands (by simp)

/-- Who changed a page that is in memory after pages were read had it locked to write before. -/
theorem Reads.owned (reads : Reads pool after) (guarded : pool.Guarded)
    (found : after.cache.get? id = some page) (dirty : page.dirty = some tx) :
    pool.locks.Has tx id .exclusive := by
  have loaded := reads.loaded id page found
  obtain ⟨cached, known, same⟩ | ⟨error, same⟩ | ⟨read, _, _, unchanged, same⟩ := pool.load_cases id
  · rw [same] at loaded
    cases loaded
    exact guarded.owned id page tx known dirty
  · simp [same] at loaded
  · rw [same] at loaded
    cases loaded
    simp [unchanged] at dirty

theorem Walked.pass (hands : Hands tx id .shared pool middle (.done page))
    (full : page.isFull = true) (unheld : ¬ pool.locks.Has tx id .shared)
    (walked : Walked tx true (middle.release tx id) visits after) :
    Walked tx true pool (⟨tx, id, .shared, page⟩ :: visits) after := by
  have keeps : ∀ other place wish, pool.locks.Has other place wish →
      (middle.release tx id).locks.Has other place wish := by
    intro other place wish has
    refine (hands.keeps other place wish has).release ?_
    rintro rfl rfl
    exact unheld has.shared
  refine ⟨walked.guarded, hands.reads.trans ((Reads.of_locks middle _).trans walked.reads),
    fun other place wish has => walked.keeps other place wish (keeps other place wish has),
    fun other differs => ?_, hands.listed rfl walked.listed, fun visit listed => ?_⟩
  · rw [walked.held other differs]
    exact (LockTable.heldPages_release.trans (if_neg differs)).trans (hands.held other differs)
  · rcases List.mem_cons.mp listed with rfl | later
    · exact ⟨rfl, walked.reads.cached id page (hands.cached page rfl), hands.alone page rfl,
        Or.inr ⟨rfl, rfl, full, unheld⟩⟩
    · exact (walked.visited visit later).earlier keeps

/-- A page that the transaction did not hold before can be given up again. -/
theorem Guarded.release (guarded : pool.Guarded) (hands : Hands tx id mode pool middle (.done page))
    (unheld : ¬ pool.locks.Has tx id .shared) : (middle.release tx id).Guarded := by
  refine hands.guarded.withLocks (hands.guarded.locks.release tx id)
    fun place other owner found dirty has => has.release ?_
  rintro rfl rfl
  exact unheld (hands.reads.owned guarded found dirty).shared

/-! ## Changing pages -/

/-- Only pages changed that the transaction has locked to write. -/
structure Rewrites (tx : TxId) (pool after : Pool) : Prop where
  guarded : after.Guarded
  locks : after.locks = pool.locks
  cached : ∀ id, (after.cache.get? id).isSome = (pool.cache.get? id).isSome
  pages : ∀ id, after.cache.get? id = pool.cache.get? id ∨ pool.locks.Has tx id .exclusive

theorem Rewrites.of_same (guarded : pool.Guarded) (cache : after.cache = pool.cache)
    (locks : after.locks = pool.locks) : Rewrites tx pool after :=
  ⟨guarded.congr (fun _ => by rw [cache]) locks, locks, fun _ => by rw [cache],
    fun _ => Or.inl (by rw [cache])⟩

theorem Rewrites.trans (first : Rewrites tx pool middle) (second : Rewrites tx middle after) :
    Rewrites tx pool after := by
  refine ⟨second.guarded, second.locks.trans first.locks,
    fun id => (second.cached id).trans (first.cached id), fun id => ?_⟩
  rcases second.pages id with same | written
  · rw [same]
    exact first.pages id
  · exact Or.inr (first.locks ▸ written)

theorem Guarded.rewrite (guarded : pool.Guarded) (restorable : page.Restorable page.id) {before : Page}
    (found : pool.cache.get? page.id = some before) (written : pool.locks.Has tx page.id .exclusive)
    (owned : ∀ owner, page.dirty = some owner → pool.locks.Has owner page.id .exclusive) :
    Rewrites tx pool (pool.putPage page) := by
  refine ⟨guarded.putPage restorable owned, rfl, fun id => ?_, fun id => ?_⟩
  · rw [get?_putPage]
    split
    · next here => rw [here, found]; rfl
    · rfl
  · by_cases here : id = page.id
    · exact Or.inr (here ▸ written)
    · exact Or.inl ((get?_putPage _ _ _).trans (if_neg here))

theorem Guarded.markDirty (guarded : pool.Guarded) (written : pool.locks.Has tx id .exclusive) :
    Rewrites tx pool (pool.markDirty tx id) := by
  unfold Pool.markDirty
  split
  · next page found =>
    have restorable := guarded.restorable id page found
    have named := restorable.named
    subst named
    refine guarded.rewrite (restorable.markDirty _) found written fun owner dirty => ?_
    obtain rfl : tx = owner := Option.some.inj dirty
    exact written
  · exact Rewrites.of_same guarded rfl rfl

theorem Guarded.append (guarded : pool.Guarded) (appended : pool.appendPage id = .ok after) :
    Rewrites tx pool after ∧ after.cache = pool.cache := by
  obtain ⟨file, _, ⟨_, disk, _, rfl⟩ | ⟨_, rfl⟩⟩ := of_appendPage appended
  · exact ⟨Rewrites.of_same guarded rfl rfl, rfl⟩
  · exact ⟨Rewrites.of_same guarded rfl rfl, rfl⟩

end Pool

end RowStore
