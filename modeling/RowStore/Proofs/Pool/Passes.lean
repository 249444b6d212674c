import RowStore.Proofs.Pool.Reading
import RowStore.Proofs.Pool.Unreadable
import RowStore.Proofs.Pool.Visits

namespace RowStore

/-! A pass over a table, in the order of its pages.

What a pass has read is the rows of the first pages of the table, and all of these
pages are locked to read. So long as the transaction does not write to them they keep
their rows, and a later pass reads these rows first.
-/

namespace Pool

variable {pool middle after : Pool} {tx : TxId} {table : TableId} {id : PageId} {page : Page}
variable {row : Row} {rows : List Row} {count first length : Nat} {mode : LockMode}

/-- That there are no more rows is not said of a page that cannot be had. -/
theorem fetch_ne_noMoreRows (pool : Pool) (tx : TxId) (id : PageId) (mode : LockMode) :
    (pool.fetch tx id mode).2 ≠ .failed .noMoreRows := by
  intro failed
  obtain ⟨_, _, same⟩ | unreadable := fetch_error failed
  · contradiction
  · cases load_error unreadable

/-! ## Pages that were read -/

/-- The rows of a page that is in memory. -/
def rowsAt (pool : Pool) (id : PageId) : List Row := ((pool.cache.get? id).map Page.rows).getD []

def rowsIn (pool : Pool) (table : TableId) (numbers : List Nat) : List Row :=
  numbers.flatMap fun number => pool.rowsAt ⟨table, number⟩

theorem rowsAt_eq (found : pool.cache.get? id = some page) : pool.rowsAt id = page.rows := by
  rw [rowsAt, found, Option.map_some, Option.getD_some]

/-- Every page in memory stays there with its rows. -/
def Retains (pool after : Pool) : Prop :=
  ∀ id page, pool.cache.get? id = some page → ∃ now, after.cache.get? id = some now ∧ now.rows = page.rows

theorem Retains.refl (pool : Pool) : Retains pool pool := fun _ page found => ⟨page, found, rfl⟩

theorem Retains.of_cache (same : after.cache = pool.cache) : Retains pool after :=
  fun _ page found => ⟨page, same ▸ found, rfl⟩

theorem Retains.trans (early : Retains pool middle) (late : Retains middle after) : Retains pool after := by
  intro id page found
  obtain ⟨now, known, same⟩ := early id page found
  obtain ⟨last, kept, equal⟩ := late id now known
  exact ⟨last, kept, equal.trans same⟩

/-- The transaction has the first pages of a table locked to read, and these are their rows. -/
structure Holds (tx : TxId) (table : TableId) (pool : Pool) (count : Nat) (rows : List Row) : Prop where
  inside : count ≤ pool.pageCount table
  has : ∀ number < count, pool.locks.Has tx ⟨table, number⟩ .shared
  cached : ∀ number < count, ∃ page, pool.cache.get? ⟨table, number⟩ = some page
  rows : rows = pool.rowsIn table (List.range count)

theorem holds_none (tx : TxId) (table : TableId) (pool : Pool) : Holds tx table pool 0 [] :=
  ⟨Nat.zero_le _, nofun, nofun, rfl⟩

theorem Holds.keep (holds : Holds tx table pool count rows)
    (longer : pool.pageCount table ≤ after.pageCount table)
    (has : ∀ number < count, pool.locks.Has tx ⟨table, number⟩ .shared →
      after.locks.Has tx ⟨table, number⟩ .shared)
    (shows : ∀ number < count, ∀ page, pool.cache.get? ⟨table, number⟩ = some page →
      ∃ now, after.cache.get? ⟨table, number⟩ = some now ∧ now.rows = page.rows) :
    Holds tx table after count rows := by
  refine ⟨Nat.le_trans holds.inside longer, fun number below => has number below (holds.has number below),
    fun number below => ?_, holds.rows.trans ?_⟩
  · obtain ⟨page, found⟩ := holds.cached number below
    obtain ⟨now, known, _⟩ := shows number below page found
    exact ⟨now, known⟩
  · rw [rowsIn, rowsIn, List.flatMap_def, List.flatMap_def]
    refine congrArg List.flatten (List.map_congr_left fun number listed => ?_)
    have below := List.mem_range.mp listed
    obtain ⟨page, found⟩ := holds.cached number below
    obtain ⟨now, known, same⟩ := shows number below page found
    rw [rowsAt_eq found, rowsAt_eq known, same]

/-- The next page of a table is handed out. -/
theorem Holds.next (holds : Holds tx table pool count rows) (inside : count < pool.pageCount table)
    (hands : Hands tx ⟨table, count⟩ .shared pool after (.done page)) :
    Holds tx table after (count + 1) (rows ++ page.rows) := by
  have kept : Holds tx table after count rows := by
    refine holds.keep (Nat.le_of_eq ?_) (fun number _ has => hands.keeps _ _ _ has)
      fun number _ page found => ⟨page, hands.reads.cached _ page found, rfl⟩
    rw [pageCount, pageCount, hands.reads.tables]
  have found := hands.cached page rfl
  refine ⟨?_, fun number below => ?_, fun number below => ?_, ?_⟩
  · rw [pageCount, hands.reads.tables]
    exact inside
  · rcases Nat.lt_succ_iff_lt_or_eq.mp below with early | rfl
    · exact kept.has number early
    · exact hands.has page rfl
  · rcases Nat.lt_succ_iff_lt_or_eq.mp below with early | rfl
    · exact kept.cached number early
    · exact ⟨page, found⟩
  · rw [rowsIn, List.range_succ, List.flatMap_append, List.flatMap_singleton, rowsAt_eq found, kept.rows, rowsIn]

/-- A lock that is waited for or refused, and a page that cannot be had, take nothing away. -/
theorem Holds.stop {outcome : Outcome Unit Page} (holds : Holds tx table pool count rows)
    (hands : Hands tx id mode pool after outcome) : Holds tx table after count rows := by
  refine holds.keep (Nat.le_of_eq ?_) (fun number _ has => hands.keeps _ _ _ has)
    fun number _ page found => ⟨page, hands.reads.cached _ page found, rfl⟩
  rw [pageCount, pageCount, hands.reads.tables]

/-! ## Going on with a pass -/

/-- Something is said of a pass that has read the given rows from the first pages of a table. When the next
page is fetched the same is said of the pass with the rows of that page, or else still of the pass. -/
structure ReadsOn (tx : TxId) (table : TableId) (said : Pool → Nat → List Row → Prop) : Prop where
  inside : ∀ {pool count rows}, said pool count rows → count ≤ pool.pageCount table
  next : ∀ {pool after count rows page}, said pool count rows → count < pool.pageCount table →
    pool.fetch tx ⟨table, count⟩ .shared = (after, .done page) → said after (count + 1) (rows ++ page.rows)
  stop : ∀ {pool count rows}, said pool count rows → said (pool.fetch tx ⟨table, count⟩ .shared).1 count rows

/-- Pages are guarded, and the first ones of a table are held. -/
def Held (tx : TxId) (table : TableId) (pool : Pool) (count : Nat) (rows : List Row) : Prop :=
  pool.Guarded ∧ Holds tx table pool count rows

theorem readsOn_held (tx : TxId) (table : TableId) : ReadsOn tx table (Held tx table) := by
  refine ⟨fun holds => holds.2.inside, @fun _ _ count _ _ holds inside fetched => ?_, @fun _ count _ holds => ?_⟩
  · have hands := holds.1.fetch tx ⟨table, count⟩ .shared
    rw [fetched] at hands
    exact ⟨hands.guarded, holds.2.next inside hands⟩
  · have hands := holds.1.fetch tx ⟨table, count⟩ .shared
    exact ⟨hands.guarded, holds.2.stop hands⟩

variable {said : Pool → Nat → List Row → Prop}

/-- A pass that handed out the given rows was asked for more. When there are none it has read all pages
that the table has. -/
structure Asks (said : Pool → Nat → List Row → Prop) (table : TableId) (rows : List Row)
    (result : Pool × ScanPosition × Outcome Unit Bool) : Prop where
  holds : said result.1 result.2.1.nextPage (rows ++ result.2.1.queue)
  more : result.2.2 = .done true → result.2.1.queue ≠ []
  ended : result.2.2 = .done false → said result.1 (result.1.pageCount table) rows
  failure : result.2.2 ≠ .failed .noMoreRows

def handed : Outcome Unit Row → List Row
  | .done row => [row]
  | _ => []

/-- A pass that handed out the given rows was asked for the next one. -/
structure Takes (said : Pool → Nat → List Row → Prop) (table : TableId) (rows : List Row)
    (result : Pool × ScanPosition × Outcome Unit Row) : Prop where
  holds : said result.1 result.2.1.nextPage (rows ++ handed result.2.2 ++ result.2.1.queue)
  ended : result.2.2 = .failed .noMoreRows → said result.1 (result.1.pageCount table) rows

/-- A pass that handed out the given rows was asked for all that are left. -/
structure Empties (said : Pool → Nat → List Row → Prop) (table : TableId) (rows : List Row)
    (result : Pool × ScanPosition × List Row × Outcome Unit Unit) : Prop where
  holds : said result.1 result.2.1.nextPage (rows ++ result.2.2.1 ++ result.2.1.queue)
  ended : result.2.2.2 = .done () → said result.1 (result.1.pageCount table) (rows ++ result.2.2.1)
  failure : result.2.2.2 ≠ .failed .noMoreRows

section Scan

variable (readsOn : ReadsOn tx table said)
include readsOn

theorem ReadsOn.asks_scanAhead (holds : said pool first rows) (all : first + length = pool.pageCount table) :
    Asks said table rows (Pool.scanAhead tx table (List.range' first length) ⟨first, []⟩ pool) := by
  induction length generalizing pool first with
  | zero =>
      rw [List.range'_zero, Pool.scanAhead]
      exact ⟨by simpa using holds, by simp, fun _ => all ▸ holds, by simp⟩
  | succ length ih =>
      have next := fun {after page} => @readsOn.next pool after first rows page holds (by omega)
      have stop := readsOn.stop holds
      have count := (reads_fetch pool tx ⟨table, first⟩ .shared).pageCount table
      have errors := pool.fetch_ne_noMoreRows tx ⟨table, first⟩ .shared
      rw [List.range'_succ, Pool.scanAhead]
      generalize pool.fetch tx ⟨table, first⟩ .shared = result at next stop count errors ⊢
      obtain ⟨middle, outcome⟩ := result
      cases outcome with
      | parked => exact ⟨by simpa using stop, by simp, by simp, by simp⟩
      | failed error => exact ⟨by simpa using stop, by simp, by simp, by simpa using errors⟩
      | done page =>
          have read := next rfl
          simp only
          split
          · next empty =>
            rw [List.isEmpty_iff.mp empty, List.append_nil] at read
            rw [List.isEmpty_iff.mp empty]
            refine ih read ?_
            simp only at count
            omega
          · next some => exact ⟨read, fun _ => by simpa using some, by simp, by simp⟩

variable {position : ScanPosition}

theorem ReadsOn.asks (holds : said pool position.nextPage (rows ++ position.queue)) :
    Asks said table rows (pool.scanHasNext tx table position) := by
  obtain ⟨first, queue⟩ := position
  unfold Pool.scanHasNext
  split
  · next empty =>
    obtain rfl : queue = [] := List.isEmpty_iff.mp empty
    rw [List.append_nil] at holds
    exact readsOn.asks_scanAhead holds (Nat.add_sub_cancel' (readsOn.inside holds))
  · next some => exact ⟨holds, fun _ => by simpa using some, nofun, nofun⟩

theorem ReadsOn.takes (holds : said pool position.nextPage (rows ++ position.queue)) :
    Takes said table rows (pool.scanNext tx table position) := by
  obtain ⟨reads, more, ended, failure⟩ := readsOn.asks holds
  unfold Pool.scanNext
  generalize pool.scanHasNext tx table position = result at reads more ended failure ⊢
  obtain ⟨after, ⟨first, queue⟩, outcome⟩ := result
  cases outcome with
  | parked => exact ⟨by simpa [handed] using reads, nofun⟩
  | failed error => exact ⟨by simpa [handed] using reads, fun same => absurd (by simpa using same) failure⟩
  | done found =>
      cases queue with
      | cons row queue => exact ⟨by simpa [handed] using reads, nofun⟩
      | nil =>
          cases found with
          | true => exact absurd rfl (more rfl)
          | false => exact ⟨by simpa [handed] using reads, fun _ => ended rfl⟩

theorem ReadsOn.empties_scanPages (holds : said pool first rows) (all : first + length = pool.pageCount table) :
    Empties said table rows (Pool.scanPages tx table (List.range' first length) ⟨first, []⟩ pool) := by
  induction length generalizing pool first rows with
  | zero =>
      rw [List.range'_zero, Pool.scanPages]
      exact ⟨by simpa using holds, fun _ => by simpa [← all] using holds, by simp⟩
  | succ length ih =>
      have next := fun {after page} => @readsOn.next pool after first rows page holds (by omega)
      have stop := readsOn.stop holds
      have count := (reads_fetch pool tx ⟨table, first⟩ .shared).pageCount table
      have errors := pool.fetch_ne_noMoreRows tx ⟨table, first⟩ .shared
      rw [List.range'_succ, Pool.scanPages]
      generalize pool.fetch tx ⟨table, first⟩ .shared = result at next stop count errors ⊢
      obtain ⟨middle, outcome⟩ := result
      cases outcome with
      | parked => exact ⟨by simpa using stop, by simp, by simp⟩
      | failed error => exact ⟨by simpa using stop, by simp, by simpa using errors⟩
      | done page =>
          have all : first + 1 + length = middle.pageCount table := by
            simp only at count
            omega
          obtain ⟨later, ended, failure⟩ := ih (next rfl) all
          exact ⟨by simpa using later, fun done => by simpa using ended done, failure⟩

theorem ReadsOn.empties (holds : said pool position.nextPage (rows ++ position.queue)) :
    Empties said table rows (pool.scanAll tx table position) := by
  obtain ⟨later, ended, failure⟩ := readsOn.empties_scanPages holds (Nat.add_sub_cancel' (readsOn.inside holds))
  exact ⟨by simpa [Pool.scanAll, Pool.pagesFrom] using later,
    fun done => by simpa [Pool.scanAll, Pool.pagesFrom] using ended done, failure⟩

end Scan

/-! ## Writes that fail -/

theorem Retains.fetch (pool : Pool) (tx : TxId) (id : PageId) (mode : LockMode) :
    Retains pool (pool.fetch tx id mode).1 := by
  unfold Pool.fetch
  generalize pool.locks.request tx id mode = answer
  obtain ⟨locks, verdict⟩ := answer
  cases verdict with
  | parked | refused => exact Retains.of_cache rfl
  | granted =>
      intro place page found
      obtain same | ⟨rfl, _⟩ := get?_load { pool with locks } id place
      · exact ⟨page, same.trans found, rfl⟩
      · exact ⟨page, by simp [Pool.load, found], rfl⟩

/-- An insert that does not put its row anywhere keeps the rows of all pages. -/
def Refrains (pool : Pool) (result : InsertOutcome) : Prop :=
  (∀ number, result.2 ≠ .done number) → Retains pool result.1

theorem Refrains.prepend {result : InsertOutcome} (early : Retains pool middle)
    (later : Refrains middle result) : Refrains pool result := fun undone => early.trans (later undone)

theorem Refrains.stop {outcome : Outcome InsertStage Nat} (early : Retains pool after) :
    Refrains pool (after, outcome) := fun _ => early

theorem refrains_storeIn (pool : Pool) (page : Page) (row : Row) : Refrains pool (pool.storeIn page row) := by
  unfold Pool.storeIn
  split
  · exact fun undone => absurd rfl (undone _)
  · exact Refrains.stop (Retains.refl pool)

theorem refrains_grow (pool : Pool) (page : Page) (row : Row) : Refrains pool (pool.grow page row) := by
  unfold Pool.grow
  split
  · exact Refrains.stop (Retains.refl pool)
  · next grown appended =>
    refine Refrains.prepend (Retains.of_cache ?_) (refrains_storeIn grown page row)
    obtain ⟨_, _, ⟨_, _, _, rfl⟩ | ⟨_, rfl⟩⟩ := of_appendPage appended <;> rfl

section Insert

variable (pool : Pool) (tx : TxId) (table : TableId) (row : Row) (number : Nat)

theorem refrains_extend : Refrains pool (pool.extend tx table row) := by
  have fetched := Retains.fetch pool tx ⟨table, pool.pageCount table⟩ .exclusive
  unfold Pool.extend
  simp only
  generalize pool.fetch tx ⟨table, pool.pageCount table⟩ .exclusive = result at fetched ⊢
  obtain ⟨middle, outcome⟩ := result
  cases outcome with
  | parked | failed => exact Refrains.stop fetched
  | done page => exact Refrains.prepend fetched (refrains_grow middle page row)

theorem refrains_extendAt : Refrains pool (pool.extendAt tx table row number) := by
  have fetched := Retains.fetch pool tx ⟨table, number⟩ .exclusive
  unfold Pool.extendAt
  generalize pool.fetch tx ⟨table, number⟩ .exclusive = result at fetched ⊢
  obtain ⟨middle, outcome⟩ := result
  cases outcome with
  | parked | failed => exact Refrains.stop fetched
  | done page =>
      simp only
      split
      · exact Refrains.prepend fetched (refrains_extend middle tx table row)
      · exact Refrains.prepend fetched (refrains_grow middle page row)

variable {rest : List Nat} {next : Pool → InsertOutcome} (proceeds : ∀ middle, Refrains middle (next middle))
include proceeds

theorem refrains_claim : Refrains pool (pool.claim tx table row number rest next) := by
  have fetched := Retains.fetch pool tx ⟨table, number⟩ .exclusive
  unfold Pool.claim
  generalize pool.fetch tx ⟨table, number⟩ .exclusive = result at fetched ⊢
  obtain ⟨middle, outcome⟩ := result
  cases outcome with
  | parked | failed => exact Refrains.stop fetched
  | done page =>
      simp only
      split
      · exact Refrains.prepend fetched (proceeds middle)
      · exact Refrains.prepend fetched (refrains_storeIn middle page row)

theorem refrains_inspect (heldBefore : Bool) :
    Refrains pool (pool.inspect tx table row number heldBefore rest next) := by
  have fetched := Retains.fetch pool tx ⟨table, number⟩ .shared
  unfold Pool.inspect
  generalize pool.fetch tx ⟨table, number⟩ .shared = result at fetched ⊢
  obtain ⟨middle, outcome⟩ := result
  cases outcome with
  | parked | failed => exact Refrains.stop fetched
  | done page =>
      simp only
      split
      · cases heldBefore with
        | true => exact Refrains.prepend fetched (proceeds middle)
        | false => exact Refrains.prepend fetched (Refrains.prepend (Retains.of_cache rfl) (proceeds _))
      · exact Refrains.prepend fetched (refrains_claim middle tx table row number proceeds)

end Insert

theorem refrains_inspectEach (tx : TxId) (table : TableId) (row : Row) (numbers : List Nat) (pool : Pool) :
    Refrains pool (inspectEach tx table row numbers pool) := by
  induction numbers generalizing pool with
  | nil => exact refrains_extend pool tx table row
  | cons number rest ih => exact refrains_inspect pool tx table row number ih _

theorem refrains_insert (pool : Pool) (tx : TxId) (table : TableId) (row : Row) (stage : InsertStage) :
    Refrains pool (pool.insert tx table row stage) := by
  have placed : Refrains pool (pool.place tx table row stage) := by
    cases stage with
    | start =>
        simp only [Pool.place]
        split
        · exact Refrains.stop (Retains.refl pool)
        · split
          · exact refrains_inspectEach tx table row _ pool
          · exact Refrains.stop (Retains.refl pool)
    | inspecting number heldBefore rest =>
        exact refrains_inspect pool tx table row number (refrains_inspectEach tx table row rest) heldBefore
    | claiming number rest =>
        exact refrains_claim pool tx table row number (refrains_inspectEach tx table row rest)
    | appending number => exact refrains_extendAt pool tx table row number
  unfold Pool.insert
  generalize pool.place tx table row stage = result at placed ⊢
  obtain ⟨after, outcome⟩ := result
  cases outcome with
  | done number => exact fun undone => absurd rfl (undone number)
  | failed | parked => exact placed

/-- A delete that fails keeps the rows of all pages: at most a header bit that belongs to no slot is
unset. -/
theorem Guarded.retains_remove (guarded : pool.Guarded) (tx : TxId) (file : TableFile) (record : RecordId)
    (undone : ∀ number, (pool.remove tx file (some record)).2 ≠ .done number) :
    Retains pool (pool.remove tx file (some record)).1 := by
  have fetched := Retains.fetch pool tx record.page .exclusive
  have hands := guarded.fetch tx record.page .exclusive
  revert undone
  simp only [Pool.remove]
  split
  · split
    · generalize pool.fetch tx record.page .exclusive = result at fetched hands ⊢
      obtain ⟨middle, outcome⟩ := result
      cases outcome with
      | parked | failed => exact fun _ => fetched
      | done page =>
          simp only
          generalize deleted : page.delete (some record) = answer
          obtain ⟨changed, outcome⟩ := answer
          cases outcome with
          | ok => exact fun undone => absurd rfl (undone _)
          | error =>
              obtain ⟨padding, _, rfl⟩ := Page.of_delete_error deleted
              have here := hands.cached page rfl
              refine fun _ => fetched.trans fun id other found => ?_
              simp only [get?_putPage, hands.guarded.named _ page here]
              split
              · next same =>
                rw [same, here] at found
                cases found
                exact ⟨_, rfl, Page.rows_congr (hands.guarded.named _ _ here).symm rfl⟩
              · exact ⟨other, found, rfl⟩
    · exact fun _ => Retains.refl pool
  · exact fun _ => Retains.refl pool

theorem Guarded.retains_delete (guarded : pool.Guarded) (tx : TxId) (location : Option RecordId)
    (undone : ∀ number, (pool.delete tx location).2 ≠ .done number) :
    Retains pool (pool.delete tx location).1 := by
  cases location with
  | none => exact Retains.refl pool
  | some record =>
      revert undone
      simp only [Pool.delete]
      cases pool.table? record.page.table with
      | error => exact fun _ => Retains.refl pool
      | ok file =>
          have removed := guarded.retains_remove tx file record
          simp only
          generalize pool.remove tx file (some record) = result at removed ⊢
          obtain ⟨after, outcome⟩ := result
          cases outcome with
          | done number => exact fun undone => absurd rfl (undone number)
          | failed | parked => exact fun _ => removed (by simp)

end Pool

end RowStore
