import Mathlib.Logic.Relation
import RowStore.Pool.Delete
import RowStore.Pool.Insert
import RowStore.Pool.Scan
import RowStore.Proofs.Pool.Guarded

namespace RowStore

/-! The steps that calls on a table consist of.

Whatever a transaction does to a table, it locks a page or gives it up, reads a page
into memory, makes the file longer, or changes a page in memory. A page that is marked
as changed is one that the file has. What each step keeps, every call keeps.
-/

/-- The pages that a parked insert goes on with are in the file, or just past its end. -/
def InsertStage.Within (table : TableId) (pool : Pool) : InsertStage → Prop
  | .start => True
  | .inspecting number _ rest | .claiming number rest =>
      ∀ page ∈ number :: rest, page < pool.pageCount table
  | .appending number => number ≤ pool.pageCount table

namespace Pool

/-- One step of a transaction on a table. -/
inductive Step (tx : TxId) (table : TableId) : Pool → Pool → Prop
  | request (pool : Pool) (number : Nat) (mode : LockMode) :
      Step tx table pool { pool with locks := (pool.locks.request tx ⟨table, number⟩ mode).1 }
  | release (pool : Pool) (number : Nat) : Step tx table pool (pool.release tx ⟨table, number⟩)
  | load (pool : Pool) (number : Nat) : Step tx table pool (pool.load ⟨table, number⟩).1
  | append {pool after : Pool} {number : Nat} (appended : pool.appendPage ⟨table, number⟩ = .ok after) :
      Step tx table pool after
  | store {pool : Pool} {number : Nat} {page changed : Page} {row : Row} {record : RecordId}
      (found : pool.cache.get? ⟨table, number⟩ = some page) (kept : row.Kept)
      (inserted : page.insert row = .ok (changed, record)) : Step tx table pool (pool.putPage changed)
  | free {pool : Pool} {number : Nat} {page changed : Page} {location : Option RecordId}
      {outcome : Except StoreError Unit} (found : pool.cache.get? ⟨table, number⟩ = some page)
      (deleted : page.delete location = (changed, outcome)) : Step tx table pool (pool.putPage changed)
  | mark {pool : Pool} {number : Nat} (inside : number < pool.pageCount table) :
      Step tx table pool (pool.markDirty tx ⟨table, number⟩)

abbrev Steps (tx : TxId) (table : TableId) : Pool → Pool → Prop :=
  Relation.ReflTransGen (Step tx table)

variable {pool middle after : Pool} {tx : TxId} {table : TableId} {number : Nat} {page : Page}
variable {row : Row} {rest : List Nat} {mode : LockMode}

/-! ## What each step keeps -/

theorem Named.putPage (named : pool.Named) (page : Page) : (pool.putPage page).Named := by
  intro id other found
  rw [get?_putPage] at found
  split at found
  · next here =>
    cases found
    exact here.symm
  · exact named id other found

theorem Named.markDirty (named : pool.Named) (tx : TxId) (id : PageId) : (pool.markDirty tx id).Named := by
  unfold Pool.markDirty
  split
  · exact named.putPage _
  · exact named

theorem Named.load (named : pool.Named) (id : PageId) : (pool.load id).1.Named := by
  obtain ⟨_, _, same⟩ | ⟨_, same⟩ | ⟨page, _, _, _, same⟩ := pool.load_cases id <;> rw [same]
  · exact named
  · exact named
  · exact named.putPage page

theorem cache_appendPage {id : PageId} (appended : pool.appendPage id = .ok after) :
    after.cache = pool.cache := by
  obtain ⟨_, _, ⟨_, _, _, rfl⟩ | ⟨_, rfl⟩⟩ := of_appendPage appended <;> rfl

theorem Step.named (step : Step tx table pool after) (named : pool.Named) : after.Named := by
  cases step with
  | request | release => exact named
  | load number => exact named.load _
  | append appended =>
      intro id page found
      exact named id page (cache_appendPage appended ▸ found)
  | store | free => exact named.putPage _
  | mark => exact named.markDirty tx _

theorem tables_load (pool : Pool) (id : PageId) : (pool.load id).1.tables = pool.tables := by
  obtain ⟨_, _, same⟩ | ⟨_, same⟩ | ⟨_, _, _, _, same⟩ := pool.load_cases id <;> rw [same]
  rfl

theorem tables_markDirty (pool : Pool) (tx : TxId) (id : PageId) :
    (pool.markDirty tx id).tables = pool.tables := by
  unfold Pool.markDirty
  split <;> rfl

theorem disk_load (pool : Pool) (id : PageId) : (pool.load id).1.disk = pool.disk := by
  obtain ⟨_, _, same⟩ | ⟨_, same⟩ | ⟨_, _, _, _, same⟩ := pool.load_cases id <;> rw [same]
  rfl

theorem disk_markDirty (pool : Pool) (tx : TxId) (id : PageId) :
    (pool.markDirty tx id).disk = pool.disk := by
  unfold Pool.markDirty
  split <;> rfl

theorem Step.grows (step : Step tx table pool after) : Grows pool after := by
  cases step with
  | request | release | store | free => exact Grows.of_same rfl rfl
  | load => exact Grows.of_same (tables_load _ _) (by rw [disk_load])
  | append appended => exact grows_appendPage appended
  | mark => exact Grows.of_same (tables_markDirty _ _ _) (by rw [disk_markDirty])

theorem Steps.named (steps : Steps tx table pool after) (named : pool.Named) : after.Named := by
  induction steps with
  | refl => exact named
  | tail _ step ih => exact step.named ih

theorem Steps.grows (steps : Steps tx table pool after) : Grows pool after := by
  induction steps with
  | refl => exact Grows.of_same rfl rfl
  | tail _ step ih => exact ih.trans step.grows

theorem Steps.pageCount_le (steps : Steps tx table pool after) (other : TableId) :
    pool.pageCount other ≤ after.pageCount other := steps.grows.pageCount_le other

/-! ## Fetching a page -/

/-- A fetch consists of steps, and a page that it hands out is in memory. -/
structure Fetches (tx : TxId) (table : TableId) (number : Nat) (pool after : Pool)
    (outcome : Outcome Unit Page) : Prop where
  steps : Steps tx table pool after
  tables : after.tables = pool.tables
  cached : ∀ page, outcome = .done page → after.cache.get? ⟨table, number⟩ = some page

theorem fetches (pool : Pool) (tx : TxId) (table : TableId) (number : Nat) (mode : LockMode) :
    Fetches tx table number pool (pool.fetch tx ⟨table, number⟩ mode).1
      (pool.fetch tx ⟨table, number⟩ mode).2 := by
  have request : Step tx table pool _ := .request pool number mode
  unfold Pool.fetch
  generalize pool.locks.request tx ⟨table, number⟩ mode = answer at request ⊢
  obtain ⟨locks, verdict⟩ := answer
  cases verdict with
  | parked | refused => exact ⟨.single request, rfl, by simp⟩
  | granted =>
      refine ⟨(Relation.ReflTransGen.single request).tail (.load _ number), tables_load _ _, fun page done => ?_⟩
      simp only at done ⊢
      obtain ⟨cached, found, same⟩ | ⟨error, same⟩ | ⟨read, _, restorable, _, same⟩ :=
        load_cases { pool with locks } ⟨table, number⟩
      · rw [same] at done ⊢
        cases done
        exact found
      · simp [same] at done
      · rw [same] at done ⊢
        cases done
        rw [get?_putPage, if_pos restorable.named.symm]

theorem Fetches.pageCount {outcome : Outcome Unit Page}
    (fetches : Fetches tx table number pool after outcome) (other : TableId) :
    after.pageCount other = pool.pageCount other := by
  rw [Pool.pageCount, Pool.pageCount, fetches.tables]

/-- Pages of a table were fetched, one after the other. -/
abbrev Fetching (tx : TxId) (table : TableId) : Pool → Pool → Prop :=
  Relation.ReflTransGen fun pool after => ∃ number mode, (pool.fetch tx ⟨table, number⟩ mode).1 = after

theorem fetching_fetch (pool : Pool) (tx : TxId) (table : TableId) (number : Nat) (mode : LockMode) :
    Fetching tx table pool (pool.fetch tx ⟨table, number⟩ mode).1 := .single ⟨number, mode, rfl⟩

theorem Fetching.steps (fetching : Fetching tx table pool after) : Steps tx table pool after := by
  induction fetching with
  | refl => exact .refl
  | tail _ fetch ih =>
      obtain ⟨number, mode, rfl⟩ := fetch
      exact ih.trans (fetches _ tx table number mode).steps

/-! ## Inserts -/

/-- An insert consists of steps, has put its row into a page of the file when it is done, and can go
on in the file when it parks. -/
structure Inserts (tx : TxId) (table : TableId) (pool : Pool) (result : InsertOutcome) : Prop where
  steps : Steps tx table pool result.1
  placed : ∀ number, result.2 = .done number → number < result.1.pageCount table
  within : ∀ stage, result.2 = .parked stage → stage.Within table result.1

theorem Inserts.prepend {result : InsertOutcome} (steps : Steps tx table pool middle)
    (inserts : Inserts tx table middle result) : Inserts tx table pool result :=
  ⟨steps.trans inserts.steps, inserts.placed, inserts.within⟩

theorem Inserts.failed (steps : Steps tx table pool after) (error : StoreError) :
    Inserts tx table pool (after, .failed error) := ⟨steps, nofun, nofun⟩

theorem Inserts.parked {stage : InsertStage} (steps : Steps tx table pool after)
    (within : stage.Within table after) : Inserts tx table pool (after, .parked stage) :=
  ⟨steps, nofun, fun _ same => by cases same; exact within⟩

section Insert

variable (named : pool.Named) (kept : row.Kept)
include named kept

theorem Named.storeIn (found : pool.cache.get? ⟨table, number⟩ = some page)
    (inside : number < pool.pageCount table) : Inserts tx table pool (pool.storeIn page row) := by
  unfold Pool.storeIn
  split
  · next changed record inserted =>
    obtain ⟨_, _, _, _, same⟩ := Page.of_insert inserted
    have here : changed.id = ⟨table, number⟩ := by
      rw [same]
      exact named _ page found
    refine ⟨.single (.store found kept inserted), fun other done => ?_, nofun⟩
    cases done
    rw [here]
    exact inside
  · exact Inserts.failed .refl _

theorem Named.grow (found : pool.cache.get? ⟨table, number⟩ = some page)
    (bound : number ≤ pool.pageCount table) : Inserts tx table pool (pool.grow page row) := by
  unfold Pool.grow
  rw [named _ page found]
  split
  · exact Inserts.failed .refl _
  · next grown appended =>
    have step : Step tx table pool grown := .append appended
    exact Inserts.prepend (.single step) ((step.named named).storeIn kept
      (cache_appendPage appended ▸ found) (lt_pageCount_of_appendPage appended bound))

theorem Named.extend (tx : TxId) (table : TableId) :
    Inserts tx table pool (pool.extend tx table row) := by
  have fetched := fetches pool tx table (pool.pageCount table) .exclusive
  unfold Pool.extend
  simp only
  generalize pool.fetch tx ⟨table, pool.pageCount table⟩ .exclusive = result at fetched ⊢
  obtain ⟨middle, outcome⟩ := result
  have bound : pool.pageCount table ≤ middle.pageCount table := Nat.le_of_eq (fetched.pageCount table).symm
  cases outcome with
  | parked => exact Inserts.parked fetched.steps bound
  | failed => exact Inserts.failed fetched.steps _
  | done page =>
      exact Inserts.prepend fetched.steps
        ((fetched.steps.named named).grow kept (fetched.cached page rfl) bound)

theorem Named.extendAt (bound : number ≤ pool.pageCount table) :
    Inserts tx table pool (pool.extendAt tx table row number) := by
  have fetched := fetches pool tx table number .exclusive
  unfold Pool.extendAt
  generalize pool.fetch tx ⟨table, number⟩ .exclusive = result at fetched ⊢
  obtain ⟨middle, outcome⟩ := result
  have bound : number ≤ middle.pageCount table := fetched.pageCount table ▸ bound
  cases outcome with
  | parked => exact Inserts.parked fetched.steps bound
  | failed => exact Inserts.failed fetched.steps _
  | done page =>
      have later := fetched.steps.named named
      refine Inserts.prepend fetched.steps ?_
      simp only
      split
      · exact later.extend kept tx table
      · exact later.grow kept (fetched.cached page rfl) bound

theorem Named.claim (inside : ∀ page ∈ number :: rest, page < pool.pageCount table)
    {next : Pool → InsertOutcome}
    (proceeds : ∀ middle, Steps tx table pool middle → Inserts tx table middle (next middle)) :
    Inserts tx table pool (pool.claim tx table row number rest next) := by
  have fetched := fetches pool tx table number .exclusive
  unfold Pool.claim
  generalize pool.fetch tx ⟨table, number⟩ .exclusive = result at fetched ⊢
  obtain ⟨middle, outcome⟩ := result
  have inside : ∀ page ∈ number :: rest, page < middle.pageCount table :=
    fetched.pageCount table ▸ inside
  cases outcome with
  | parked => exact Inserts.parked fetched.steps inside
  | failed => exact Inserts.failed fetched.steps _
  | done page =>
      refine Inserts.prepend fetched.steps ?_
      simp only
      split
      · exact proceeds middle fetched.steps
      · exact (fetched.steps.named named).storeIn kept (fetched.cached page rfl)
          (inside number List.mem_cons_self)

theorem Named.inspect (inside : ∀ page ∈ number :: rest, page < pool.pageCount table)
    (heldBefore : Bool) {next : Pool → InsertOutcome}
    (proceeds : ∀ middle, Steps tx table pool middle → Inserts tx table middle (next middle)) :
    Inserts tx table pool (pool.inspect tx table row number heldBefore rest next) := by
  have fetched := fetches pool tx table number .shared
  unfold Pool.inspect
  generalize pool.fetch tx ⟨table, number⟩ .shared = result at fetched ⊢
  obtain ⟨middle, outcome⟩ := result
  have inside : ∀ page ∈ number :: rest, page < middle.pageCount table :=
    fetched.pageCount table ▸ inside
  cases outcome with
  | parked => exact Inserts.parked fetched.steps inside
  | failed => exact Inserts.failed fetched.steps _
  | done page =>
      simp only
      split
      · cases heldBefore with
        | true => exact Inserts.prepend fetched.steps (proceeds middle fetched.steps)
        | false =>
            have released := fetched.steps.tail (.release middle number)
            exact Inserts.prepend released (proceeds _ released)
      · exact Inserts.prepend fetched.steps ((fetched.steps.named named).claim kept inside
          fun later more => proceeds later (fetched.steps.trans more))

theorem Named.inspectEach {numbers : List Nat}
    (inside : ∀ page ∈ numbers, page < pool.pageCount table) :
    Inserts tx table pool (inspectEach tx table row numbers pool) := by
  induction numbers generalizing pool with
  | nil => exact named.extend kept tx table
  | cons number rest ih =>
      refine named.inspect kept inside _ fun middle steps => ih (steps.named named) fun page listed => ?_
      exact Nat.lt_of_lt_of_le (inside page (List.mem_cons_of_mem _ listed)) (steps.pageCount_le table)

theorem Named.place {stage : InsertStage} (within : stage.Within table pool) :
    Inserts tx table pool (pool.place tx table row stage) := by
  have proceeds : ∀ {number rest}, (∀ page ∈ number :: rest, page < pool.pageCount table) →
      ∀ middle, Steps tx table pool middle →
        Inserts tx table middle (Pool.inspectEach tx table row rest middle) := by
    intro number rest inside middle steps
    refine (steps.named named).inspectEach kept fun page listed => ?_
    exact Nat.lt_of_lt_of_le (inside page (List.mem_cons_of_mem _ listed)) (steps.pageCount_le table)
  cases stage with
  | start =>
      simp only [Pool.place]
      split
      · exact Inserts.failed .refl _
      · next file known =>
        split
        · refine named.inspectEach kept fun page listed => ?_
          rw [pageCount_eq (table?_eq_ok.mp known)]
          exact List.mem_range.mp listed
        · exact Inserts.failed .refl _
  | inspecting number heldBefore rest => exact named.inspect kept within heldBefore (proceeds within)
  | claiming number rest => exact named.claim kept within (proceeds within)
  | appending number => exact named.extendAt kept within

theorem Named.insert {stage : InsertStage} (within : stage.Within table pool) :
    Inserts tx table pool (pool.insert tx table row stage) := by
  have placed : Inserts tx table pool (pool.place tx table row stage) := named.place kept within
  unfold Pool.insert
  generalize pool.place tx table row stage = result at placed ⊢
  obtain ⟨after, outcome⟩ := result
  cases outcome with
  | done number =>
      have inside := placed.placed number rfl
      refine ⟨placed.steps.tail (.mark inside), fun other done => ?_, nofun⟩
      cases done
      rw [Pool.pageCount, tables_markDirty]
      exact inside
  | failed | parked => exact placed

end Insert

/-! ## Deletes and scans -/

theorem steps_remove (pool : Pool) (tx : TxId) (file : TableFile) (record : RecordId) :
    Steps tx record.page.table pool (pool.remove tx file (some record)).1 ∧
      ∀ number, (pool.remove tx file (some record)).2 = .done number →
        record.page.number < file.pageCount ∧
          (pool.remove tx file (some record)).1.tables = pool.tables := by
  simp only [Pool.remove]
  split
  · split
    · next inside =>
      have fetched := fetches pool tx record.page.table record.page.number .exclusive
      change Fetches tx record.page.table record.page.number pool (pool.fetch tx record.page .exclusive).1
        (pool.fetch tx record.page .exclusive).2 at fetched
      generalize pool.fetch tx record.page .exclusive = result at fetched ⊢
      obtain ⟨middle, outcome⟩ := result
      cases outcome with
      | parked | failed => exact ⟨fetched.steps, nofun⟩
      | done page =>
          simp only
          generalize deleted : page.delete (some record) = answer
          obtain ⟨changed, outcome⟩ := answer
          have steps := fetched.steps.tail (.free (fetched.cached page rfl) deleted)
          cases outcome with
          | ok => exact ⟨steps, fun _ _ => ⟨inside, fetched.tables⟩⟩
          | error => exact ⟨steps, nofun⟩
    · exact ⟨.refl, nofun⟩
  · exact ⟨.refl, nofun⟩

theorem steps_delete (pool : Pool) (tx : TxId) (record : RecordId) :
    Steps tx record.page.table pool (pool.delete tx (some record)).1 := by
  simp only [Pool.delete]
  split
  · exact .refl
  · next file known =>
    obtain ⟨steps, done⟩ := steps_remove pool tx file record
    generalize pool.remove tx file (some record) = result at steps done ⊢
    obtain ⟨after, outcome⟩ := result
    cases outcome with
    | parked | failed => exact steps
    | done number =>
        obtain ⟨inside, tables⟩ := done number rfl
        refine steps.tail (.mark ?_)
        rw [Pool.pageCount, tables, ← Pool.pageCount, pageCount_eq (table?_eq_ok.mp known)]
        exact inside

section Scan

variable (pool : Pool) (tx : TxId) (table : TableId) (position : ScanPosition)

theorem fetching_scanAhead (numbers : List Nat) :
    Fetching tx table pool (scanAhead tx table numbers position pool).1 := by
  induction numbers generalizing pool position with
  | nil => exact .refl
  | cons number rest ih =>
      have fetching := fetching_fetch pool tx table number .shared
      rw [scanAhead]
      generalize pool.fetch tx ⟨table, number⟩ .shared = result at fetching ⊢
      obtain ⟨middle, outcome⟩ := result
      cases outcome with
      | parked | failed => exact fetching
      | done page =>
          simp only
          split
          · exact fetching.trans (ih middle _)
          · exact fetching

theorem fetching_scanHasNext : Fetching tx table pool (pool.scanHasNext tx table position).1 := by
  unfold scanHasNext
  split
  · exact fetching_scanAhead pool tx table position _
  · exact .refl

theorem fetching_scanNext : Fetching tx table pool (pool.scanNext tx table position).1 := by
  have fetching := fetching_scanHasNext pool tx table position
  unfold scanNext
  generalize pool.scanHasNext tx table position = result at fetching ⊢
  obtain ⟨after, reached, outcome⟩ := result
  cases outcome with
  | parked | failed => exact fetching
  | done =>
      simp only
      split <;> exact fetching

theorem fetching_scanPages (numbers : List Nat) :
    Fetching tx table pool (scanPages tx table numbers position pool).1 := by
  induction numbers generalizing pool position with
  | nil => exact .refl
  | cons number rest ih =>
      have fetching := fetching_fetch pool tx table number .shared
      rw [scanPages]
      generalize pool.fetch tx ⟨table, number⟩ .shared = result at fetching ⊢
      obtain ⟨middle, outcome⟩ := result
      cases outcome with
      | parked | failed => exact fetching
      | done page => exact fetching.trans (ih middle _)

theorem fetching_scanAll : Fetching tx table pool (pool.scanAll tx table position).1 :=
  fetching_scanPages pool tx table _ _

end Scan

end Pool
end RowStore
