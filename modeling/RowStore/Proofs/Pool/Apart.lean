import RowStore.Proofs.Pool.Steps

namespace RowStore.Pool

/-! Steps on one table leave the pages of another one alone. -/

variable {pool after : Pool} {tx : TxId} {table other : TableId} {id place : PageId} {page : Page}

theorem get?_putPage_of_ne (named : page.id = place) (differs : id ≠ place) :
    (pool.putPage page).cache.get? id = pool.cache.get? id := by
  rw [get?_putPage, named, if_neg differs]

theorem get?_markDirty_of_ne (named : pool.Named) (differs : id ≠ place) :
    (pool.markDirty tx place).cache.get? id = pool.cache.get? id := by
  unfold Pool.markDirty
  split
  · next page found => exact get?_putPage_of_ne (named place page found) differs
  · rfl

/-- Pages of another table stay in memory as they are, and none is read. -/
theorem Step.get?_of_ne (step : Step tx other pool after) (named : pool.Named) (apart : id.table ≠ other) :
    after.cache.get? id = pool.cache.get? id := by
  have differs : ∀ number, id ≠ ⟨other, number⟩ := fun number same => apart (congrArg PageId.table same)
  cases step with
  | request | release => rfl
  | load number => exact (get?_load pool ⟨other, number⟩ id).resolve_right fun here => differs number here.1
  | append appended => rw [cache_appendPage appended]
  | @store number page changed row record found kept inserted =>
      obtain ⟨_, _, _, _, rfl⟩ := Page.of_insert inserted
      exact get?_putPage_of_ne (named _ page found) (differs number)
  | @free number page changed location outcome found deleted =>
      refine get?_putPage_of_ne (?_ : changed.id = ⟨other, number⟩) (differs number)
      cases outcome with
      | ok =>
          obtain ⟨_, _, _, _, _, rfl⟩ := Page.of_delete deleted
          exact named _ page found
      | error =>
          obtain ⟨_, _, rfl⟩ := Page.of_delete_error deleted
          exact named _ page found
  | mark => exact get?_markDirty_of_ne named (differs _)

theorem Steps.get?_of_ne (steps : Steps tx other pool after) (named : pool.Named) (apart : id.table ≠ other) :
    after.cache.get? id = pool.cache.get? id := by
  induction steps with
  | refl => rfl
  | tail before step ih => exact (step.get?_of_ne (Steps.named before named) apart).trans ih

/-! ## Flushing and restoring -/

theorem stays_flushPage (flushed : pool.flushPage page = .ok after) : Stays pool after := by
  unfold Pool.flushPage at flushed
  split at flushed
  · contradiction
  · split at flushed
    · contradiction
    · next disk written =>
      cases flushed
      unfold TableFile.writePage at written
      split at written
      · split at written
        · obtain ⟨nodes, _, fails, _⟩ := Disk.of_write written
          exact ⟨rfl, rfl, nodes, fails⟩
        · cases written
          exact ⟨rfl, rfl, rfl, rfl⟩
      · contradiction

/-- However far it comes, writing pages to their files changes no table and no lock. -/
theorem stays_flushEach (pool : Pool) (pages : List Page) : Stays pool (pool.flushEach pages).1 := by
  induction pages generalizing pool with
  | nil => exact Stays.refl pool
  | cons page pages ih =>
      unfold Pool.flushEach
      split
      · exact Stays.refl pool
      · next middle flushed => exact (stays_flushPage flushed).trans (ih middle)

theorem stays_restoreEach (pool : Pool) (pages : List Page) : Stays pool (pool.restoreEach pages).1 := by
  induction pages generalizing pool with
  | nil => exact Stays.refl pool
  | cons page pages ih =>
      unfold Pool.restoreEach
      split
      · exact Stays.refl pool
      · next clean _ =>
        have put : Stays pool (pool.putPage clean) := ⟨rfl, rfl, rfl, rfl⟩
        exact put.trans (ih (pool.putPage clean))

/-- A transaction that completes changes no table, and no lock before it gives up its own. -/
theorem stays_complete (pool : Pool) (tx : TxId) (commit : Bool) :
    ∃ middle, Stays pool middle ∧
      (if commit then (pool.commit tx).1 else (pool.abort tx).1) = middle.releaseAll tx := by
  cases commit with
  | false => exact ⟨_, stays_restoreEach pool _, rfl⟩
  | true =>
      have flushed : Stays pool (pool.flush tx).1 := stays_flushEach pool _
      simp only [if_true]
      unfold Pool.commit
      generalize pool.flush tx = result at flushed ⊢
      obtain ⟨middle, outcome⟩ := result
      cases outcome with
      | ok => exact ⟨middle, flushed, rfl⟩
      | error => exact ⟨_, flushed.trans (stays_restoreEach middle _), rfl⟩

end RowStore.Pool
