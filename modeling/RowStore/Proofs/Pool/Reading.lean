import RowStore.Pool.Delete
import RowStore.Pool.Scan
import RowStore.Proofs.Pool.Change
import RowStore.Proofs.Pool.WithinFiles

namespace RowStore.Pool

/-! What calls do that only look at pages.

Whatever is fetched and scanned, and wherever that stops, files stay as they are and
every page is had as before: pages were read into memory, and nothing else happened to
files and pages. A delete does no more than that before it changes its page.
-/

variable {pool middle after : Pool} {tx : TxId} {table : TableId}

/-- A page that is in memory is had from there. -/
theorem loaded_of_cached {id : PageId} {page : Page} (found : pool.cache.get? id = some page) :
    (pool.load id).2 = .done page := by
  rw [load_of_cached found]

theorem Reads.load (reads : Reads pool after) (id : PageId) : (after.load id).2 = (pool.load id).2 := by
  cases found : after.cache.get? id with
  | some page => rw [load_of_cached found, reads.loaded id page found]
  | none =>
      have missing : pool.cache.get? id = none := by
        cases known : pool.cache.get? id with
        | none => rfl
        | some page => simp [reads.cached id page known] at found
      exact load_congr reads.disk reads.tables (found.trans missing.symm)

theorem Reads.pageCount (reads : Reads pool after) (table : TableId) :
    after.pageCount table = pool.pageCount table := by
  rw [Pool.pageCount, Pool.pageCount, reads.tables]

theorem reads_load (pool : Pool) (id : PageId) : Reads pool (pool.load id).1 := by
  obtain ⟨_, _, same⟩ | ⟨_, same⟩ | ⟨page, missing, restorable, _, same⟩ := pool.load_cases id
  · exact same ▸ Reads.refl pool
  · exact same ▸ Reads.refl pool
  · refine same ▸ ⟨rfl, rfl, fun place before known => ?_, fun place before known => ?_⟩
    · rw [get?_putPage, if_neg fun here => ?_]
      · exact known
      · rw [here, restorable.named, missing] at known
        contradiction
    · rw [get?_putPage] at known
      split at known
      · next here =>
        cases known
        rw [here, restorable.named, same]
      · exact loaded_of_cached known

theorem reads_fetch (pool : Pool) (tx : TxId) (id : PageId) (mode : LockMode) :
    Reads pool (pool.fetch tx id mode).1 := by
  have reads := Reads.of_locks pool (pool.locks.request tx id mode).1
  unfold Pool.fetch
  generalize pool.locks.request tx id mode = answer at reads
  obtain ⟨locks, verdict⟩ := answer
  cases verdict with
  | parked | refused => exact reads
  | granted => exact reads.trans (reads_load _ id)

/-- Nobody loses a lock by what somebody fetches. -/
theorem has_fetch {other : TxId} {id place : PageId} {mode wish : LockMode} (has : pool.locks.Has other id wish) :
    (pool.fetch tx place mode).1.locks.Has other id wish := by
  have more := has.request tx place mode
  unfold Pool.fetch
  generalize pool.locks.request tx place mode = answer at more
  obtain ⟨locks, verdict⟩ := answer
  cases verdict with
  | parked | refused => exact more
  | granted =>
      rw [load_locks]
      exact more

theorem Fetching.reads (fetching : Fetching tx table pool after) : Reads pool after := by
  induction fetching with
  | refl => exact .refl pool
  | tail _ fetch ih =>
      obtain ⟨number, mode, rfl⟩ := fetch
      exact ih.trans (reads_fetch _ tx ⟨table, number⟩ mode)

theorem Fetching.has {other : TxId} {id : PageId} {wish : LockMode} (fetching : Fetching tx table pool after)
    (has : pool.locks.Has other id wish) : after.locks.Has other id wish := by
  induction fetching with
  | refl => exact has
  | tail _ fetch ih =>
      obtain ⟨number, mode, rfl⟩ := fetch
      exact has_fetch ih

/-! ## Deletes -/

/-- A delete reads its page, and then changes it if the page is in the file. -/
theorem Named.delete_cases (named : pool.Named) (tx : TxId) (location : Option RecordId) :
    ∃ middle, Reads pool middle ∧ ((pool.delete tx location).1 = middle ∨
      ∃ record changed, location = some record ∧ record.page.number < pool.pageCount record.page.table ∧
        changed.id = record.page ∧ (pool.delete tx location).1 = middle.putPage changed) := by
  have stay : ∃ middle, Reads pool middle ∧ (pool = middle ∨ ∃ record changed, location = some record ∧
      record.page.number < pool.pageCount record.page.table ∧ changed.id = record.page ∧
        pool = middle.putPage changed) := ⟨pool, .refl pool, .inl rfl⟩
  unfold Pool.delete Pool.remove
  split
  · exact stay
  · next record =>
    split
    · exact stay
    · next file known =>
      have count := pageCount_eq (table?_eq_ok.mp known)
      by_cases own : record.page.table = file.id
      · by_cases inside : record.page.number < file.pageCount
        · simp only [if_pos own, if_pos inside]
          have fetched := fetches pool tx record.page.table record.page.number .exclusive
          have reads := reads_fetch pool tx record.page .exclusive
          change Fetches tx record.page.table record.page.number pool (pool.fetch tx record.page .exclusive).1
            (pool.fetch tx record.page .exclusive).2 at fetched
          generalize pool.fetch tx record.page .exclusive = result at fetched reads ⊢
          obtain ⟨middle, outcome⟩ := result
          cases outcome with
          | parked | failed => exact ⟨middle, reads, .inl rfl⟩
          | done page =>
              simp only
              generalize deleted : page.delete (some record) = answer
              obtain ⟨changed, outcome⟩ := answer
              have here : page.id = record.page := fetched.steps.named named _ page (fetched.cached page rfl)
              cases outcome with
              | ok =>
                  obtain ⟨other, _, _, _, _, rfl⟩ := Page.of_delete deleted
                  refine ⟨middle, reads, .inr ⟨record, (page.setSlot other.slot none).markDirty (some tx), rfl,
                    count ▸ inside, here, ?_⟩⟩
                  exact markDirty_putPage middle here
              | error =>
                  obtain ⟨padding, _, rfl⟩ := Page.of_delete_error deleted
                  exact ⟨middle, reads, .inr ⟨record, { page with padding }, rfl, count ▸ inside, here, rfl⟩⟩
        · simp only [if_pos own, if_neg inside]
          exact stay
      · simp only [if_neg own]
        exact stay

end RowStore.Pool
