import RowStore.Proofs.Page.Acceptance
import RowStore.Proofs.Pool.Guarded

namespace RowStore

/-! What is said of a page that cannot be had.

A page is not one of its table, or its bytes hold no rows of the table. A fetch can be
refused in addition because of its lock; nothing else can go wrong with it.
-/

inductive StoreError.Unreadable : StoreError → Prop
  | unknown (table : TableId) : Unreadable (.noSuchTable table)
  | foreign (page : PageId) : Unreadable (.foreignPage page)
  | outside (page : PageId) (count : Nat) : Unreadable (.pageOutOfBounds page count)
  | garbled (clash : TypeClash) : Unreadable (.typeMismatch clash)
  | short : Unreadable .indexOutOfRange

open StoreError

variable {error : StoreError}

theorem TableFile.readPage_error {file : TableFile} {disk : Disk} {id : PageId}
    (failed : file.readPage disk id = .error error) : error.Unreadable := by
  unfold readPage at failed
  split at failed
  · split at failed
    · have decodes := @Page.decodes_page id file.schema file.pageSize
        (disk.read file.handle (id.number * file.pageSize) file.pageSize)
      rw [failed] at decodes
      cases decodes with
      | refused fault _ => exact .garbled _
    · cases failed
      exact .outside _ _
  · cases failed
    exact .foreign _

namespace Pool

variable {pool : Pool} {tx : TxId} {id : PageId} {mode : LockMode}

theorem load_error (failed : (pool.load id).2 = .failed error) : error.Unreadable := by
  unfold Pool.load at failed
  split at failed
  · contradiction
  · split at failed
    · next missing =>
      cases failed
      unfold Pool.table? at missing
      split at missing <;> cases missing
      exact .unknown _
    · split at failed
      · next read =>
        cases failed
        exact TableFile.readPage_error read
      · contradiction

/-- A fetch that fails was refused its lock, or the page cannot be had. -/
theorem fetch_error (failed : (pool.fetch tx id mode).2 = .failed error) :
    (∃ reason, (pool.locks.request tx id mode).2 = .refused reason ∧ error = .aborted tx reason) ∨
      (pool.load id).2 = .failed error := by
  unfold Pool.fetch at failed
  generalize pool.locks.request tx id mode = answer at failed
  obtain ⟨locks, verdict⟩ := answer
  cases verdict with
  | parked => contradiction
  | refused reason =>
      cases failed
      exact .inl ⟨reason, rfl, rfl⟩
  | granted =>
      have same : (Pool.load { pool with locks } id).2 = (pool.load id).2 := load_congr rfl rfl rfl
      exact .inr (same.symm.trans failed)

end Pool

end RowStore
