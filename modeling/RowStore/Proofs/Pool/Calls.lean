import RowStore.Proofs.Pool.Change
import RowStore.Proofs.Pool.Visits

namespace RowStore.Pool

/-! Inserts, deletes and scans hand out pages, and then change pages that they have locked to write. -/

variable {pool middle after : Pool} {tx : TxId} {table : TableId} {id : PageId} {page : Page}
variable {row : Row} {number : Nat} {rest : List Nat} {mode : LockMode} {visits : List Visit}

/-- A row was put into a page, or there was no room for it. -/
structure Stored (tx : TxId) (table : TableId) (pool after : Pool) (outcome : Outcome InsertStage Nat) :
    Prop where
  rewrites : Rewrites tx pool after
  written : ∀ number, outcome = .done number → pool.locks.Has tx ⟨table, number⟩ .exclusive
  running : ∀ stage, outcome ≠ .parked stage

/-- An insert handed out pages up to the state in the middle, and put the row into the last one, if it
did not stop before. -/
structure Seated (tx : TxId) (table : TableId) (pool : Pool) (visits : List Visit) (middle : Pool)
    (result : InsertOutcome) : Prop where
  walked : Walked tx true pool visits middle
  rewrites : Rewrites tx middle result.1
  written : ∀ number, result.2 = .done number → middle.locks.Has tx ⟨table, number⟩ .exclusive
  parked : ∀ stage, result.2 = .parked stage → stage.Unheld tx table result.1

def Seats (tx : TxId) (table : TableId) (pool : Pool) (visits : List Visit) (result : InsertOutcome) :
    Prop := ∃ middle, Seated tx table pool visits middle result

theorem Seats.ofStored {result : InsertOutcome} (guarded : pool.Guarded)
    (stored : Stored tx table pool result.1 result.2) : Seats tx table pool [] result :=
  ⟨pool, Walked.stay guarded, stored.rewrites, stored.written,
    fun stage same => absurd same (stored.running stage)⟩

/-- A fetch that hands out no page stops the insert. -/
theorem Seats.stop {outcome : Outcome InsertStage Nat} {handed : Outcome Unit Page}
    (hands : Hands tx id mode pool after handed) (nothing : ∀ page, handed ≠ .done page)
    (undone : ∀ number, outcome ≠ .done number)
    (parked : ∀ stage, outcome = .parked stage → stage.Unheld tx table after) :
    Seats tx table pool [] (after, outcome) :=
  ⟨after, Walked.stop hands nothing, Rewrites.of_same hands.guarded rfl rfl,
    fun number same => absurd same (undone number), parked⟩

theorem Seats.hand {result : InsertOutcome} (hands : Hands tx id mode pool middle (.done page))
    (seats : Seats tx table middle visits result) :
    Seats tx table pool (⟨tx, id, mode, page⟩ :: visits) result := by
  obtain ⟨last, seated⟩ := seats
  exact ⟨last, { seated with walked := seated.walked.hand hands }⟩

theorem Seats.pass {result : InsertOutcome} (hands : Hands tx id .shared pool middle (.done page))
    (full : page.isFull = true) (unheld : ¬ pool.locks.Has tx id .shared)
    (seats : Seats tx table (middle.release tx id) visits result) :
    Seats tx table pool (⟨tx, id, .shared, page⟩ :: visits) result := by
  obtain ⟨last, seated⟩ := seats
  exact ⟨last, { seated with walked := Walked.pass hands full unheld seated.walked }⟩

section Insert

variable (guarded : pool.Guarded) (kept : row.Kept)
include guarded kept

theorem Guarded.storeIn (found : pool.cache.get? ⟨table, number⟩ = some page)
    (written : pool.locks.Has tx ⟨table, number⟩ .exclusive) :
    Stored tx table pool (pool.storeIn page row).1 (pool.storeIn page row).2 := by
  have restorable := guarded.restorable _ page found
  unfold Pool.storeIn
  split
  · next changed record inserted =>
    obtain ⟨slot, _, types, _, rfl⟩ := Page.of_insert inserted
    have fits : SlotFits page.schema.types (some row.values) := by
      intro values same
      cases same
      exact ⟨types, kept⟩
    have changes : (page.setSlot slot (some row.values)).Restorable ⟨table, number⟩ := restorable.setSlot fits
    have named := changes.named
    refine ⟨guarded.rewrite (named.symm ▸ changes) (named.symm ▸ found) (named.symm ▸ written)
      fun owner dirty => ?_,
      fun other same => ?_, by simp⟩
    · exact named.symm ▸ guarded.owned _ page owner found dirty
    · cases same
      exact named.symm ▸ written
  · exact ⟨Rewrites.of_same guarded rfl rfl, by simp, by simp⟩

theorem Guarded.grow (found : pool.cache.get? ⟨table, number⟩ = some page)
    (written : pool.locks.Has tx ⟨table, number⟩ .exclusive) :
    Stored tx table pool (pool.grow page row).1 (pool.grow page row).2 := by
  unfold Pool.grow
  split
  · exact ⟨Rewrites.of_same guarded rfl rfl, by simp, by simp⟩
  · next grown appended =>
    obtain ⟨rewrites, cache⟩ : Rewrites tx pool grown ∧ grown.cache = pool.cache :=
      guarded.append appended
    have stored := rewrites.guarded.storeIn kept (cache ▸ found) (rewrites.locks ▸ written)
    exact ⟨rewrites.trans stored.rewrites, fun other same => rewrites.locks ▸ stored.written other same,
      stored.running⟩

theorem Guarded.extend (tx : TxId) (table : TableId) :
    Seats tx table pool (pool.extendVisits tx table) (pool.extend tx table row) := by
  have hands := guarded.fetch tx ⟨table, pool.pageCount table⟩ .exclusive
  unfold Pool.extend Pool.extendVisits Pool.fetchVisits
  simp only
  generalize pool.fetch tx ⟨table, pool.pageCount table⟩ .exclusive = result at hands ⊢
  obtain ⟨middle, outcome⟩ := result
  cases outcome with
  | parked => exact Seats.stop hands (by simp) (by simp) fun stage same => by cases same; trivial
  | failed => exact Seats.stop hands (by simp) (by simp) (by simp)
  | done page =>
      exact Seats.hand hands (Seats.ofStored hands.guarded
        (hands.guarded.grow kept (hands.cached page rfl) (hands.has page rfl)))

theorem Guarded.extendAt (tx : TxId) (table : TableId) (number : Nat) :
    Seats tx table pool (pool.extendAtVisits tx table number) (pool.extendAt tx table row number) := by
  have hands := guarded.fetch tx ⟨table, number⟩ .exclusive
  unfold Pool.extendAt Pool.extendAtVisits Pool.fetchVisits
  generalize pool.fetch tx ⟨table, number⟩ .exclusive = result at hands ⊢
  obtain ⟨middle, outcome⟩ := result
  cases outcome with
  | parked => exact Seats.stop hands (by simp) (by simp) fun stage same => by cases same; trivial
  | failed => exact Seats.stop hands (by simp) (by simp) (by simp)
  | done page =>
      simp only
      split
      · exact Seats.hand hands (hands.guarded.extend kept tx table)
      · exact Seats.hand hands (Seats.ofStored hands.guarded
          (hands.guarded.grow kept (hands.cached page rfl) (hands.has page rfl)))

theorem Guarded.claim (tx : TxId) (table : TableId) (number : Nat) (rest : List Nat)
    {next : Pool → InsertOutcome} {nextVisits : Pool → List Visit}
    (proceeds : ∀ middle, middle.Guarded → Seats tx table middle (nextVisits middle) (next middle)) :
    Seats tx table pool (pool.claimVisits tx table number nextVisits)
      (pool.claim tx table row number rest next) := by
  have hands := guarded.fetch tx ⟨table, number⟩ .exclusive
  unfold Pool.claim Pool.claimVisits Pool.fetchVisits
  generalize pool.fetch tx ⟨table, number⟩ .exclusive = result at hands ⊢
  obtain ⟨middle, outcome⟩ := result
  cases outcome with
  | parked => exact Seats.stop hands (by simp) (by simp) fun stage same => by cases same; trivial
  | failed => exact Seats.stop hands (by simp) (by simp) (by simp)
  | done page =>
      simp only
      split
      · exact Seats.hand hands (proceeds middle hands.guarded)
      · exact Seats.hand hands (Seats.ofStored hands.guarded
          (hands.guarded.storeIn kept (hands.cached page rfl) (hands.has page rfl)))

theorem Guarded.inspect (tx : TxId) (table : TableId) (number : Nat) (rest : List Nat)
    {heldBefore : Bool} (unheld : heldBefore = false → ¬ pool.locks.Has tx ⟨table, number⟩ .shared)
    {next : Pool → InsertOutcome} {nextVisits : Pool → List Visit}
    (proceeds : ∀ middle, middle.Guarded → Seats tx table middle (nextVisits middle) (next middle)) :
    Seats tx table pool (pool.inspectVisits tx table number heldBefore nextVisits)
      (pool.inspect tx table row number heldBefore rest next) := by
  have hands := guarded.fetch tx ⟨table, number⟩ .shared
  unfold Pool.inspect Pool.inspectVisits Pool.fetchVisits
  generalize pool.fetch tx ⟨table, number⟩ .shared = result at hands ⊢
  obtain ⟨middle, outcome⟩ := result
  cases outcome with
  | parked =>
      refine Seats.stop hands (by simp) (by simp) fun stage same => ?_
      cases same
      exact hands.parked _ rfl rfl
  | failed => exact Seats.stop hands (by simp) (by simp) (by simp)
  | done page =>
      simp only
      split
      · next full =>
        cases heldBefore with
        | true => exact Seats.hand hands (proceeds middle hands.guarded)
        | false =>
            exact Seats.pass hands full (unheld rfl) (proceeds _ (guarded.release hands (unheld rfl)))
      · exact Seats.hand hands (hands.guarded.claim kept tx table number rest proceeds)

theorem Guarded.inspectEach (tx : TxId) (table : TableId) (numbers : List Nat) :
    Seats tx table pool (inspectEachVisits tx table numbers pool)
      (inspectEach tx table row numbers pool) := by
  induction numbers generalizing pool with
  | nil => exact guarded.extend kept tx table
  | cons number rest ih =>
      refine guarded.inspect kept tx table number rest (fun free => ?_) fun middle kept => ih kept
      rw [guarded.locks.has_shared_iff]
      simpa [LockTable.holds] using free

theorem Guarded.place {stage : InsertStage} (unheld : stage.Unheld tx table pool) :
    Seats tx table pool (pool.insertVisits tx table row stage) (pool.place tx table row stage) := by
  have nothing : ∀ {error : StoreError}, Seats tx table pool [] (pool, .failed error) := fun {error} =>
    Seats.ofStored guarded ⟨Rewrites.of_same guarded rfl rfl, by simp, by simp⟩
  have proceeds : ∀ rest middle, middle.Guarded → Seats tx table middle
      (inspectEachVisits tx table rest middle) (Pool.inspectEach tx table row rest middle) :=
    fun rest middle guarded => guarded.inspectEach kept tx table rest
  cases stage with
  | start =>
      simp only [Pool.place, Pool.insertVisits]
      cases pool.table? table with
      | error error => exact nothing
      | ok file =>
          simp only
          split
          · exact guarded.inspectEach kept tx table _
          · exact nothing
  | inspecting number heldBefore rest =>
      exact guarded.inspect kept tx table number rest (fun _ => unheld) (proceeds rest)
  | claiming number rest => exact guarded.claim kept tx table number rest (proceeds rest)
  | appending number => exact guarded.extendAt kept tx table number

theorem Guarded.insert {stage : InsertStage} (unheld : stage.Unheld tx table pool) :
    Seats tx table pool (pool.insertVisits tx table row stage) (pool.insert tx table row stage) := by
  obtain ⟨middle, seated⟩ := guarded.place kept unheld
  unfold Pool.insert
  generalize pool.place tx table row stage = result at seated ⊢
  obtain ⟨after, outcome⟩ := result
  cases outcome with
  | done number =>
      have written := seated.written number rfl
      refine ⟨middle, seated.walked, seated.rewrites.trans (seated.rewrites.guarded.markDirty ?_), ?_, by simp⟩
      · exact seated.rewrites.locks ▸ written
      · intro other same
        cases same
        exact written
  | failed | parked => exact ⟨middle, seated⟩

end Insert

/-! ## Deletes -/

/-- A delete had its page in the state in the middle, if it came that far, and changed it then. -/
def Removes (tx : TxId) (pool : Pool) (visits : List Visit) (after : Pool) : Prop :=
  ∃ middle, Walked tx false pool visits middle ∧ Rewrites tx middle after

section Delete

variable (guarded : pool.Guarded)
include guarded

theorem Guarded.changeDeleted {location : Option RecordId} {changed : Page}
    {outcome : Except StoreError Unit} (found : pool.cache.get? id = some page)
    (written : pool.locks.Has tx id .exclusive) (deleted : page.delete location = (changed, outcome)) :
    Rewrites tx pool (pool.putPage changed) := by
  have restorable := guarded.restorable id page found
  have owned := fun owner => guarded.owned id page owner found
  cases outcome with
  | ok =>
      obtain ⟨record, _, _, _, _, rfl⟩ := Page.of_delete deleted
      have changes : (page.setSlot record.slot none).Restorable id := restorable.setSlot (slotFits_none _)
      have named := changes.named
      exact guarded.rewrite (named.symm ▸ changes) (named.symm ▸ found) (named.symm ▸ written)
        (named.symm ▸ owned)
  | error =>
      obtain ⟨padding, same, rfl⟩ := Page.of_delete_error deleted
      have changes := restorable.setPadding same
      have named : Page.id { page with padding } = id := changes.named
      exact guarded.rewrite (named.symm ▸ changes) (named.symm ▸ found) (named.symm ▸ written)
        (named.symm ▸ owned)

theorem Removes.nothing : Removes tx pool [] pool :=
  ⟨pool, Walked.stay guarded, Rewrites.of_same guarded rfl rfl⟩

theorem Guarded.remove (tx : TxId) (file : TableFile) (location : Option RecordId) :
    Removes tx pool (pool.removeVisits tx file location) (pool.remove tx file location).1 ∧
      ∀ number, (pool.remove tx file location).2 = .done number → ∀ record, location = some record →
        (pool.remove tx file location).1.locks.Has tx record.page .exclusive := by
  cases location with
  | none => exact ⟨Removes.nothing guarded, by simp [Pool.remove]⟩
  | some record =>
      by_cases inside : record.page.table = file.id ∧ record.page.number < file.pageCount
      · have hands := guarded.fetch tx record.page .exclusive
        simp only [Pool.remove, Pool.removeVisits, if_pos inside, if_pos inside.1, if_pos inside.2,
          Pool.fetchVisits]
        generalize pool.fetch tx record.page .exclusive = result at hands ⊢
        obtain ⟨middle, outcome⟩ := result
        cases outcome with
        | failed | parked =>
            exact ⟨⟨middle, Walked.stop hands (by simp), Rewrites.of_same hands.guarded rfl rfl⟩, by simp⟩
        | done page =>
            have written := hands.has page rfl
            have walked : Walked tx false pool [⟨tx, record.page, .exclusive, page⟩] middle :=
              Walked.hand hands (Walked.stay hands.guarded)
            simp only
            generalize deleted : page.delete (some record) = answer
            obtain ⟨changed, outcome⟩ := answer
            have rewrites := hands.guarded.changeDeleted (hands.cached page rfl) written deleted
            cases outcome with
            | ok =>
                refine ⟨⟨middle, walked, rewrites⟩, fun _ _ other same => ?_⟩
                cases same
                exact written
            | error => exact ⟨⟨middle, walked, rewrites⟩, by simp⟩
      · simp only [Pool.removeVisits, if_neg inside, Pool.remove]
        split
        · next own =>
          rw [if_neg fun bound => inside ⟨own, bound⟩]
          exact ⟨Removes.nothing guarded, by simp⟩
        · exact ⟨Removes.nothing guarded, by simp⟩

theorem Guarded.delete (tx : TxId) (location : Option RecordId) :
    Removes tx pool (pool.deleteVisits tx location) (pool.delete tx location).1 := by
  cases location with
  | none => exact Removes.nothing guarded
  | some record =>
      simp only [Pool.delete, Pool.deleteVisits]
      cases pool.table? record.page.table with
      | error error => exact Removes.nothing guarded
      | ok file =>
          obtain ⟨⟨middle, walked, rewrites⟩, written⟩ := guarded.remove tx file (some record)
          simp only
          generalize pool.remove tx file (some record) = result at rewrites written ⊢
          obtain ⟨after, outcome⟩ := result
          cases outcome with
          | failed | parked => exact ⟨middle, walked, rewrites⟩
          | done number =>
              have marks := rewrites.guarded.markDirty (written number rfl record rfl)
              exact ⟨middle, walked, rewrites.trans marks⟩

end Delete

/-! ## Scans -/

section Scan

variable (guarded : pool.Guarded) (tx : TxId) (table : TableId)
include guarded

theorem Guarded.scanAhead (numbers : List Nat) (position : ScanPosition) :
    Walked tx false pool (scanAheadVisits tx table numbers pool)
      (scanAhead tx table numbers position pool).1 := by
  induction numbers generalizing pool position with
  | nil => exact Walked.stay guarded
  | cons number rest ih =>
      have hands := guarded.fetch tx ⟨table, number⟩ .shared
      rw [Pool.scanAhead, scanAheadVisits, fetchVisits]
      generalize pool.fetch tx ⟨table, number⟩ .shared = result at hands ⊢
      obtain ⟨middle, outcome⟩ := result
      cases outcome with
      | failed | parked => exact Walked.stop hands (by simp)
      | done page =>
          simp only
          split
          · exact Walked.hand hands (ih hands.guarded _)
          · exact Walked.hand hands (Walked.stay hands.guarded)

theorem Guarded.scanHasNext (position : ScanPosition) :
    Walked tx false pool (pool.scanHasNextVisits tx table position)
      (pool.scanHasNext tx table position).1 := by
  unfold Pool.scanHasNext Pool.scanHasNextVisits
  split
  · exact guarded.scanAhead tx table _ position
  · exact Walked.stay guarded

theorem Guarded.scanNext (position : ScanPosition) :
    Walked tx false pool (pool.scanHasNextVisits tx table position)
      (pool.scanNext tx table position).1 := by
  have walked := guarded.scanHasNext tx table position
  unfold Pool.scanNext
  generalize pool.scanHasNext tx table position = result at walked ⊢
  obtain ⟨after, reached, outcome⟩ := result
  cases outcome with
  | failed | parked => exact walked
  | done _ =>
      simp only
      split <;> exact walked

theorem Guarded.scanPages (numbers : List Nat) (position : ScanPosition) :
    Walked tx false pool (scanPagesVisits tx table numbers pool)
      (scanPages tx table numbers position pool).1 := by
  induction numbers generalizing pool position with
  | nil => exact Walked.stay guarded
  | cons number rest ih =>
      have hands := guarded.fetch tx ⟨table, number⟩ .shared
      rw [Pool.scanPages, scanPagesVisits, fetchVisits]
      generalize pool.fetch tx ⟨table, number⟩ .shared = result at hands ⊢
      obtain ⟨middle, outcome⟩ := result
      cases outcome with
      | failed | parked => exact Walked.stop hands (by simp)
      | done page => exact Walked.hand hands (ih hands.guarded _)

theorem Guarded.scanAll (position : ScanPosition) :
    Walked tx false pool (pool.scanAllVisits tx table position) (pool.scanAll tx table position).1 :=
  guarded.scanPages tx table _ _

end Scan

end RowStore.Pool
