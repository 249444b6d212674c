import RowStore.Pool.Delete
import RowStore.Pool.Insert
import RowStore.Proofs.Pool.Quiet

namespace RowStore

/-! Inserts and deletes change one slot of a page that is locked to write; all else that they do
changes no row. -/

/-- What a slot holds from now on: a row that is put there, or nothing. -/
structure Change where
  record : RecordId
  value : Option (List Value)

/-- What a client asks for when it changes a row. Where a row is put is not for the client to say. -/
inductive RowWrite where
  | insert (table : TableId) (values : List Value)
  | delete (record : RecordId)

def Change.write (change : Change) : RowWrite :=
  match change.value with
  | some values => .insert change.record.page.table values
  | none => .delete change.record

/-- What a parked insert relies on when it goes on. -/
def InsertStage.Ready (tx : TxId) (table : TableId) (pool : Pool) : InsertStage → Prop
  | .start => True
  | .inspecting number _ rest =>
      ⟨table, number⟩ ∉ pool.locks.heldPages tx ∧ ∀ page ∈ number :: rest, page < pool.pageCount table
  | .claiming number rest => ∀ page ∈ number :: rest, page < pool.pageCount table
  | .appending _ => True

namespace Pool

variable {pool middle after : Pool} {tx : TxId} {table : TableId} {row : Row} {page : Page}
variable {number : Nat} {rest : List Nat} {change : Change}

/-- The one step of a transaction that changes a row. -/
structure Alters (tx : TxId) (change : Change) (page : Page) (pool after : Pool) : Prop where
  found : pool.cache.get? change.record.page = some page
  owned : pool.locks.lockOn change.record.page = ⟨some .exclusive, [tx]⟩
  inside : change.record.page.number < pool.pageCount change.record.page.table
  /-- A row is put into a free slot, and taken away from a used one. -/
  turns : (page.slots[change.record.slot]?).map Option.isSome = some !change.value.isSome
  fits : SlotFits page.schema.types change.value
  eq : after = pool.putPage ((page.setSlot change.record.slot change.value).markDirty (some tx))

theorem Coherent.alter (coherent : pool.Coherent) (alters : Alters tx change page pool after) :
    after.Coherent := by
  obtain ⟨found, owned, inside, _, fits, rfl⟩ := alters
  have agrees := coherent.agrees _ page found
  obtain ⟨image, restored, _⟩ := agrees.restored
  have named := agrees.named
  refine coherent.putPage ⟨rfl, (agrees.wellFormed.setSlot fits).markDirty _, ?_,
    ⟨image, restored, by simp [Page.markDirty]⟩, fun owner dirty => ?_⟩
  · rw [show ((page.setSlot change.record.slot change.value).markDirty (some tx)).id =
      change.record.page from named]
    exact agrees.filed
  · cases dirty
    rw [show ((page.setSlot change.record.slot change.value).markDirty (some tx)).id =
      change.record.page from named]
    exact ⟨owned, inside⟩

/-! ## Finding a place for a row -/

structure Placed (tx : TxId) (table : TableId) (row : Row) (number : Nat) (page changed : Page)
    (pool middle after : Pool) : Prop where
  quiet : Quiet tx pool middle
  found : middle.cache.get? ⟨table, number⟩ = some page
  owned : middle.locks.lockOn ⟨table, number⟩ = ⟨some .exclusive, [tx]⟩
  inside : number < middle.pageCount table
  inserted : ∃ record, page.insert row = .ok (changed, record)
  eq : after = middle.putPage changed

def PlaceEnds (tx : TxId) (table : TableId) (row : Row) (pool : Pool) : InsertOutcome → Prop
  | (after, .done number) => ∃ page changed middle, Placed tx table row number page changed pool middle after
  | (after, .failed _) => Quiet tx pool after
  | (after, .parked stage) => Quiet tx pool after ∧ stage.Ready tx table after

theorem PlaceEnds.after_quiet {result : InsertOutcome} (quiet : Quiet tx pool middle)
    (ends : PlaceEnds tx table row middle result) : PlaceEnds tx table row pool result := by
  obtain ⟨after, outcome⟩ := result
  cases outcome with
  | done number =>
      obtain ⟨page, changed, last, placed⟩ := ends
      exact ⟨page, changed, last, { placed with quiet := quiet.trans placed.quiet }⟩
  | failed => exact quiet.trans ends
  | parked => exact ⟨quiet.trans ends.1, ends.2⟩

section Place

variable (coherent : pool.Coherent)
include coherent

theorem Coherent.storeIn (found : pool.cache.get? ⟨table, number⟩ = some page)
    (owned : pool.locks.lockOn ⟨table, number⟩ = ⟨some .exclusive, [tx]⟩)
    (inside : number < pool.pageCount table) (row : Row) :
    PlaceEnds tx table row pool (pool.storeIn page row) := by
  unfold Pool.storeIn
  split
  · next changed record inserted =>
    obtain ⟨slot, _, _, _, same⟩ := Page.of_insert inserted
    have named : changed.id = ⟨table, number⟩ := by
      rw [same]
      exact (coherent.agrees _ page found).named
    rw [named]
    exact ⟨page, changed, pool, Quiet.refl tx coherent, found, owned, inside, ⟨record, inserted⟩, rfl⟩
  · exact Quiet.refl tx coherent

theorem Coherent.grow (found : pool.cache.get? ⟨table, number⟩ = some page)
    (owned : pool.locks.lockOn ⟨table, number⟩ = ⟨some .exclusive, [tx]⟩) (row : Row) :
    PlaceEnds tx table row pool (pool.grow page row) := by
  have agrees := coherent.agrees _ page found
  obtain ⟨file, known, _, _, bound, _⟩ := agrees.filed
  unfold Pool.grow
  split
  · exact Quiet.refl tx coherent
  · next grown appended =>
    rw [agrees.named] at appended
    obtain ⟨sound, _, _, cache, locks, _, inside⟩ := coherent.append appended
    refine PlaceEnds.after_quiet (Quiet.append coherent appended)
      (sound.storeIn (by rw [cache, found]) (by rw [locks, owned]) (inside ?_) row)
    rwa [pageCount_eq known]

theorem Coherent.extend (tx : TxId) (table : TableId) (row : Row) :
    PlaceEnds tx table row pool (pool.extend tx table row) := by
  have fetched := coherent.fetch tx ⟨table, pool.pageCount table⟩ .exclusive
  unfold Pool.extend
  simp only
  generalize pool.fetch tx ⟨table, pool.pageCount table⟩ .exclusive = result at fetched ⊢
  obtain ⟨middle, outcome⟩ := result
  cases outcome with
  | parked => exact ⟨fetched.quiet, trivial⟩
  | failed => exact fetched.quiet
  | done page =>
      exact PlaceEnds.after_quiet fetched.quiet
        (fetched.quiet.coherent.grow (fetched.cached page rfl) (fetched.locked page rfl rfl) row)

theorem Coherent.extendAt (tx : TxId) (table : TableId) (row : Row) (number : Nat) :
    PlaceEnds tx table row pool (pool.extendAt tx table row number) := by
  have fetched := coherent.fetch tx ⟨table, number⟩ .exclusive
  unfold Pool.extendAt
  generalize pool.fetch tx ⟨table, number⟩ .exclusive = result at fetched ⊢
  obtain ⟨middle, outcome⟩ := result
  cases outcome with
  | parked => exact ⟨fetched.quiet, trivial⟩
  | failed => exact fetched.quiet
  | done page =>
      refine PlaceEnds.after_quiet fetched.quiet ?_
      simp only
      split
      · exact fetched.quiet.coherent.extend tx table row
      · exact fetched.quiet.coherent.grow (fetched.cached page rfl) (fetched.locked page rfl rfl) row

theorem Coherent.claim (inside : ∀ page ∈ number :: rest, page < pool.pageCount table) (row : Row)
    {next : Pool → InsertOutcome}
    (proceeds : ∀ middle, Quiet tx pool middle → PlaceEnds tx table row middle (next middle)) :
    PlaceEnds tx table row pool (pool.claim tx table row number rest next) := by
  have fetched := coherent.fetch tx ⟨table, number⟩ .exclusive
  unfold Pool.claim
  generalize pool.fetch tx ⟨table, number⟩ .exclusive = result at fetched ⊢
  obtain ⟨middle, outcome⟩ := result
  have longer := fetched.quiet.grows.pageCount_le table
  cases outcome with
  | parked =>
      exact ⟨fetched.quiet, fun page listed => Nat.lt_of_lt_of_le (inside page listed) longer⟩
  | failed => exact fetched.quiet
  | done page =>
      refine PlaceEnds.after_quiet fetched.quiet ?_
      simp only
      split
      · exact proceeds middle fetched.quiet
      · exact fetched.quiet.coherent.storeIn (fetched.cached page rfl) (fetched.locked page rfl rfl)
          (Nat.lt_of_lt_of_le (inside number List.mem_cons_self) longer) row

theorem Coherent.inspect (inside : ∀ page ∈ number :: rest, page < pool.pageCount table) (row : Row)
    {heldBefore : Bool} (unheld : heldBefore = false → ⟨table, number⟩ ∉ pool.locks.heldPages tx)
    {next : Pool → InsertOutcome}
    (proceeds : ∀ middle, Quiet tx pool middle → PlaceEnds tx table row middle (next middle)) :
    PlaceEnds tx table row pool (pool.inspect tx table row number heldBefore rest next) := by
  have fetched := coherent.fetch tx ⟨table, number⟩ .shared
  unfold Pool.inspect
  generalize pool.fetch tx ⟨table, number⟩ .shared = result at fetched ⊢
  obtain ⟨middle, outcome⟩ := result
  have within : ∀ page ∈ number :: rest, page < middle.pageCount table := fun page listed =>
    Nat.lt_of_lt_of_le (inside page listed) (fetched.quiet.grows.pageCount_le table)
  cases outcome with
  | parked => exact ⟨fetched.quiet, fetched.parked _ rfl rfl, within⟩
  | failed => exact fetched.quiet
  | done page =>
      simp only
      split
      · cases heldBefore with
        | true => exact PlaceEnds.after_quiet fetched.quiet (proceeds middle fetched.quiet)
        | false =>
            have released : Quiet tx middle (middle.release tx ⟨table, number⟩) := by
              refine Quiet.release fetched.quiet.coherent fun other found => ?_
              rw [fetched.cached page rfl] at found
              cases found
              exact fetched.unchanged page rfl (unheld rfl)
            have both := fetched.quiet.trans released
            exact PlaceEnds.after_quiet both (proceeds _ both)
      · exact PlaceEnds.after_quiet fetched.quiet (fetched.quiet.coherent.claim within row
          fun last quiet => proceeds last (fetched.quiet.trans quiet))

theorem Coherent.inspectEach (tx : TxId) (row : Row) {numbers : List Nat}
    (inside : ∀ page ∈ numbers, page < pool.pageCount table) :
    PlaceEnds tx table row pool (inspectEach tx table row numbers pool) := by
  induction numbers generalizing pool with
  | nil => exact coherent.extend tx table row
  | cons number rest ih =>
      rw [Pool.inspectEach]
      refine coherent.inspect inside row (fun free => by simpa [LockTable.holds] using free)
        fun middle quiet => ih quiet.coherent fun page listed => ?_
      exact Nat.lt_of_lt_of_le (inside page (List.mem_cons_of_mem _ listed))
        (quiet.grows.pageCount_le table)

theorem Coherent.place (row : Row) {stage : InsertStage} (ready : stage.Ready tx table pool) :
    PlaceEnds tx table row pool (pool.place tx table row stage) := by
  have proceeds : ∀ {rest : List Nat}, (∀ page ∈ rest, page < pool.pageCount table) →
      ∀ middle, Quiet tx pool middle →
        PlaceEnds tx table row middle (Pool.inspectEach tx table row rest middle) := by
    intro rest inside middle quiet
    exact quiet.coherent.inspectEach tx row fun page listed =>
      Nat.lt_of_lt_of_le (inside page listed) (quiet.grows.pageCount_le table)
  cases stage with
  | start =>
      simp only [Pool.place]
      split
      · exact Quiet.refl tx coherent
      · next file known =>
        split
        · refine coherent.inspectEach tx row fun page listed => ?_
          rw [pageCount_eq (table?_eq_ok.mp known)]
          exact List.mem_range.mp listed
        · exact Quiet.refl tx coherent
  | inspecting number heldBefore rest =>
      exact coherent.inspect ready.2 row (fun _ => ready.1)
        (proceeds fun page listed => ready.2 page (List.mem_cons_of_mem _ listed))
  | claiming number rest =>
      exact coherent.claim ready row
        (proceeds fun page listed => ready page (List.mem_cons_of_mem _ listed))
  | appending number => exact coherent.extendAt tx table row number

end Place

/-! ## Inserts and deletes as a whole -/

/-- A row was changed as it was asked for. -/
def Writes (tx : TxId) (write : RowWrite) (pool after : Pool) : Prop :=
  ∃ middle change page, Quiet tx pool middle ∧ Alters tx change page middle after ∧ change.write = write

theorem Writes.after_quiet {write : RowWrite} (writes : Writes tx write middle after)
    (quiet : Quiet tx pool middle) : Writes tx write pool after := by
  obtain ⟨last, change, page, rest, alters, same⟩ := writes
  exact ⟨last, change, page, quiet.trans rest, alters, same⟩

def InsertEnds (tx : TxId) (table : TableId) (row : Row) (pool : Pool) : InsertOutcome → Prop
  | (after, .done _) => Writes tx (.insert table row.values) pool after
  | (after, .failed _) => Quiet tx pool after
  | (after, .parked stage) => Quiet tx pool after ∧ stage.Ready tx table after

theorem markDirty_putPage (pool : Pool) {id : PageId} (named : page.id = id) :
    (pool.putPage page).markDirty tx id = pool.putPage (page.markDirty (some tx)) := by
  subst named
  unfold Pool.markDirty
  rw [get?_putPage, if_pos rfl]
  simp only [Pool.putPage, Page.markDirty, FinMap.insert_insert]

theorem Placed.markDirty {changed : Page} (placed : Placed tx table row number page changed pool middle after)
    (kept : row.Kept) :
    Writes tx (.insert table row.values) pool (after.markDirty tx ⟨table, number⟩) := by
  obtain ⟨quiet, found, owned, inside, ⟨record, inserted⟩, rfl⟩ := placed
  obtain ⟨slot, free, types, _, rfl⟩ := Page.of_insert inserted
  have named : (page.setSlot slot (some row.values)).id = ⟨table, number⟩ :=
    (quiet.coherent.agrees _ page found).named
  refine ⟨middle, ⟨⟨⟨table, number⟩, slot⟩, some row.values⟩, page, quiet,
    ⟨found, owned, inside, by simp [free], fun values same => ?_,
      markDirty_putPage middle named⟩, rfl⟩
  cases same
  exact ⟨types, kept⟩

theorem Coherent.insert (coherent : pool.Coherent) {stage : InsertStage} (kept : row.Kept)
    (ready : stage.Ready tx table pool) :
    InsertEnds tx table row pool (pool.insert tx table row stage) := by
  have ends := coherent.place row ready
  unfold Pool.insert
  generalize pool.place tx table row stage = result at ends ⊢
  obtain ⟨after, outcome⟩ := result
  cases outcome with
  | done number =>
      obtain ⟨page, changed, middle, placed⟩ := ends
      exact placed.markDirty kept
  | failed | parked => exact ends

def DeleteEnds (tx : TxId) (location : Option RecordId) (pool : Pool) : Pool × Outcome Unit Nat → Prop
  | (after, .done _) => ∃ record, location = some record ∧ Writes tx (.delete record) pool after
  | (after, .failed _) => Quiet tx pool after
  | (after, .parked _) => Quiet tx pool after

section Delete

variable (coherent : pool.Coherent) {record : RecordId} {changed : Page}
include coherent

theorem Coherent.delete_ok (found : pool.cache.get? record.page = some page)
    (owned : pool.locks.lockOn record.page = ⟨some .exclusive, [tx]⟩)
    (inside : record.page.number < pool.pageCount record.page.table)
    (deleted : page.delete (some record) = (changed, .ok ())) :
    Writes tx (.delete record) pool ((pool.putPage changed).markDirty tx record.page) := by
  obtain ⟨_, values, same, _, used, rfl⟩ := Page.of_delete deleted
  cases same
  have named : (page.setSlot record.slot none).id = record.page := (coherent.agrees _ page found).named
  exact ⟨pool, ⟨record, none⟩, page, Quiet.refl tx coherent, ⟨found, owned, inside, by simp [used],
    slotFits_none _, markDirty_putPage pool named⟩, rfl⟩

theorem Coherent.delete_error (found : pool.cache.get? record.page = some page) {error : StoreError}
    (deleted : page.delete (some record) = (changed, .error error)) :
    Quiet tx pool (pool.putPage changed) := by
  obtain ⟨padding, same, rfl⟩ := Page.of_delete_error deleted
  refine Quiet.setPadding coherent ?_ same
  rw [(coherent.agrees _ page found).named, found]

theorem Coherent.delete (tx : TxId) (location : Option RecordId) :
    DeleteEnds tx location pool (pool.delete tx location) := by
  unfold Pool.delete
  split
  · exact Quiet.refl tx coherent
  · next record =>
    split
    · exact Quiet.refl tx coherent
    · next file known =>
      have listed := table?_eq_ok.mp known
      simp only [remove]
      rw [if_pos (coherent.files.named listed).symm]
      by_cases inside : record.page.number < file.pageCount
      · rw [if_pos inside]
        have fetched := coherent.fetch tx record.page .exclusive
        generalize pool.fetch tx record.page .exclusive = result at fetched ⊢
        obtain ⟨middle, outcome⟩ := result
        cases outcome with
        | failed | parked => exact fetched.quiet
        | done page =>
            have found := fetched.cached page rfl
            have still : record.page.number < middle.pageCount record.page.table := by
              rwa [fetched.pageCount, pageCount_eq listed]
            simp only
            generalize deleted : page.delete (some record) = answer
            obtain ⟨changed, outcome⟩ := answer
            cases outcome with
            | ok =>
                have writes := fetched.quiet.coherent.delete_ok found (fetched.locked page rfl rfl) still deleted
                exact ⟨record, rfl, writes.after_quiet fetched.quiet⟩
            | error => exact fetched.quiet.trans (fetched.quiet.coherent.delete_error found deleted)
      · rw [if_neg inside]
        exact Quiet.refl tx coherent

end Delete

end Pool

end RowStore
