import RowStore.Proofs.Session.Run

namespace RowStore

/-! Every action of a session keeps its pool coherent, and keeps what parked calls rely on. -/

namespace Pool

variable {pool middle after : Pool} {tx : TxId} {change : Change} {page : Page} {actor : Option TxId}

/-- What an action means to the calls that wait: files are no shorter, and nobody but the actor
holds a page that was not held before. -/
structure Frame (actor : Option TxId) (pool after : Pool) : Prop where
  grows : Grows pool after
  held : ∀ other, some other ≠ actor → ∀ id ∈ after.locks.heldPages other, id ∈ pool.locks.heldPages other

theorem Frame.trans (first : Frame actor pool middle) (second : Frame actor middle after) :
    Frame actor pool after :=
  ⟨first.grows.trans second.grows, fun other differs id listed =>
    first.held other differs id (second.held other differs id listed)⟩

theorem Stays.frame (stays : Stays pool after) : Frame actor pool after := by
  refine ⟨stays.grows, fun other _ id listed => ?_⟩
  rwa [stays.locks] at listed

theorem Quiet.frame (quiet : Quiet tx pool after) : Frame (some tx) pool after := by
  refine ⟨quiet.grows, fun other differs id listed => ?_⟩
  rwa [quiet.held other fun same => differs (congrArg some same)] at listed

theorem Alters.stays (alters : Alters tx change page pool after) : Stays pool after := by
  rw [alters.eq]
  exact ⟨rfl, rfl, rfl, rfl⟩

theorem frame_releaseAll (pool : Pool) (tx : TxId) : Frame actor pool (pool.releaseAll tx) := by
  refine ⟨Grows.of_same rfl rfl, fun other _ id listed => ?_⟩
  rw [Pool.releaseAll, LockTable.heldPages_releaseAll] at listed
  split at listed
  · simp at listed
  · exact listed

end Pool

namespace Call

variable {pool after : Pool} {tx : TxId} {call : Call} {actor : Option TxId}

theorem Ready.keep (ready : call.Ready tx pool) (frame : Pool.Frame actor pool after)
    (other : some tx ≠ actor) : call.Ready tx after := by
  have within : ∀ {table : TableId} {pages : List Nat}, (∀ page ∈ pages, page < pool.pageCount table) →
      ∀ page ∈ pages, page < after.pageCount table := fun {table} _ inside page listed =>
    Nat.lt_of_lt_of_le (inside page listed) (frame.grows.pageCount_le table)
  cases call with
  | insert table row stage =>
      refine ⟨ready.1, ?_⟩
      cases stage with
      | start | appending => trivial
      | inspecting number heldBefore rest =>
          exact ⟨fun listed => ready.2.1 (frame.held tx other _ listed), within ready.2.2⟩
      | claiming number rest => exact within ready.2
  | _ => exact ready

theorem Client.ready (client : call.Client tx) (pool : Pool) : call.Ready tx pool := by
  cases call with
  | insert table row stage =>
      obtain ⟨kept, rfl⟩ := client
      exact ⟨kept, trivial⟩
  | _ => exact client

end Call

/-! ## Actions on the pool -/

namespace Pool

variable {pool middle after : Pool} {tx : TxId} {actor : Option TxId}

section Actions

variable (coherent : pool.Coherent)
include coherent

theorem Coherent.of_commit (tx : TxId) :
    (pool.commit tx).1.Coherent ∧ Frame actor pool (pool.commit tx).1 := by
  obtain ⟨middle, sound, stays, clean, same, _⟩ := coherent.commit tx
  rw [same]
  exact ⟨sound.releaseAll tx clean, stays.frame.trans (frame_releaseAll middle tx)⟩

theorem Coherent.of_abort (tx : TxId) :
    (pool.abort tx).1.Coherent ∧ Frame actor pool (pool.abort tx).1 := by
  obtain ⟨middle, settled, same⟩ := coherent.abort tx
  rw [same]
  exact ⟨settled.coherent.releaseAll tx (settled.cleaned.cleanOf coherent.named),
    settled.stays.frame.trans (frame_releaseAll middle tx)⟩

theorem Coherent.of_flushEach (owner : Option TxId) :
    (pool.flushEach (pool.dirtyPages owner)).1.Coherent ∧
      Frame actor pool (pool.flushEach (pool.dirtyPages owner)).1 := by
  obtain ⟨_, _, _, settled, _⟩ := coherent.flushEach (coherent.listed owner)
  exact ⟨settled.coherent, settled.stays.frame⟩

theorem Coherent.of_interrupt (tx : TxId) :
    (pool.interrupt tx).Coherent ∧ Frame actor pool (pool.interrupt tx) := by
  refine ⟨coherent.withLocks (coherent.locks.interrupt tx) fun id _ _ _ _ => ?_,
    Grows.of_same rfl rfl, fun other _ id listed => ?_⟩
  · simp [LockTable.lockOn]
  · simpa [Pool.interrupt, LockTable.heldPages] using listed

theorem Coherent.of_expire (overdue : Waiter → Bool) :
    Coherent { pool with locks := pool.locks.expire overdue } ∧
      Frame actor pool { pool with locks := pool.locks.expire overdue } :=
  ⟨coherent.withLocks (coherent.locks.expire overdue) fun _ _ _ _ _ => rfl,
    Grows.of_same rfl rfl, fun _ _ _ listed => listed⟩

theorem Coherent.of_cache {cache : FinMap PageId Page}
    (same : ∀ id page, cache.get? id = some page → pool.cache.get? id = some page) :
    Coherent { pool with cache } ∧ Frame actor pool { pool with cache } :=
  ⟨coherent.withCache same, Grows.of_same rfl rfl, fun _ _ _ listed => listed⟩

/-- Whether writes fail says nothing about what the files hold. -/
theorem Coherent.of_limitWrites (fail : Bool) (left : Nat) :
    Coherent { pool with disk := { pool.disk with failWrites := fail, writesLeft := left } } ∧
      Frame actor pool
        { pool with disk := { pool.disk with failWrites := fail, writesLeft := left } } := by
  have bytes : ∀ handle, Disk.bytes { pool.disk with failWrites := fail, writesLeft := left } handle =
      pool.disk.bytes handle := by
    intro handle
    cases handle <;> rfl
  have grows : Grows pool
      { pool with disk := { pool.disk with failWrites := fail, writesLeft := left } } :=
    Grows.of_same rfl rfl
  refine ⟨coherent.keep grows (fun id file _ => TableFile.stored_congr rfl (bytes file.handle))
    ⟨coherent.files.named, coherent.files.sized, fun {table file} known => ?_, coherent.files.apart⟩
    coherent.locks fun _ _ found => Or.inr ⟨found, fun _ _ => rfl⟩, grows, fun _ _ _ listed => listed⟩
  rw [TableFile.Whole, bytes]
  exact coherent.files.whole known

end Actions

theorem Writes.frame {write : RowWrite} (writes : Writes tx write pool after) : Frame (some tx) pool after := by
  obtain ⟨middle, change, page, quiet, alters, _⟩ := writes
  exact quiet.frame.trans alters.stays.frame

theorem Writes.coherent {write : RowWrite} (writes : Writes tx write pool after) : after.Coherent := by
  obtain ⟨middle, change, page, quiet, alters, _⟩ := writes
  exact quiet.coherent.alter alters

theorem CallEnds.kept {call : Call} {result : Pool × Stop} (ends : CallEnds tx call pool result) :
    result.1.Coherent ∧ Frame (some tx) pool result.1 := by
  obtain ⟨after, stop⟩ := result
  cases stop with
  | finished reply =>
      obtain ⟨_, _, _, _, writes⟩ | ⟨_, quiet⟩ := ends
      · exact ⟨writes.coherent, writes.frame⟩
      · exact ⟨quiet.coherent, quiet.frame⟩
  | parked again => exact ⟨ends.1.coherent, ends.1.frame⟩

end Pool

namespace Session

variable {session start : Session} {tx : TxId} {call : Call} {action : SessionAction}
variable {history : List SessionEvent}

/-- The pool is coherent, and every parked call can go on. -/
structure Sound (session : Session) : Prop where
  pool : session.pool.Coherent
  parked : ∀ tx call, session.parked.get? tx = some call → call.Ready tx session.pool

theorem Sound.withPool {pool : Pool} (sound : session.Sound)
    (kept : pool.Coherent ∧ Pool.Frame none session.pool pool) :
    (session.withPool pool).Sound ∧ Pool.Grows session.pool pool :=
  ⟨⟨kept.1, fun tx call found => (sound.parked tx call found).keep kept.2 (by simp)⟩, kept.2.grows⟩

theorem Sound.run (sound : session.Sound) (ready : call.Ready tx session.pool) :
    (session.run tx call).1.Sound ∧ Pool.Grows session.pool (session.run tx call).1.pool := by
  have ends := sound.pool.runCall ready
  obtain ⟨coherent, frame⟩ := ends.kept
  rw [← pool_run] at coherent frame
  refine ⟨⟨coherent, fun other waiting found => ?_⟩, frame.grows⟩
  obtain ⟨rfl, parked⟩ | ⟨differs, before⟩ := of_parked_run session tx call found
  · rw [pool_run]
    exact (ends.of_parked parked).2.1
  · exact (sound.parked other waiting before).keep frame fun same => differs (Option.some.inj same)

theorem Sound.act (sound : session.Sound) (enabled : session.Enabled action) :
    (session.act action).1.Sound ∧ Pool.Grows session.pool (session.act action).1.pool := by
  cases action with
  | call tx call => exact sound.run (enabled.2.ready session.pool)
  | resume tx =>
      simp only [Session.act, Session.resume]
      cases found : session.parked.get? tx with
      | none => exact ⟨sound, Pool.Grows.of_same rfl rfl⟩
      | some call => exact sound.run (sound.parked tx call found)
  | complete tx commit =>
      cases commit with
      | true => exact sound.withPool (sound.pool.of_commit tx)
      | false => exact sound.withPool (sound.pool.of_abort tx)
  | interrupt tx => exact sound.withPool (sound.pool.of_interrupt tx)
  | expire overdue => exact sound.withPool (sound.pool.of_expire overdue)
  | flush tx => exact sound.withPool (sound.pool.of_flushEach (some tx))
  | flushAll => exact sound.withPool (sound.pool.of_flushEach none)
  | discard page =>
      refine sound.withPool (sound.pool.of_cache fun id other found => ?_)
      rw [FinMap.get?_erase] at found
      split at found
      · contradiction
      · exact found
  | limitWrites fail left => exact sound.withPool (sound.pool.of_limitWrites fail left)
  | reorder cache =>
      exact sound.withPool (sound.pool.of_cache fun id other found => (enabled id).symm.trans found)

theorem Run.sound {allowed : Session → SessionAction → Prop}
    (enabled : ∀ session action, allowed session action → session.Enabled action)
    (run : Run allowed start history session) (sound : start.Sound) :
    session.Sound ∧ Pool.Grows start.pool session.pool := by
  induction run with
  | start => exact ⟨sound, Pool.Grows.of_same rfl rfl⟩
  | step _ action permitted ih =>
      obtain ⟨soundAfter, grows⟩ := ih.1.act (enabled _ _ permitted)
      exact ⟨soundAfter, ih.2.trans grows⟩

end Session

end RowStore
