import Mathlib.Data.List.Basic
import RowStore.Proofs.Pool.Change
import RowStore.Proofs.Pool.Complete
import RowStore.Proofs.Pool.Scan
import RowStore.Session

namespace RowStore

/-! Histories of a session.

Each transaction makes one call at a time, and any number of transactions take
turns. A call that parked goes on at some time after it was woken. Writes can
begin to fail at any time, and in which order changed pages are written is up
to the pool. Which actions are allowed is a parameter of a run.
-/

/-- What happens to a session from outside. -/
inductive SessionAction where
  | call (tx : TxId) (call : Call)
  | resume (tx : TxId)
  | complete (tx : TxId) (commit : Bool)
  | interrupt (tx : TxId)
  | expire (overdue : Waiter → Bool)
  | flush (tx : TxId)
  | flushAll
  | discard (page : PageId)
  /-- Writes fail from now on, after some more of them went well; or they no longer fail. -/
  | limitWrites (fail : Bool) (left : Nat)
  /-- The pages in memory stand in another order. -/
  | reorder (cache : FinMap PageId Page)

structure SessionEvent where
  action : SessionAction
  result : Option (Except StoreError Answer)

namespace Call

def write? : Call → Option RowWrite
  | .insert table row _ => some (.insert table row.values)
  | .delete location => location.map .delete
  | _ => none

/-- A query that scans a table, for a transaction. -/
def Scans (tx : TxId) (cursor : Cursor) : Prop :=
  cursor.tx = tx ∧ ∃ table label source, cursor.plan = .scan table label source

/-- A call as a client begins it: pages are fetched and scanned, and rows are inserted and deleted
together with their marks. A row that is built for a table keeps its values (`Schema.kept_row`). -/
def Client (tx : TxId) : Call → Prop
  | .fetch _ _ | .delete _ | .scan _ _ _ => True
  | .insert _ row stage => row.Kept ∧ stage = .start
  | .start cursor | .hasNext cursor | .next cursor | .drain cursor _ => Scans tx cursor
  | .place _ _ _ | .remove _ _ => False

/-- What a parked call relies on when it goes on. -/
def Ready (tx : TxId) (pool : Pool) : Call → Prop
  | .fetch _ _ | .delete _ | .scan _ _ _ => True
  | .insert table row stage => row.Kept ∧ stage.Ready tx table pool
  | .start cursor | .hasNext cursor | .next cursor | .drain cursor _ => Scans tx cursor
  | .place _ _ _ | .remove _ _ => False

end Call

def Stop.result? : Stop → Option (Except StoreError Answer)
  | .finished reply => some reply.result
  | .parked _ => none

namespace Session

def settlePool {α : Type} (session : Session) (result : Pool × Except StoreError α) :
    Session × Option (Except StoreError Answer) :=
  (session.withPool result.1, some (result.2.map fun _ => .nothing))

def act (session : Session) : SessionAction → Session × Option (Except StoreError Answer)
  | .call tx call =>
      let (session, reply) := session.run tx call
      (session, reply.map Reply.result)
  | .resume tx =>
      let (session, reply) := session.resume tx
      (session, reply.map Reply.result)
  | .complete tx true => session.settlePool (session.pool.commit tx)
  | .complete tx false => session.settlePool (session.pool.abort tx)
  | .interrupt tx => (session.withPool (session.pool.interrupt tx), none)
  | .expire overdue =>
      (session.withPool { session.pool with locks := session.pool.locks.expire overdue }, none)
  | .flush tx => session.settlePool (session.pool.flush tx)
  | .flushAll => session.settlePool session.pool.flushAll
  | .discard page => (session.withPool (session.pool.discard page), none)
  | .limitWrites fail left =>
      (session.withPool
        { session.pool with disk := { session.pool.disk with failWrites := fail, writesLeft := left } },
        none)
  | .reorder cache => (session.withPool { session.pool with cache }, none)

def event (session : Session) (action : SessionAction) : SessionEvent :=
  ⟨action, (session.act action).2⟩

/-- A transaction makes its next call when it heard the answer to the one before, and a parked call
goes on when it was woken. -/
def Enabled (session : Session) : SessionAction → Prop
  | .call tx call => session.isParked tx = false ∧ call.Client tx
  | .resume tx => tx ∈ session.pool.locks.awake
  | .reorder cache => ∀ page, cache.get? page = session.pool.cache.get? page
  | _ => True

/-- The histories of a session under allowed actions, with the session that each leads to. The
newest event comes first. -/
inductive Run (allowed : Session → SessionAction → Prop) (start : Session) :
    List SessionEvent → Session → Prop where
  | start : Run allowed start [] start
  | step {history : List SessionEvent} {session : Session} (before : Run allowed start history session)
      (action : SessionAction) (permitted : allowed session action) :
      Run allowed start (session.event action :: history) (session.act action).1

section RunCall

variable (session : Session) (tx : TxId) (call : Call)

theorem pool_run : (session.run tx call).1.pool = (call.run tx session.pool).1 := by
  unfold Session.run
  split <;> next same => rw [same]; rfl

theorem result_run : (session.run tx call).2.map Reply.result = (call.run tx session.pool).2.result? := by
  unfold Session.run
  split <;> next same => rw [same]; rfl

/-- Nothing goes on for a transaction of which no call is parked. -/
theorem act_resume_of_missing {session : Session} {tx : TxId} (missing : session.parked.get? tx = none) :
    session.act (.resume tx) = (session, none) := by
  simp [Session.act, Session.resume, missing]

/-- A parked call is the one that just parked, or it was parked before. -/
theorem of_parked_run {other : TxId} {waiting : Call}
    (found : (session.run tx call).1.parked.get? other = some waiting) :
    (other = tx ∧ (call.run tx session.pool).2 = .parked waiting) ∨
      (other ≠ tx ∧ session.parked.get? other = some waiting) := by
  unfold Session.run at found
  split at found
  · change (session.parked.erase tx).get? other = _ at found
    rw [FinMap.get?_erase] at found
    split at found
    · contradiction
    · next differs => exact Or.inr ⟨differs, found⟩
  · next again same =>
    change (session.parked.insert tx again).get? other = _ at found
    rw [FinMap.get?_insert] at found
    split at found
    · next here =>
      cases found
      exact Or.inl ⟨here, by rw [same]⟩
    · next differs => exact Or.inr ⟨differs, found⟩

end RunCall

end Session

/-! ## What a call does to the pool -/

namespace Pool

variable {pool after : Pool} {tx : TxId} {call : Call}

/-- A call that is answered well has changed what it asked to change, and every other call has
changed no row. A call that parks can go on. -/
def CallEnds (tx : TxId) (call : Call) (pool : Pool) : Pool × Stop → Prop
  | (after, .finished reply) =>
      (∃ write answer, call.write? = some write ∧ reply.result = .ok answer ∧ Writes tx write pool after) ∨
      ((call.write? = none ∨ ∃ error, reply.result = .error error) ∧ Quiet tx pool after)
  | (after, .parked again) => Quiet tx pool after ∧ again.Ready tx after ∧ again.write? = call.write?

theorem CallEnds.of_parked {result : Pool × Stop} {again : Call} (ends : CallEnds tx call pool result)
    (parked : result.2 = .parked again) :
    Quiet tx pool result.1 ∧ again.Ready tx result.1 ∧ again.write? = call.write? := by
  obtain ⟨after, stop⟩ := result
  subst parked
  exact ends

theorem CallEnds.settle {σ α : Type} {outcome : Outcome σ α} {again : σ → Call} {write : α → Answer}
    (quiet : Quiet tx pool after) (reads : call.write? = none)
    (proceeds : ∀ stage, outcome = .parked stage →
      (again stage).Ready tx after ∧ (again stage).write? = none) :
    CallEnds tx call pool (after, Call.settle outcome again write) := by
  cases outcome with
  | done | failed => exact Or.inr ⟨Or.inl reads, quiet⟩
  | parked stage =>
      obtain ⟨ready, same⟩ := proceeds stage rfl
      exact ⟨quiet, ready, same.trans reads.symm⟩

theorem CallEnds.settleQuery {α : Type} {cursor : Cursor} {outcome : Outcome Unit α}
    {again : Cursor → Call} {write : α → Answer} (quiet : Quiet tx pool after)
    (reads : call.write? = none)
    (proceeds : (again cursor).Ready tx after ∧ (again cursor).write? = none) :
    CallEnds tx call pool (after, Call.settleQuery cursor outcome again write) := by
  cases outcome with
  | done | failed => exact Or.inr ⟨Or.inl reads, quiet⟩
  | parked => exact ⟨quiet, proceeds.1, proceeds.2.trans reads.symm⟩

section Cursor

variable (coherent : pool.Coherent) {cursor : Cursor} (scans : Call.Scans tx cursor)
include coherent scans

theorem Coherent.cursorStart : Quiet tx pool (cursor.start pool).1 ∧
    Call.Scans tx (cursor.start pool).2.1 := by
  obtain ⟨rfl, table, label, source, plan⟩ := scans
  obtain ⟨tx, _, state⟩ := cursor
  subst plan
  exact ⟨Quiet.refl tx coherent, rfl, table, label, source, rfl⟩

theorem Coherent.cursorHasNext : Quiet tx pool (cursor.hasNext pool).1 ∧
    Call.Scans tx (cursor.hasNext pool).2.1 := by
  obtain ⟨rfl, table, label, source, plan⟩ := scans
  obtain ⟨tx, _, state⟩ := cursor
  subst plan
  refine ⟨?_, rfl, table, label, source, rfl⟩
  cases state with
  | none => exact Quiet.refl tx coherent
  | some position => exact coherent.scanHasNext tx table position

theorem Coherent.cursorNext : Quiet tx pool (cursor.next pool).1 ∧
    Call.Scans tx (cursor.next pool).2.1 := by
  obtain ⟨rfl, table, label, source, plan⟩ := scans
  obtain ⟨tx, _, state⟩ := cursor
  subst plan
  refine ⟨?_, rfl, table, label, source, rfl⟩
  cases state with
  | none => exact Quiet.refl tx coherent
  | some position => exact coherent.scanNext tx table position

theorem Coherent.cursorRest : Quiet tx pool (cursor.rest pool).1 ∧
    Call.Scans tx (cursor.rest pool).2.1 := by
  obtain ⟨rfl, table, label, source, plan⟩ := scans
  obtain ⟨tx, _, state⟩ := cursor
  subst plan
  refine ⟨?_, rfl, table, label, source, rfl⟩
  cases state with
  | none => exact Quiet.refl tx coherent
  | some position => exact coherent.scanAll tx table position

end Cursor

theorem Coherent.runCall (coherent : pool.Coherent) (ready : call.Ready tx pool) :
    CallEnds tx call pool (call.run tx pool) := by
  cases call with
  | fetch page mode =>
      exact CallEnds.settle (coherent.fetch tx page mode).quiet rfl fun _ _ => ⟨trivial, rfl⟩
  | insert table row stage =>
      have ends := coherent.insert ready.1 ready.2
      simp only [Call.run]
      generalize pool.insert tx table row stage = result at ends ⊢
      obtain ⟨after, outcome⟩ := result
      cases outcome with
      | done => exact Or.inl ⟨_, _, rfl, rfl, ends⟩
      | failed error => exact Or.inr ⟨Or.inr ⟨error, rfl⟩, ends⟩
      | parked => exact ⟨ends.1, ⟨ready.1, ends.2⟩, rfl⟩
  | delete location =>
      have ends := coherent.delete tx location
      simp only [Call.run]
      generalize pool.delete tx location = result at ends ⊢
      obtain ⟨after, outcome⟩ := result
      cases outcome with
      | done =>
          obtain ⟨record, rfl, writes⟩ := ends
          exact Or.inl ⟨_, _, rfl, rfl, writes⟩
      | failed error => exact Or.inr ⟨Or.inr ⟨error, rfl⟩, ends⟩
      | parked => exact ⟨ends, trivial, rfl⟩
  | scan table position rows =>
      exact CallEnds.settle (coherent.scanAll tx table position) rfl fun _ _ => ⟨trivial, rfl⟩
  | start cursor =>
      obtain ⟨quiet, scans⟩ := coherent.cursorStart ready
      exact CallEnds.settleQuery quiet rfl ⟨scans, rfl⟩
  | hasNext cursor =>
      obtain ⟨quiet, scans⟩ := coherent.cursorHasNext ready
      exact CallEnds.settleQuery quiet rfl ⟨scans, rfl⟩
  | next cursor =>
      obtain ⟨quiet, scans⟩ := coherent.cursorNext ready
      exact CallEnds.settleQuery quiet rfl ⟨scans, rfl⟩
  | drain cursor rows =>
      obtain ⟨quiet, scans⟩ := coherent.cursorRest ready
      simp only [Call.run]
      generalize cursor.rest pool = result at quiet scans ⊢
      obtain ⟨after, reached, more, outcome⟩ := result
      cases outcome with
      | done | failed => exact Or.inr ⟨Or.inl rfl, quiet⟩
      | parked => exact ⟨quiet, scans, rfl⟩
  | place | remove => exact ready.elim

end Pool

end RowStore
