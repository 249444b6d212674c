import RowStore.Proofs.Pool.Apart
import RowStore.Proofs.Session.Isolation

namespace RowStore

/-! The steps of calls: whatever a client calls for, at most one table is worked on. -/

namespace Call

/-- The table that a call works on, if it works on one. -/
def table? : Call → Option TableId
  | .fetch id _ => some id.table
  | .insert table _ _ | .place table _ _ | .remove table _ | .scan table _ _ => some table
  | .delete location => location.map fun record => record.page.table
  | .start _ => none
  | .hasNext cursor | .next cursor | .drain cursor _ => cursor.scan?.map Prod.fst

/-- What a parked call relies on when it goes on, as far as the lengths of files are concerned. -/
def Within (tx : TxId) (pool : Pool) : Call → Prop
  | .fetch _ _ | .delete _ | .scan _ _ _ => True
  | .insert table row stage => row.Kept ∧ stage.Within table pool
  | .start cursor | .hasNext cursor | .next cursor | .drain cursor _ => Scans tx cursor
  | .place _ _ _ | .remove _ _ => False

variable {pool after : Pool} {tx : TxId} {call : Call}

theorem Client.within (client : call.Client tx) (pool : Pool) : call.Within tx pool := by
  cases call with
  | insert table row stage =>
      obtain ⟨kept, rfl⟩ := client
      exact ⟨kept, trivial⟩
  | _ => exact client

/-- A call can still go on when files became longer. -/
theorem Within.keep (within : call.Within tx pool)
    (longer : ∀ table, pool.pageCount table ≤ after.pageCount table) : call.Within tx after := by
  cases call with
  | insert table row stage =>
      refine ⟨within.1, ?_⟩
      have inside := within.2
      cases stage with
      | start => trivial
      | inspecting | claiming =>
          exact fun page listed => Nat.lt_of_lt_of_le (inside page listed) (longer table)
      | appending => exact Nat.le_trans inside (longer table)
  | _ => exact within

end Call

namespace Pool

/-- Steps of a transaction on a table, or on none, which are no steps. -/
def StepsOn (tx : TxId) : Option TableId → Pool → Pool → Prop
  | none, pool, after => after = pool
  | some table, pool, after => Steps tx table pool after

variable {pool after : Pool} {tx : TxId} {table : TableId} {touched : Option TableId} {call : Call}

theorem StepsOn.grows (steps : StepsOn tx touched pool after) : Grows pool after := by
  cases touched with
  | none => exact steps ▸ Grows.of_same rfl rfl
  | some table => exact Steps.grows steps

theorem StepsOn.get?_of_ne {id : PageId} (steps : StepsOn tx touched pool after) (named : pool.Named)
    (other : touched ≠ some id.table) : after.cache.get? id = pool.cache.get? id := by
  cases touched with
  | none => exact steps ▸ rfl
  | some table => exact Steps.get?_of_ne steps named fun same => other (congrArg some same.symm)

/-- A call consists of steps on its table, and when it parks it is still on that table. -/
structure Proceeds (tx : TxId) (call : Call) (pool : Pool) (result : Pool × Stop) : Prop where
  steps : StepsOn tx call.table? pool result.1
  parked : ∀ again, result.2 = .parked again → again.Within tx result.1 ∧ again.table? = call.table?

theorem Proceeds.settle {σ α : Type} {outcome : Outcome σ α} {again : σ → Call} {write : α → Answer}
    (steps : StepsOn tx call.table? pool after)
    (proceeds : ∀ stage, outcome = .parked stage →
      (again stage).Within tx after ∧ (again stage).table? = call.table?) :
    Proceeds tx call pool (after, Call.settle outcome again write) := by
  refine ⟨steps, fun next same => ?_⟩
  cases outcome with
  | done | failed => simp [Call.settle] at same
  | parked stage =>
      cases same
      exact proceeds stage rfl

theorem Proceeds.settleQuery {α : Type} {cursor : Cursor} {outcome : Outcome Unit α}
    {again : Cursor → Call} {write : α → Answer} (steps : StepsOn tx call.table? pool after)
    (proceeds : (again cursor).Within tx after ∧ (again cursor).table? = call.table?) :
    Proceeds tx call pool (after, Call.settleQuery cursor outcome again write) := by
  refine ⟨steps, fun next same => ?_⟩
  cases outcome with
  | done | failed => simp [Call.settleQuery] at same
  | parked =>
      cases same
      exact proceeds

/-- What moving a query does: it works on the table that the query scans, and scans it on. -/
structure Moves (tx : TxId) (cursor : Cursor) (pool after : Pool) (reached : Cursor) : Prop where
  steps : StepsOn tx (cursor.scan?.map Prod.fst) pool after
  scans : Call.Scans tx reached
  same : reached.scan?.map Prod.fst = cursor.scan?.map Prod.fst

section Cursor

variable {cursor : Cursor} (scans : Call.Scans tx cursor) (pool : Pool)
include scans

theorem moves_hasNext : Moves tx cursor pool (cursor.hasNext pool).1 (cursor.hasNext pool).2.1 := by
  obtain ⟨rfl, table, label, source, plan⟩ := scans
  obtain ⟨tx, _, state⟩ := cursor
  subst plan
  cases state with
  | none => exact ⟨rfl, ⟨rfl, table, label, source, rfl⟩, rfl⟩
  | some position =>
      exact ⟨Fetching.steps (fetching_scanHasNext pool tx table position), ⟨rfl, table, label, source, rfl⟩, rfl⟩

theorem moves_next : Moves tx cursor pool (cursor.next pool).1 (cursor.next pool).2.1 := by
  obtain ⟨rfl, table, label, source, plan⟩ := scans
  obtain ⟨tx, _, state⟩ := cursor
  subst plan
  cases state with
  | none => exact ⟨rfl, ⟨rfl, table, label, source, rfl⟩, rfl⟩
  | some position =>
      exact ⟨Fetching.steps (fetching_scanNext pool tx table position), ⟨rfl, table, label, source, rfl⟩, rfl⟩

theorem moves_rest : Moves tx cursor pool (cursor.rest pool).1 (cursor.rest pool).2.1 := by
  obtain ⟨rfl, table, label, source, plan⟩ := scans
  obtain ⟨tx, _, state⟩ := cursor
  subst plan
  cases state with
  | none => exact ⟨rfl, ⟨rfl, table, label, source, rfl⟩, rfl⟩
  | some position =>
      exact ⟨Fetching.steps (fetching_scanAll pool tx table position), ⟨rfl, table, label, source, rfl⟩, rfl⟩

end Cursor

theorem Named.runCall (named : pool.Named) (within : call.Within tx pool) :
    Proceeds tx call pool (call.run tx pool) := by
  cases call with
  | fetch id mode =>
      exact Proceeds.settle (fetches pool tx id.table id.number mode).steps fun _ _ => ⟨trivial, rfl⟩
  | insert table row stage =>
      obtain ⟨kept, inside⟩ := within
      have inserts : Inserts tx table pool (pool.insert tx table row stage) := named.insert kept inside
      exact Proceeds.settle inserts.steps fun stage parked => ⟨⟨kept, inserts.within stage parked⟩, rfl⟩
  | delete location =>
      cases location with
      | none => exact ⟨rfl, fun _ same => by cases same⟩
      | some record => exact Proceeds.settle (steps_delete pool tx record) fun _ _ => ⟨trivial, rfl⟩
  | scan table position rows =>
      exact Proceeds.settle (Fetching.steps (fetching_scanAll pool tx table position)) fun _ _ => ⟨trivial, rfl⟩
  | start cursor =>
      obtain ⟨same, scans⟩ := @cursorStart pool tx cursor within
      exact Proceeds.settleQuery same ⟨scans, rfl⟩
  | hasNext cursor =>
      have moves := moves_hasNext within pool
      exact Proceeds.settleQuery moves.steps ⟨moves.scans, moves.same⟩
  | next cursor =>
      have moves := moves_next within pool
      exact Proceeds.settleQuery moves.steps ⟨moves.scans, moves.same⟩
  | drain cursor rows =>
      have moves := moves_rest within pool
      simp only [Call.run]
      generalize cursor.rest pool = result at moves ⊢
      obtain ⟨after, reached, more, outcome⟩ := result
      cases outcome with
      | done | failed => exact ⟨moves.steps, fun _ same => by cases same⟩
      | parked =>
          refine ⟨moves.steps, fun again same => ?_⟩
          cases same
          exact ⟨moves.scans, moves.same⟩
  | place | remove => exact within.elim

end Pool

/-! ## Actions -/

namespace Session

variable {session : Session} {action : SessionAction} {tx : TxId} {call : Call}

theorem act_of_call (calls : session.call? action = some (tx, call)) :
    session.act action = ((session.run tx call).1, (call.run tx session.pool).2.result?) := by
  cases action with
  | call other begun =>
      cases calls
      exact Prod.ext rfl (result_run session tx call)
  | resume other =>
      obtain ⟨waiting, found, same⟩ := Option.map_eq_some_iff.mp calls
      cases same
      simp only [Session.act, Session.resume, found]
      exact Prod.ext rfl (result_run session tx call)
  | _ => contradiction

/-- An action that runs no call works on no table, and no call comes or goes. -/
theorem act_of_idle (idle : session.call? action = none) :
    ∃ pool, (session.act action).1 = session.withPool pool ∧ pool.tables = session.pool.tables ∧
      pool.disk.nodes = session.pool.disk.nodes := by
  have flush : ∀ pages, ∃ pool, session.withPool (session.pool.flushEach pages).1 = session.withPool pool ∧
      pool.tables = session.pool.tables ∧ pool.disk.nodes = session.pool.disk.nodes := fun pages =>
    have stays := Pool.stays_flushEach session.pool pages
    ⟨_, rfl, stays.tables, stays.nodes⟩
  cases action with
  | call => contradiction
  | resume tx =>
      have missing := Option.map_eq_none_iff.mp idle
      exact ⟨session.pool, by rw [act_resume_of_missing missing]; rfl, rfl, rfl⟩
  | complete tx commit =>
      obtain ⟨middle, stays, same⟩ := Pool.stays_complete session.pool tx commit
      refine ⟨middle.releaseAll tx, ?_, stays.tables, stays.nodes⟩
      rw [← same]
      cases commit <;> rfl
  | flush tx => exact flush (session.pool.dirtyPages (some tx))
  | flushAll => exact flush (session.pool.dirtyPages none)
  | interrupt | expire | discard | limitWrites | reorder => exact ⟨_, rfl, rfl, rfl⟩

end Session

end RowStore
