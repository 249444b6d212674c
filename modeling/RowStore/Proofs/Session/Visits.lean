import RowStore.Proofs.Pool.Calls
import RowStore.Proofs.Session.Run

namespace RowStore

/-! The pages that calls of a session hand out, and the pages that they change. -/

/-- Where a plan that scans a table stands, once it was started. -/
def Plan.scan? : (plan : Plan) → plan.State → Option (TableId × ScanPosition)
  | .scan table _ _, (position : Option ScanPosition) => position.map fun position => (table, position)
  | _, _ => none

def Cursor.scan? (cursor : Cursor) : Option (TableId × ScanPosition) := cursor.plan.scan? cursor.state

namespace Call

/-- The pages that a call hands out. Of queries, only those that scan a table come by here. -/
def visits (tx : TxId) (pool : Pool) : Call → List Visit
  | .fetch id mode => pool.fetchVisits tx id mode fun _ _ => []
  | .insert table row stage | .place table row stage => pool.insertVisits tx table row stage
  | .delete location => pool.deleteVisits tx location
  | .remove table location =>
      match pool.table? table with
      | .error _ => []
      | .ok file => pool.removeVisits tx file location
  | .scan table position _ => pool.scanAllVisits tx table position
  | .start _ => []
  | .hasNext cursor | .next cursor =>
      match cursor.scan? with
      | some (table, position) => pool.scanHasNextVisits cursor.tx table position
      | none => []
  | .drain cursor _ =>
      match cursor.scan? with
      | some (table, position) => pool.scanAllVisits cursor.tx table position
      | none => []

def inserts : Call → Bool
  | .insert _ _ _ => true
  | _ => false

/-- What a parked call relies on when it goes on, as far as locks are concerned. -/
def Resumable (tx : TxId) (pool : Pool) : Call → Prop
  | .fetch _ _ | .delete _ | .scan _ _ _ => True
  | .insert table row stage => row.Kept ∧ stage.Unheld tx table pool
  | .start cursor | .hasNext cursor | .next cursor | .drain cursor _ => Scans tx cursor
  | .place _ _ _ | .remove _ _ => False

variable {pool after : Pool} {tx : TxId} {call : Call}

theorem Client.resumable (client : call.Client tx) (pool : Pool) : call.Resumable tx pool := by
  cases call with
  | insert table row stage =>
      obtain ⟨kept, rfl⟩ := client
      exact ⟨kept, trivial⟩
  | _ => exact client

theorem of_settle {σ α : Type} {outcome : Outcome σ α} {again : σ → Call} {write : α → Answer}
    {answer : Answer} (answered : (settle outcome again write).result? = some (.ok answer)) :
    ∃ value, outcome = .done value ∧ answer = write value := by
  cases outcome with
  | done value =>
      cases answered
      exact ⟨value, rfl, rfl⟩
  | failed | parked => simp [settle, Stop.result?] at answered

theorem of_settleQuery {α : Type} {cursor : Cursor} {outcome : Outcome Unit α}
    {again : Cursor → Call} {write : α → Answer} {answer : Answer}
    (answered : (settleQuery cursor outcome again write).result? = some (.ok answer)) :
    ∃ value, outcome = .done value ∧ answer = write value := by
  cases outcome with
  | done value =>
      cases answered
      exact ⟨value, rfl, rfl⟩
  | failed | parked => simp [settleQuery, Stop.result?] at answered

/-- A page that a call answers with is one that it hands out. -/
theorem visit_of_page {page : Page} (answered : (call.run tx pool).2.result? = some (.ok (.page page))) :
    ∃ visit ∈ call.visits tx pool, visit.page = page := by
  cases call with
  | fetch id mode =>
      obtain ⟨_, done, same⟩ := of_settle answered
      cases same
      change (pool.fetch tx id mode).2 = .done page at done
      refine ⟨⟨tx, id, mode, page⟩, ?_, rfl⟩
      rw [visits, Pool.fetchVisits]
      generalize pool.fetch tx id mode = result at done ⊢
      obtain ⟨after, outcome⟩ := result
      cases done
      exact List.mem_cons_self
  | insert | delete | scan | place =>
      obtain ⟨_, _, same⟩ := of_settle answered
      contradiction
  | start | hasNext | next =>
      obtain ⟨_, _, same⟩ := of_settleQuery answered
      contradiction
  | remove table location =>
      simp only [run] at answered
      split at answered
      · simp [Stop.result?] at answered
      · obtain ⟨_, _, same⟩ := of_settle answered
        contradiction
  | drain cursor rows =>
      simp only [run] at answered
      split at answered <;> simp [Stop.result?] at answered

/-- A call can still go on when its transaction holds nothing new. -/
theorem Resumable.keep (resumable : call.Resumable tx pool)
    (fewer : ∀ id, after.locks.Has tx id .shared → pool.locks.Has tx id .shared) :
    call.Resumable tx after := by
  cases call with
  | insert table row stage =>
      refine ⟨resumable.1, ?_⟩
      cases stage with
      | inspecting number heldBefore rest => exact mt (fewer _) resumable.2
      | start | claiming | appending => trivial
  | _ => exact resumable

end Call

namespace Pool

variable {pool middle after : Pool} {tx : TxId} {call : Call}

/-- A call handed out pages up to the state in the middle, and then changed some if it was to. -/
structure Called (tx : TxId) (call : Call) (pool middle : Pool) (result : Pool × Stop) : Prop where
  walked : Walked tx call.inserts pool (call.visits tx pool) middle
  rewrites : Rewrites tx middle result.1
  reads : call.write? = none → result.1 = middle
  parked : ∀ again, result.2 = .parked again → again.Resumable tx result.1

theorem Called.ofWalked {result : Pool × Stop} (walked : Walked tx call.inserts pool (call.visits tx pool) result.1)
    (parked : ∀ again, result.2 = .parked again → again.Resumable tx result.1) :
    Called tx call pool result.1 result :=
  ⟨walked, Rewrites.of_same walked.guarded rfl rfl, fun _ => rfl, parked⟩

theorem Called.settle {σ α : Type} {outcome : Outcome σ α} {again : σ → Call} {write : α → Answer}
    (walked : Walked tx call.inserts pool (call.visits tx pool) after)
    (proceeds : ∀ stage, (again stage).Resumable tx after) :
    ∃ middle, Called tx call pool middle (after, Call.settle outcome again write) := by
  refine ⟨after, @Called.ofWalked pool tx call (after, _) walked fun next same => ?_⟩
  cases outcome with
  | done | failed => simp [Call.settle] at same
  | parked stage =>
      cases same
      exact proceeds stage

theorem Called.settleQuery {α : Type} {cursor : Cursor} {outcome : Outcome Unit α}
    {again : Cursor → Call} {write : α → Answer}
    (walked : Walked tx call.inserts pool (call.visits tx pool) after)
    (proceeds : (again cursor).Resumable tx after) :
    ∃ middle, Called tx call pool middle (after, Call.settleQuery cursor outcome again write) := by
  refine ⟨after, @Called.ofWalked pool tx call (after, _) walked fun next same => ?_⟩
  cases outcome with
  | done | failed => simp [Call.settleQuery] at same
  | parked =>
      cases same
      exact proceeds

section Cursor

variable (guarded : pool.Guarded) {cursor : Cursor} (scans : Call.Scans tx cursor)
include guarded scans

theorem Guarded.cursorHasNext :
    Walked tx false pool ((Call.hasNext cursor).visits tx pool) (cursor.hasNext pool).1 ∧
      Call.Scans tx (cursor.hasNext pool).2.1 := by
  obtain ⟨rfl, table, label, source, plan⟩ := scans
  obtain ⟨tx, _, state⟩ := cursor
  subst plan
  refine ⟨?_, rfl, table, label, source, rfl⟩
  cases state with
  | none => exact Walked.stay guarded
  | some position => exact guarded.scanHasNext tx table position

theorem Guarded.cursorNext :
    Walked tx false pool ((Call.next cursor).visits tx pool) (cursor.next pool).1 ∧
      Call.Scans tx (cursor.next pool).2.1 := by
  obtain ⟨rfl, table, label, source, plan⟩ := scans
  obtain ⟨tx, _, state⟩ := cursor
  subst plan
  refine ⟨?_, rfl, table, label, source, rfl⟩
  cases state with
  | none => exact Walked.stay guarded
  | some position => exact guarded.scanNext tx table position

theorem Guarded.cursorRest (rows : List Row) :
    Walked tx false pool ((Call.drain cursor rows).visits tx pool) (cursor.rest pool).1 ∧
      Call.Scans tx (cursor.rest pool).2.1 := by
  obtain ⟨rfl, table, label, source, plan⟩ := scans
  obtain ⟨tx, _, state⟩ := cursor
  subst plan
  refine ⟨?_, rfl, table, label, source, rfl⟩
  cases state with
  | none => exact Walked.stay guarded
  | some position => exact guarded.scanAll tx table position

omit guarded in
theorem cursorStart :
    (cursor.start pool).1 = pool ∧ Call.Scans tx (cursor.start pool).2.1 := by
  obtain ⟨rfl, table, label, source, plan⟩ := scans
  obtain ⟨tx, _, state⟩ := cursor
  subst plan
  exact ⟨rfl, rfl, table, label, source, rfl⟩

end Cursor

theorem Guarded.runCall (guarded : pool.Guarded) (resumable : call.Resumable tx pool) :
    ∃ middle, Called tx call pool middle (call.run tx pool) := by
  cases call with
  | fetch id mode =>
      exact Called.settle (guarded.walkFetch tx id mode) fun _ => trivial
  | insert table row stage =>
      obtain ⟨middle, seated⟩ := guarded.insert resumable.1 resumable.2
      refine ⟨middle, seated.walked, seated.rewrites, by simp [Call.write?], fun again same => ?_⟩
      simp only [Call.run] at same ⊢
      generalize pool.insert tx table row stage = result at seated same ⊢
      obtain ⟨after, outcome⟩ := result
      cases outcome with
      | done | failed => simp [Call.settle] at same
      | parked stage =>
          cases same
          exact ⟨resumable.1, seated.parked stage rfl⟩
  | delete location =>
      cases location with
      | none =>
          refine ⟨pool, @Called.ofWalked pool tx (.delete none) (pool, _) (Walked.stay guarded) ?_⟩
          intro again same
          cases same
      | some record =>
          obtain ⟨middle, walked, rewrites⟩ := guarded.delete tx (some record)
          refine ⟨middle, walked, rewrites, by simp [Call.write?], fun again same => ?_⟩
          simp only [Call.run] at same
          generalize (pool.delete tx (some record)).2 = outcome at same
          cases outcome with
          | done | failed => simp [Call.settle] at same
          | parked =>
              cases same
              trivial
  | scan table position rows =>
      exact Called.settle (guarded.scanAll tx table position) fun _ => trivial
  | start cursor =>
      obtain ⟨same, scans⟩ := @cursorStart pool tx cursor resumable
      exact Called.settleQuery (same.symm ▸ Walked.stay guarded) scans
  | hasNext cursor =>
      obtain ⟨walked, scans⟩ := guarded.cursorHasNext resumable
      exact Called.settleQuery walked scans
  | next cursor =>
      obtain ⟨walked, scans⟩ := guarded.cursorNext resumable
      exact Called.settleQuery walked scans
  | drain cursor rows =>
      obtain ⟨walked, scans⟩ := guarded.cursorRest resumable rows
      simp only [Call.run]
      generalize cursor.rest pool = result at walked scans ⊢
      obtain ⟨after, reached, more, outcome⟩ := result
      cases outcome with
      | done | failed =>
          exact ⟨after, @Called.ofWalked pool tx (.drain cursor rows) (after, _) walked (by simp)⟩
      | parked =>
          refine ⟨after, @Called.ofWalked pool tx (.drain cursor rows) (after, _) walked fun again same => ?_⟩
          cases same
          exact scans
  | place | remove => exact resumable.elim

/-! ## What a call leaves to the others -/

/-- The page in memory holds something else than before, in memory or in its file. -/
def Differs (pool after : Pool) (id : PageId) : Prop :=
  ∃ page, after.cache.get? id = some page ∧
    ∀ before, (pool.load id).2 = .done before → before.contents ≠ page.contents

section Called

variable {result : Pool × Stop} {holder : TxId} {id : PageId} {page : Page}
variable (called : Called tx call pool middle result)
include called

/-- A page that differs from before is in the hands of the caller. -/
theorem Called.has_of_differs (differs : Differs pool result.1 id) :
    result.1.locks.Has tx id .exclusive := by
  obtain ⟨page, found, other⟩ := differs
  rw [called.rewrites.locks]
  rcases called.rewrites.pages id with same | written
  · have loaded := called.walked.reads.loaded id page (same ▸ found)
    exact absurd rfl (other page loaded)
  · exact written

/-- A page that somebody holds while the call changes pages shows what it showed, unless its holder
called for a change. -/
theorem Called.rewritten (has : middle.locks.Has holder id .shared)
    (found : middle.cache.get? id = some page) :
    ∃ now, result.1.cache.get? id = some now ∧
      (now.contents = page.contents ∨ holder = tx ∧ call.write? ≠ none) := by
  cases write : call.write? with
  | none =>
      rw [called.reads write]
      exact ⟨page, found, Or.inl rfl⟩
  | some _ =>
      have cached := called.rewrites.cached id
      rw [found, Option.isSome_some, Option.isSome_iff_exists] at cached
      obtain ⟨now, known⟩ := cached
      refine ⟨now, known, ?_⟩
      -- A changed page is locked to write by the caller, so the caller is the only holder.
      rcases called.rewrites.pages id with same | written
      · rw [known, found] at same
        cases same
        exact Or.inl rfl
      · exact Or.inr ⟨called.walked.guarded.locks.eq_of_has written has, by simp⟩

theorem Called.shows (has : pool.locks.Has holder id .shared) (found : pool.cache.get? id = some page) :
    ∃ now, result.1.cache.get? id = some now ∧
      (now.contents = page.contents ∨ holder = tx ∧ call.write? ≠ none) :=
  called.rewritten (called.walked.keeps holder id .shared has) (called.walked.reads.cached id page found)

/-- Every page that a call reads into memory is one that it hands out. -/
theorem Called.visit_of_loaded (missing : pool.cache.get? id = none)
    (loaded : result.1.cache.get? id = some page) : ∃ visit ∈ call.visits tx pool, visit.id = id := by
  rcases called.walked.listed id with same | listed
  · have cached := called.rewrites.cached id
    simp [same, missing, loaded] at cached
  · exact listed

end Called

end Pool

end RowStore
