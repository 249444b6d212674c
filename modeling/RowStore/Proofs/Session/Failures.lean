import RowStore.Proofs.Pool.Hindered
import RowStore.Proofs.Session.Filling

namespace RowStore

/-! Inserts and deletes that are not answered well change no data.

A call fails or parks, perhaps more than once, and pages were fetched and locks were taken
up to there. In a directory of whole files that is all that it leaves: locks, and pages
that were read into memory and that nobody changed.
-/

namespace Pool

variable {pool after : Pool} {tx : TxId}

/-- Files, tables and all pages in memory are as they were, with their rows, header bits, owners and
images. Pages that were read meanwhile are those of the files. -/
structure Preserves (pool after : Pool) : Prop where
  disk : after.disk = pool.disk
  tables : after.tables = pool.tables
  cached : ∀ id page, pool.cache.get? id = some page → after.cache.get? id = some page
  read : ∀ id page, after.cache.get? id = some page → pool.cache.get? id = none →
    page.dirty = none ∧ pool.filedPage id = .ok page

theorem filedPage_of_load {id : PageId} {page : Page} (missing : pool.cache.get? id = none)
    (loaded : (pool.load id).2 = .done page) : page.dirty = none ∧ pool.filedPage id = .ok page := by
  simp only [Pool.load, missing] at loaded
  split at loaded
  · contradiction
  · next file known =>
    split at loaded
    · contradiction
    · next page read =>
      cases loaded
      obtain ⟨_, _, decoded⟩ := TableFile.of_readPage read
      obtain ⟨_, _, _, clean, _⟩ := Page.of_decode decoded
      refine ⟨clean, ?_⟩
      rw [filedPage, known]
      exact read

theorem Reads.preserves (reads : Reads pool after) : Preserves pool after :=
  ⟨reads.disk, reads.tables, reads.cached,
    fun id page found missing => filedPage_of_load missing (reads.loaded id page found)⟩

theorem StepsOn.typed {touched : Option TableId} (steps : StepsOn tx touched pool after) (typed : pool.Typed) :
    after.Typed := by
  cases touched with
  | none => exact steps ▸ typed
  | some table => exact Steps.typed steps typed

end Pool

/-! ## What was checked before a wait -/

namespace Call

variable {pool after : Pool} {tx : TxId} {call again : Call}

theorem of_settle_parked {σ α : Type} {outcome : Outcome σ α} {next : σ → Call} {write : α → Answer}
    (parked : settle outcome next write = .parked again) : ∃ stage, outcome = .parked stage ∧ again = next stage := by
  cases outcome with
  | done | failed => simp [settle] at parked
  | parked stage =>
      cases parked
      exact ⟨stage, rfl, rfl⟩

theorem of_settleQuery_parked {α : Type} {cursor : Cursor} {outcome : Outcome Unit α} {next : Cursor → Call}
    {write : α → Answer} (parked : settleQuery cursor outcome next write = .parked again) : again = next cursor := by
  cases outcome with
  | done | failed => simp [settleQuery] at parked
  | parked =>
      cases parked
      rfl

/-- An insert that has begun has found that its row has the columns of the table. -/
def Checked (pool : Pool) : Call → Prop
  | .insert table row stage =>
      stage ≠ .start → ∃ file, pool.tables.get? table = some file ∧ row.types = file.schema.types
  | _ => True

theorem Checked.keep (checked : call.Checked pool) (grows : Pool.Grows pool after) : call.Checked after := by
  cases call with
  | insert table row stage =>
      intro begun
      obtain ⟨file, known, types⟩ := checked begun
      obtain ⟨count, _, later⟩ := grows.longer table file known
      exact ⟨_, later, types⟩
  | _ => trivial

theorem Checked.run (checked : call.Checked pool) (parked : (call.run tx pool).2 = .parked again) :
    again.Checked pool := by
  cases call with
  | insert table row stage =>
      obtain ⟨later, waits, rfl⟩ := of_settle_parked parked
      exact fun _ => Pool.types_of_parked waits checked
  | place | fetch | delete | scan =>
      obtain ⟨_, _, rfl⟩ := of_settle_parked parked
      trivial
  | remove table location =>
      simp only [Call.run] at parked
      split at parked
      · contradiction
      · obtain ⟨_, _, rfl⟩ := of_settle_parked parked
        trivial
  | start | hasNext | next =>
      cases of_settleQuery_parked parked
      trivial
  | drain cursor rows =>
      simp only [Call.run] at parked
      split at parked
      · cases parked
        trivial
      · contradiction
      · contradiction

end Call

namespace Session

variable {session after : Session} {action : SessionAction} {tx : TxId} {call : Call}

/-- Pages have the columns of their tables, and so have the rows of inserts that wait. -/
structure Typed (session : Session) : Prop where
  pool : session.pool.Typed
  parked : ∀ tx call, session.parked.get? tx = some call → call.Checked session.pool

theorem Typed.checked (typed : session.Typed) (enabled : session.Enabled action)
    (calls : session.call? action = some (tx, call)) : call.Checked session.pool := by
  cases action with
  | call other begun =>
      cases calls
      have client := enabled.2
      cases call with
      | insert table row stage =>
          obtain ⟨_, rfl⟩ := client
          exact fun begun => absurd rfl begun
      | _ => trivial
  | resume other =>
      obtain ⟨waiting, found, same⟩ := Option.map_eq_some_iff.mp calls
      cases same
      exact typed.parked tx call found
  | _ => contradiction

theorem Typed.pool_idle (typed : session.Typed) (enabled : session.Enabled action)
    (idle : session.call? action = none) : (session.act action).1.pool.Typed := by
  have pages := typed.pool
  cases action with
  | call => contradiction
  | resume other =>
      rw [act_resume_of_missing (Option.map_eq_none_iff.mp idle)]
      exact pages
  | complete other commit =>
      cases commit with
      | true => exact pages.commit other
      | false => exact pages.abort other
  | flush other => exact pages.flush (some other)
  | flushAll => exact pages.flush none
  | interrupt | expire => exact pages.withLocks _
  | limitWrites => exact ⟨pages.pages, pages.roomy⟩
  | discard page =>
      refine ⟨fun id other found => pages.pages id other ?_, pages.roomy⟩
      rw [show (session.act (.discard page)).1.pool.cache.get? id = _ from FinMap.get?_erase _ _ _] at found
      split at found
      · contradiction
      · exact found
  | reorder cache => exact ⟨fun id page found => pages.pages id page ((enabled id).symm.trans found), pages.roomy⟩

theorem Typed.act (typed : session.Typed) (inFiles : session.WithinFiles) (enabled : session.Enabled action) :
    (session.act action).1.Typed := by
  have grows := inFiles.grows enabled
  cases calls : session.call? action with
  | none =>
      refine ⟨typed.pool_idle enabled calls, fun other waiting found => ?_⟩
      obtain ⟨pool, same, _⟩ := act_of_idle calls
      refine (typed.parked other waiting ?_).keep grows
      rwa [same] at found
  | some caller =>
      obtain ⟨other, call⟩ := caller
      have checked := typed.checked enabled calls
      refine ⟨(inFiles.steps enabled calls).typed typed.pool, fun waiter waiting found => ?_⟩
      rw [act_of_call calls] at found grows ⊢
      obtain ⟨_, parked⟩ | ⟨_, before⟩ := of_parked_run session other call found
      · exact (checked.run parked).keep grows
      · exact (typed.parked waiter waiting before).keep grows

theorem Typed.addTable (typed : session.Typed) (inFiles : session.WithinFiles) {opening : Opening} {disk : Disk}
    {file : TableFile} (made : TableFile.openAt session.pool.disk opening.path opening.schema opening.pageSize =
      .ok (disk, file)) : (session.withPool ({ session.pool with disk }.addTable file)).Typed := by
  refine ⟨typed.pool.addTable inFiles.pool made, fun other waiting found => ?_⟩
  have checked := typed.parked other waiting found
  cases waiting with
  | insert table row stage =>
      intro begun
      obtain ⟨known, before, types⟩ := checked begun
      refine ⟨known, ?_, types⟩
      change ({ session.pool with disk }.addTable file).tables.get? table = _
      rw [Pool.get?_addTable]
      split
      · next same => rw [← same, before, Option.getD_some]
      · exact before
  | _ => trivial

theorem Typed.develops (typed : session.Typed) (inFiles : session.WithinFiles)
    (step : session.Develops Enabled after) :
    after.Typed := by
  cases step with
  | created made =>
      obtain ⟨disk, file, opened, _, rfl⟩ := createTable_eq_ok made
      obtain ⟨pages, parked⟩ := @Typed.addTable _ typed inFiles ⟨_, _, _⟩ _ _ opened
      exact ⟨pages, parked⟩
  | registered made => exact typed.addTable inFiles made
  | acted enabled => exact typed.act inFiles enabled
  | released tx page =>
      refine ⟨typed.pool.withLocks _, fun other waiting found => ?_⟩
      exact (typed.parked other waiting found).keep (.of_same rfl rfl)

theorem Reached.typed (reached : Reached session) : session.Typed := by
  induction reached with
  | opened sound made =>
      obtain ⟨_, _, rfl⟩ := openAt_eq_ok made
      refine ⟨⟨fun _ _ found => ?_, fun _ _ found => ?_⟩, fun _ _ found => ?_⟩ <;> contradiction
  | developed before step ih => exact ih.develops before.inFiles step

/-! ## Calls that are not answered well -/

theorem stops_of_evenlyReached (even : EvenlyReached session) (enabled : session.Enabled action)
    {table : TableId} {row : Row} {stage : InsertStage}
    (calls : session.call? action = some (tx, .insert table row stage)) :
    Pool.Stops tx table row session.pool (session.pool.insert tx table row stage) := by
  have reached := even.reached
  have inFiles := reached.inFiles
  exact inFiles.pool.stops_insert reached.typed.pool reached.tailsAndWaits.tails (fun _ => even.whole)
    (inFiles.within enabled calls).2 (reached.typed.checked enabled calls)

/-- Whatever stops an insert or a delete, and whether it began or went on with what it is stopped in, no
data has changed; and no insert finds that its page is full. A delete can also fail by a panic, when
it names a slot past the last one of its page (`Page.delete_stray`), and then does clear a header bit. -/
theorem preserves_of_evenlyReached (even : EvenlyReached session) (enabled : session.Enabled action) :
    (∀ table row stage, session.call? action = some (tx, .insert table row stage) →
      ((session.act action).2 ≠ some (.ok .nothing) →
        Pool.Preserves session.pool (session.act action).1.pool) ∧
      ∀ page, (session.act action).2 ≠ some (.error (.pageFull page))) ∧
    ∀ location, session.call? action = some (tx, .delete location) →
      (session.act action).2 ≠ some (.ok .nothing) → (session.act action).2 ≠ some (.error .indexOutOfRange) →
        Pool.Preserves session.pool (session.act action).1.pool := by
  refine ⟨fun table row stage calls => ?_, fun location calls unanswered inside => ?_⟩
  · have stops := stops_of_evenlyReached even enabled calls
    rw [pool_of_insert calls]
    rw [act_of_call calls]
    simp only [Call.run]
    generalize session.pool.insert tx table row stage = result at stops ⊢
    obtain ⟨pool, outcome⟩ := result
    cases outcome with
    | done number => exact ⟨fun unanswered => absurd rfl unanswered, fun page full => by cases full⟩
    | parked again => exact ⟨fun _ => stops.1.toReads.preserves, fun page full => by cases full⟩
    | failed error =>
        refine ⟨fun _ => stops.1.toReads.preserves, fun page full => stops.2.ne_pageFull page ?_⟩
        cases full
        rfl
  · have cases := even.reached.inFiles.pool.delete_cases tx location
    rw [act_of_call calls] at unanswered inside ⊢
    simp only [pool_run, Call.run] at unanswered inside ⊢
    obtain ⟨number, done⟩ | strays | reads := cases
    · exact absurd (by rw [done]; rfl) unanswered
    · exact absurd (by rw [strays]; rfl) inside
    · exact reads.preserves

/-- A row was inserted and not committed, and another insert waits to look at its page and is then
interrupted. -/
def interruptedSession : Session :=
  (((integerSession.act (.insert ⟨1⟩ integerFile.id (unplacedInteger 7))).1.act
    (.insert ⟨2⟩ integerFile.id (unplacedInteger 8))).1.act (.interrupt ⟨2⟩)).1

theorem evenlyReached_interruptedSession : EvenlyReached interruptedSession := by
  have stored := evenlyReached_integerSession.act (enabled_unplacedInteger ⟨1⟩ 7 rfl)
  have parked := stored.act (enabled_unplacedInteger ⟨2⟩ 8 (by decide +kernel))
  exact parked.act trivial

/-- A delete from the slot after the row that was inserted. -/
def emptyDelete : SessionAction := .call ⟨1⟩ (.delete (some ⟨⟨integerFile.id, 0⟩, 1⟩))

set_option maxRecDepth 4000 in
/-- The insert that waited fails when it goes on, and so does a delete that finds no row. -/
theorem preserves_of_interruptedInsert :
    (interruptedSession.act (.resume ⟨2⟩)).2 = some (.error (.aborted ⟨2⟩ .interrupted)) ∧
      Pool.Preserves interruptedSession.pool (interruptedSession.act (.resume ⟨2⟩)).1.pool ∧
      (interruptedSession.act emptyDelete).2 = some (.error (.slotEmpty ⟨integerFile.id, 0⟩ 1)) ∧
      Pool.Preserves interruptedSession.pool (interruptedSession.act emptyDelete).1.pool := by
  have even := evenlyReached_interruptedSession
  have aborts : (interruptedSession.act (.resume ⟨2⟩)).2 = some (.error (.aborted ⟨2⟩ .interrupted)) := by
    decide +kernel
  have refuses : (interruptedSession.act emptyDelete).2 = some (.error (.slotEmpty ⟨integerFile.id, 0⟩ 1)) := by
    decide +kernel
  have woken : interruptedSession.Enabled (.resume ⟨2⟩) := show _ ∈ _ by decide +kernel
  have free : interruptedSession.Enabled emptyDelete := ⟨by decide +kernel, trivial⟩
  obtain ⟨inserts, _⟩ := @preserves_of_evenlyReached _ _ ⟨2⟩ even woken
  obtain ⟨_, deletes⟩ := @preserves_of_evenlyReached _ _ ⟨1⟩ even free
  obtain ⟨kept, _⟩ := inserts integerFile.id (unplacedInteger 8) (.inspecting 0 false [])
    (by with_unfolding_all rfl)
  exact ⟨aborts, kept (by simp [aborts]), refuses, deletes _ rfl (by simp [refuses]) (by simp [refuses])⟩

end Session
end RowStore
