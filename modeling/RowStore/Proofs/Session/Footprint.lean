import RowStore.Proofs.Session.PastEnd

namespace RowStore

/-! What an insert leaves locked.

An insert may park and go on any number of times, while others do as they like. When it is
done its transaction has what it had before, and the page that got the row, to write. Full
pages that it looked at are given up, and those that it waited to write are not: when one of
these was filled during the wait, the transaction keeps it locked to write.
-/

namespace InsertStage

/-- The page that an insert waits to write. -/
def target? : InsertStage → Option Nat
  | .start | .inspecting _ _ _ => none
  | .claiming number _ | .appending number => some number

end InsertStage

namespace Pool

variable {start pool after : Pool} {tx : TxId} {table : TableId} {row : Row} {number receiver : Nat}
variable {strays : List Nat} {held : PageId → LockMode → Prop} {stage : InsertStage}

/-- An insert overruns the page that it waited to write when it is granted the page and finds it full. -/
theorem mem_overrun_iff : number ∈ pool.overrun tx table stage ↔ stage.target? = some number ∧
    ∃ page, (pool.fetch tx ⟨table, number⟩ .exclusive).2 = .done page ∧ page.isFull = true := by
  have overran : ∀ other, number ∈ pool.strayOn tx table other ↔ some other = some number ∧
      ∃ page, (pool.fetch tx ⟨table, number⟩ .exclusive).2 = .done page ∧ page.isFull = true := by
    intro other
    unfold Pool.strayOn
    split
    · next page done =>
      split
      · next full =>
        rw [List.mem_singleton, Option.some_inj]
        exact ⟨fun same => ⟨same.symm, page, same ▸ done, full⟩, fun both => both.1.symm⟩
      · next room =>
        refine ⟨fun listed => by contradiction, ?_⟩
        rintro ⟨same, again, granted, full⟩
        cases same
        cases done.symm.trans granted
        exact absurd full room
    · next stopped =>
      refine ⟨fun listed => by contradiction, ?_⟩
      rintro ⟨same, page, granted, _⟩
      cases same
      exact absurd granted (stopped page)
  cases stage with
  | start | inspecting => simp [overrun, InsertStage.target?]
  | claiming other rest => exact overran other
  | appending other => exact overran other

/-- What a transaction has locked: what it had before, one more page to write, and strays to write. -/
structure Footprint (tx : TxId) (table : TableId) (receiver : Nat) (strays : List Nat) (start after : Pool) :
    Prop where
  holds : ∀ id, id ∈ after.locks.heldPages tx ↔
    id ∈ start.locks.heldPages tx ∨ id = ⟨table, receiver⟩ ∨ ∃ number ∈ strays, id = ⟨table, number⟩
  writes : ∀ id, after.locks.Has tx id .exclusive ↔
    start.locks.Has tx id .exclusive ∨ id = ⟨table, receiver⟩ ∨ ∃ number ∈ strays, id = ⟨table, number⟩

/-- Strays that one has anyway add nothing. -/
theorem or_strays_iff (own : PageId → Prop) {id : PageId}
    (known : ∀ number ∈ strays, own ⟨table, number⟩ ∨ number = receiver) :
    (own id ∨ id = ⟨table, receiver⟩ ∨ ∃ number ∈ strays, id = ⟨table, number⟩) ↔
      own id ∨ id = ⟨table, receiver⟩ ∨ ∃ number ∈ ([] : List Nat), id = ⟨table, number⟩ := by
  constructor
  · rintro (before | here | ⟨number, stray, rfl⟩)
    · exact .inl before
    · exact .inr (.inl here)
    · rcases known number stray with before | rfl
      · exact .inl before
      · exact .inr (.inl rfl)
  · rintro (before | here | ⟨number, stray, _⟩)
    · exact .inl before
    · exact .inr (.inl here)
    · contradiction

/-- There are no strays but pages that the transaction had to write anyway. -/
theorem Footprint.exact_iff (footprint : Footprint tx table receiver strays start after)
    (sound : start.locks.Sound) : Footprint tx table receiver [] start after ↔
      ∀ number ∈ strays, start.locks.Has tx ⟨table, number⟩ .exclusive ∨ number = receiver := by
  constructor
  · intro exact number stray
    have own := (footprint.writes ⟨table, number⟩).mpr (.inr (.inr ⟨number, stray, rfl⟩))
    rcases (exact.writes _).mp own with before | here | ⟨_, listed, _⟩
    · exact .inl before
    · exact .inr (congrArg PageId.number here)
    · contradiction
  · intro known
    have listed : ∀ number ∈ strays, ⟨table, number⟩ ∈ start.locks.heldPages tx ∨ number = receiver :=
      fun number stray => (known number stray).imp_left fun own => sound.has_shared_iff.mp own.shared
    exact ⟨fun id => (footprint.holds id).trans (or_strays_iff (· ∈ start.locks.heldPages tx) listed),
      fun id => (footprint.writes id).trans (or_strays_iff (start.locks.Has tx · .exclusive) known)⟩

theorem InsertEffect.footprint {mark : Page → Page} {ahead : List Nat} {result : InsertOutcome}
    (effect : InsertEffect tx table row mark (start.locks.Has tx) ahead strays pool result)
    (sound : start.locks.Sound) (done : result.2 = .done receiver) : Footprint tx table receiver strays start result.1 := by
  cases effect with
  | failed | parked => contradiction
  | @put _ _ slot page middle after inFiles reads full order owns first puts =>
      cases done
      have has : ∀ id wish, after.locks.Has tx id wish ↔
          start.locks.Has tx id wish ∨ id = ⟨table, receiver⟩ ∨ ∃ number ∈ strays, id = ⟨table, number⟩ := by
        intro id wish
        rw [puts.locks, ← List.exists_mem_cons_iff (fun number => id = ⟨table, number⟩)]
        exact ⟨fun own => (owns.only id wish own).imp_right fun rest => rest.resolve_right nofun,
          owns.has id wish⟩
      refine ⟨fun id => ?_, fun id => has id .exclusive⟩
      have kept : after.locks.Sound := puts.locks ▸ inFiles.locks
      rw [← kept.has_shared_iff, ← sound.has_shared_iff]
      exact has id .shared

theorem parked_of_run {again : InsertStage}
    (parked : ((Call.insert table row stage).run tx pool).2 = .parked (.insert table row again)) :
    (pool.insert tx table row stage).2 = .parked again := by
  simp only [Call.run] at parked
  generalize pool.insert tx table row stage = result at parked ⊢
  obtain ⟨after, outcome⟩ := result
  cases outcome with
  | done | failed => simp [Call.settle] at parked
  | parked stage =>
      cases parked
      rfl

theorem InsertEffect.owns {mark : Page → Page} {ahead : List Nat} {result : InsertOutcome} {again : InsertStage}
    (effect : InsertEffect tx table row mark held ahead strays pool result) (parked : result.2 = .parked again) :
    Owns tx table held strays (again.Pending table) result.1 := by
  cases effect with
  | put | failed => contradiction
  | parked _ _ owns _ =>
      cases parked
      exact owns

end Pool

namespace Session

variable {start session after : Session} {action : SessionAction} {tx : TxId} {table : TableId} {row : Row}
variable {stage : InsertStage} {strays : List Nat} {id : PageId} {mode : LockMode}

/-- What can happen to a directory besides what one transaction does. -/
inductive Aside (tx : TxId) (session : Session) : Session → Prop
  | created {name : String} {schema : Schema} {db : Database} {table : TableId}
      (made : session.db.createTable name schema = .ok (db, table)) : Aside tx session { session with db }
  | registered {opening : Opening} {disk : Disk} {file : TableFile}
      (made : TableFile.openAt session.pool.disk opening.path opening.schema opening.pageSize =
        .ok (disk, file)) :
      Aside tx session (session.withPool ({ session.pool with disk }.addTable file))
  | acted {action : SessionAction} (enabled : session.Enabled action) (apart : action.actor? ≠ some tx) :
      Aside tx session (session.act action).1
  | released (other : TxId) (page : PageId) (differs : other ≠ tx) :
      Aside tx session (session.withPool (session.pool.release other page))

theorem Aside.develops (step : Aside tx session after) : session.Develops Enabled after := by
  cases step with
  | created made => exact .created made
  | registered made => exact .registered made
  | acted enabled => exact .acted enabled
  | released other page => exact .released other page

theorem Aside.has_iff (step : Aside tx session after) (inFiles : session.WithinFiles) :
    after.pool.locks.Has tx id mode ↔ session.pool.locks.Has tx id mode := by
  cases step with
  | created made =>
      obtain ⟨_, _, _, _, rfl⟩ := createTable_eq_ok made
      rfl
  | registered => rfl
  | acted enabled apart => exact inFiles.has_act_iff enabled apart
  | released other page differs =>
      refine LockTable.has_release_iff.trans (and_iff_left ?_)
      exact fun both => differs both.2.symm

/-- An insert on its way: it parked, and went on and parked again, while others did as they liked. The
pages that it overran are noted, the last one first. -/
inductive Inserting (tx : TxId) (table : TableId) (row : Row) (start : Session) :
    List Nat → InsertStage → Session → Prop
  | started : Inserting tx table row start [] .start start
  | parked {strays : List Nat} {stage again : InsertStage} {session : Session} {action : SessionAction}
      (before : Inserting tx table row start strays stage session) (enabled : session.Enabled action)
      (calls : session.call? action = some (tx, .insert table row stage))
      (waits : (session.act action).1.parked.get? tx = some (.insert table row again)) :
      Inserting tx table row start (session.pool.overrun tx table stage ++ strays) again (session.act action).1
  | aside {strays : List Nat} {stage : InsertStage} {session after : Session}
      (before : Inserting tx table row start strays stage session) (step : Aside tx session after) :
      Inserting tx table row start strays stage after

theorem Inserting.owns (inserting : Inserting tx table row start strays stage session) (inFiles : start.WithinFiles)
    (awaiting : start.TailsAndWaits) : session.WithinFiles ∧ session.TailsAndWaits ∧
      Pool.Owns tx table (start.pool.locks.Has tx) strays (stage.Pending table) session.pool := by
  induction inserting with
  | started => exact ⟨inFiles, awaiting, .refl tx table _ start.pool⟩
  | @parked _ stage again session action _ enabled calls waits ih =>
      obtain ⟨fits, tends, owns⟩ := ih
      have effect := insertEffect_insert fits tends enabled calls owns
      refine ⟨fits.act enabled, (tends.act fits enabled).2, ?_⟩
      rw [pool_of_insert calls]
      refine effect.owns ?_
      rw [act_of_call calls] at waits
      obtain ⟨_, parked⟩ | ⟨differs, _⟩ := of_parked_run session tx _ waits
      · exact Pool.parked_of_run parked
      · contradiction
  | aside _ step ih =>
      obtain ⟨fits, tends, owns⟩ := ih
      exact ⟨fits.develops step.develops, (tends.develops fits step.develops).2,
        owns.keep fun _ _ => step.has_iff fits⟩

/-- Whatever others do in the meantime, an insert that is done leaves its transaction with the pages that it
held before, the page that got the row, and the pages that the insert overran. -/
theorem footprint_of_reached (reached : Reached start)
    (inserting : Inserting tx table row start strays stage session) (enabled : session.Enabled action)
    (calls : session.call? action = some (tx, .insert table row stage))
    (answered : (session.act action).2 = some (.ok .nothing)) :
    ∃ receiver slot, Pool.Receives tx row ⟨⟨table, receiver⟩, slot⟩ session.pool (session.act action).1.pool ∧
      Pool.Footprint tx table receiver (session.pool.overrun tx table stage ++ strays) start.pool
        (session.act action).1.pool ∧
      (Pool.Footprint tx table receiver [] start.pool (session.act action).1.pool ↔
        ∀ number ∈ session.pool.overrun tx table stage ++ strays,
          start.pool.locks.Has tx ⟨table, number⟩ .exclusive ∨ number = receiver) := by
  have sound := reached.inFiles.pool.locks
  obtain ⟨inFiles, awaiting, owns⟩ := inserting.owns reached.inFiles reached.tailsAndWaits
  have effect := insertEffect_insert inFiles awaiting enabled calls owns
  obtain ⟨receiver, done⟩ := insert_of_answered calls answered
  rw [pool_of_insert calls]
  obtain ⟨slot, _, receives, _⟩ := effect.receives awaiting.tails done
  have footprint := effect.footprint sound done
  exact ⟨receiver, slot, receives, footprint, footprint.exact_iff sound⟩

/-! ## Two rows on a page -/

def oddRow : Row := ⟨[.int 8], none⟩

def halfSession : Session := ((oddSession []).act (.insert ⟨1⟩ oddFile.id ⟨[.int 7], none⟩)).1

theorem reached_halfSession : Reached halfSession :=
  (reached_oddSession [] rfl).developed (.acted (enabled_oddSession [] 7))

set_option maxRecDepth 4000 in
/-- An insert that waits to look at a page until the transaction that filled half of it commits. -/
theorem footprint_of_waiter :
    ∃ session, Inserting ⟨2⟩ oddFile.id oddRow halfSession [] (.inspecting 0 false []) session ∧
      (session.act (.resume ⟨2⟩)).2 = some (.ok .nothing) ∧ ∃ receiver,
        Pool.Footprint ⟨2⟩ oddFile.id receiver [] halfSession.pool (session.act (.resume ⟨2⟩)).1.pool := by
  have waiting : Inserting ⟨2⟩ oddFile.id oddRow halfSession [] (.inspecting 0 false [])
      (halfSession.act (.insert ⟨2⟩ oddFile.id oddRow)).1 :=
    .parked .started ⟨by decide +kernel, by decide, rfl⟩ rfl (by with_unfolding_all rfl)
  have woken := waiting.aside (.acted (show Session.Enabled _ (.complete ⟨1⟩ true) from trivial) (by decide))
  obtain ⟨receiver, _, _, footprint, _⟩ := @footprint_of_reached _ _ (.resume ⟨2⟩) _ _ _ _ _ reached_halfSession
    woken (show _ ∈ _ by decide +kernel) (by with_unfolding_all rfl) (by decide +kernel)
  exact ⟨_, woken, by decide +kernel, receiver, footprint⟩

def claimedSession : Session := ((oddSession []).act (.call ⟨1⟩ (.fetch ⟨oddFile.id, 0⟩ .exclusive))).1

theorem reached_claimedSession : Reached claimedSession :=
  (reached_oddSession [] rfl).developed
    (.acted (show Session.Enabled _ (.call ⟨1⟩ (.fetch _ _)) from ⟨rfl, trivial⟩))

def insertsOdd (tx : TxId) (session : Session) : Session := (session.act (.insert tx oddFile.id oddRow)).1

/-- The page past the end is filled by the transaction that claimed it, while another one waits for it. -/
def filledSession : Session :=
  ((insertsOdd ⟨1⟩ (insertsOdd ⟨1⟩ (insertsOdd ⟨2⟩ claimedSession))).act (.complete ⟨1⟩ true)).1

set_option maxRecDepth 4000 in
theorem inserting_filledSession :
    Inserting ⟨2⟩ oddFile.id oddRow claimedSession [] (.appending 0) filledSession := by
  have waiting : Inserting ⟨2⟩ oddFile.id oddRow claimedSession [] (.appending 0)
      (insertsOdd ⟨2⟩ claimedSession) :=
    .parked .started ⟨by decide +kernel, by decide, rfl⟩ rfl (by with_unfolding_all rfl)
  have filling : ∀ {session : Session}, session.isParked ⟨1⟩ = false →
      Aside ⟨2⟩ session (insertsOdd ⟨1⟩ session) :=
    fun free => .acted ⟨free, by decide, rfl⟩ (by decide)
  have half := waiting.aside (filling (by decide +kernel))
  have full := half.aside (filling (by decide +kernel))
  exact full.aside (.acted (show Session.Enabled _ (.complete ⟨1⟩ true) from trivial) (by decide))

/-- An insert that waits to write the page just past the end, which is full when it is granted. The row goes
to the next page, and both pages stay locked to write. -/
theorem overrun_of_filledPage :
    Reached claimedSession ∧ claimedSession.pool.locks.heldPages ⟨2⟩ = [] ∧
      Inserting ⟨2⟩ oddFile.id oddRow claimedSession [] (.appending 0) filledSession ∧
      filledSession.Enabled (.resume ⟨2⟩) ∧
      (filledSession.act (.resume ⟨2⟩)).2 = some (.ok .nothing) ∧
      (filledSession.act (.resume ⟨2⟩)).1.pool.row? ⟨⟨oddFile.id, 1⟩, 0⟩ =
        some ⟨[.int 8], some ⟨⟨oddFile.id, 1⟩, 0⟩⟩ ∧
      (filledSession.act (.resume ⟨2⟩)).1.pool.locks.heldPages ⟨2⟩ = [⟨oddFile.id, 1⟩, ⟨oddFile.id, 0⟩] ∧
      ∀ number < 2, (filledSession.act (.resume ⟨2⟩)).1.pool.locks.lockOn ⟨oddFile.id, number⟩ =
        ⟨some .exclusive, [⟨2⟩]⟩ := by
  refine ⟨reached_claimedSession, by decide +kernel, inserting_filledSession, show _ ∈ _ by decide +kernel,
    by decide +kernel, by decide +kernel, by decide +kernel, ?_⟩
  intro number inside
  interval_cases number <;> decide +kernel

end Session

end RowStore
