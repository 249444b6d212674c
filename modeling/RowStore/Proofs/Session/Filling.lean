import RowStore.Proofs.Pool.Packed
import RowStore.Proofs.Session.Completion
import RowStore.Proofs.Session.Tables
import RowStore.Proofs.Session.TailsAndWaits

namespace RowStore.Session

/-! Where rows go that are inserted without a wait.

In a directory whose files have whole pages when they are registered, an insert that is
answered at once puts its row into the first free slot of the table. So a table that rows
are only inserted into has no more pages than they need.
-/

variable {session start after : Session} {action : SessionAction} {tx : TxId} {table : TableId} {row : Row}
variable {file : TableFile} {count : Nat}

/-- The states that a directory can be brought to when files have whole pages as they are registered. -/
inductive EvenlyReached : Session → Prop
  | opened {disk : Disk} {directory : Path} {config : Config} {db : Database} (sound : disk.Sound)
      (made : Database.openAt disk directory config = .ok db) : EvenlyReached (ofDatabase db)
  | developed {session after : Session} (before : EvenlyReached session)
      (step : session.Develops Enabled after)
      (even : ∀ table file, session.pool.tables.get? table = none → after.pool.tables.get? table = some file →
        file.pageSize ∣ (after.pool.disk.bytes file.handle).length) : EvenlyReached after

theorem EvenlyReached.reached (even : EvenlyReached session) : Reached session := by
  induction even with
  | opened sound made => exact .opened sound made
  | developed _ step _ ih => exact .developed ih step

/-- Actions register no tables. -/
theorem EvenlyReached.act (even : EvenlyReached session) (enabled : session.Enabled action) :
    EvenlyReached (session.act action).1 :=
  .developed even (.acted enabled) fun table _ missing found => by
    rw [(even.reached.inFiles.grows enabled).missing table missing] at found
    contradiction

/-- Nothing follows the last page of any file. -/
theorem EvenlyReached.whole (even : EvenlyReached session) (found : session.pool.tables.get? table = some file) :
    file.remainder session.pool.disk = [] := by
  induction even generalizing table file with
  | opened sound made =>
      obtain ⟨_, _, rfl⟩ := openAt_eq_ok made
      contradiction
  | @developed session after before step even ih =>
      have reached := before.reached
      have inFiles := reached.inFiles
      obtain ⟨trails, awaiting⟩ := reached.tailsAndWaits.develops inFiles step
      cases known : session.pool.tables.get? table with
      | none =>
          have later := (inFiles.develops step).pool
          exact awaiting.tails.remainder_of_dvd later found (even table file known found)
      | some earlier =>
          obtain ⟨_, now, ends⟩ := trails.files table earlier known
          cases now.symm.trans found
          refine ends.elim (fun stays => ?_) fun gone => gone
          obtain ⟨same, kept⟩ := stays
          subst same
          exact kept.trans (ih known)

theorem WithinFiles.firstFit (inFiles : session.WithinFiles) (awaiting : session.TailsAndWaits)
    (whole : ∀ file, session.pool.tables.get? table = some file → file.remainder session.pool.disk = [])
    (enabled : session.Enabled (.insert tx table row))
    (answered : (session.act (.insert tx table row)).2 = some (.ok .nothing)) :
    ∃ record, Pool.FirstFit tx table row record session.pool (session.act (.insert tx table row)).1.pool := by
  have calls : session.call? (.insert tx table row) = some (tx, .insert table row .start) := rfl
  obtain ⟨number, done⟩ := insert_of_answered calls answered
  have effect := insertEffect_insert inFiles awaiting enabled calls (.refl tx table _ session.pool)
  obtain ⟨slot, fits⟩ := effect.firstFit inFiles.pool awaiting.tails whole done
  rw [pool_of_insert calls]
  exact ⟨_, fits⟩

/-! ## Filling a table -/

/-- Other tables are worked on, or rows are read, or changed pages are written. -/
def Harmless (table : TableId) (session : Session) (action : SessionAction) : Prop :=
  session.Apart table action ∨ session.Enabled action ∧
    match action with
    | .call _ call => call.write? = none
    | .resume tx => ∀ call, session.parked.get? tx = some call → call.write? = none
    | .complete _ true => (session.act action).2 = some (.ok .nothing)
    | .flush _ | .flushAll => True
    | _ => False

theorem Harmless.enabled (harmless : session.Harmless table action) : session.Enabled action :=
  harmless.elim And.left And.left

/-- Rows are inserted into a table by calls that are answered at once, and no row is taken away. -/
inductive Filling (table : TableId) (start : Session) : Nat → Session → Prop
  | start : Filling table start 0 start
  | inserted {count : Nat} {session : Session} {tx : TxId} {row : Row} (before : Filling table start count session)
      (enabled : session.Enabled (.insert tx table row))
      (answered : (session.act (.insert tx table row)).2 = some (.ok .nothing)) :
      Filling table start (count + 1) (session.act (.insert tx table row)).1
  | aside {count : Nat} {session after : Session} (before : Filling table start count session)
      (step : session.Develops (Harmless table) after) : Filling table start count after

theorem WithinFiles.keeps_act (inFiles : session.WithinFiles) (harmless : session.Harmless table action) :
    Pool.Keeps table session.pool (session.act action).1.pool := by
  obtain apart | ⟨enabled, harmless⟩ := harmless
  · exact (inFiles.spares_act apart).keeps
  have reads : ∀ tx call, session.call? action = some (tx, call) → call.write? = none →
      Pool.Keeps table session.pool (session.act action).1.pool := by
    intro tx call calls idle
    rw [act_of_call calls, pool_run]
    exact (Pool.reads_run (inFiles.within enabled calls) idle).keeps table
  cases action with
  | call tx call => exact reads tx call rfl harmless
  | resume tx =>
      cases found : session.parked.get? tx with
      | none =>
          rw [act_resume_of_missing found]
          exact (Pool.Spares.refl table session.pool).keeps
      | some call => exact reads tx call (call?_resume found) (harmless call found)
  | complete tx commit =>
      cases commit with
      | false => contradiction
      | true =>
          refine inFiles.pool.keeps_commit ?_ table
          change (session.settlePool (session.pool.commit tx)).2 = _ at harmless
          generalize session.pool.commit tx = result at harmless ⊢
          obtain ⟨pool, outcome⟩ := result
          cases outcome with
          | ok => rfl
          | error => cases harmless
  | flush tx => exact inFiles.pool.keeps_flushEach (inFiles.pool.named.listed (some tx)) table
  | flushAll => exact inFiles.pool.keeps_flushEach (inFiles.pool.named.listed none) table
  | interrupt | expire | discard | limitWrites | reorder => contradiction

theorem WithinFiles.keeps (inFiles : session.WithinFiles) (step : session.Develops (Harmless table) after)
    (found : session.pool.tables.get? table = some file) : Pool.Keeps table session.pool after.pool := by
  cases step with
  | created made =>
      obtain ⟨disk, file, opened, _, rfl⟩ := createTable_eq_ok made
      exact (@Pool.WithinFiles.spares_addTable _ _ _ inFiles.pool ⟨_, _, _⟩ _ _ opened found).keeps
  | registered made => exact (inFiles.pool.spares_addTable made found).keeps
  | acted harmless => exact inFiles.keeps_act harmless
  | released => exact (Pool.Reads.of_locks session.pool _).keeps table

/-- All that a run of inserts preserves. -/
theorem Filling.packed (filling : Filling table start count session) (inFiles : start.WithinFiles)
    (awaiting : start.TailsAndWaits) (found : start.pool.tables.get? table = some file) (empty : file.pageCount = 0)
    (whole : file.remainder start.pool.disk = []) :
    session.WithinFiles ∧ session.TailsAndWaits ∧ Pool.Packed table file count session.pool := by
  induction filling with
  | start => exact ⟨inFiles, awaiting, Pool.packed_empty found empty whole⟩
  | inserted _ enabled answered ih =>
      obtain ⟨fits, tends, packed⟩ := ih
      obtain ⟨trails, after⟩ := tends.act fits enabled
      obtain ⟨record, placed⟩ := fits.firstFit tends (fun other known => by
        cases packed.known.symm.trans known
        exact packed.whole) enabled answered
      exact ⟨fits.act enabled, after, packed.insert fits.pool tends.tails placed trails⟩
  | aside _ step ih =>
      obtain ⟨fits, tends, packed⟩ := ih
      have allowed := step.mono fun _ harmless => Harmless.enabled harmless
      obtain ⟨trails, after⟩ := tends.develops fits allowed
      exact ⟨fits.develops allowed, after, packed.keep (fits.keeps step packed.known) trails⟩

/-- In a directory of whole files an insert that need not wait takes the first free slot, or the first
slot of a new page; and rows that are only inserted take as few pages as they can. -/
theorem firstFit_of_evenlyReached (even : EvenlyReached session) :
    (∀ tx table row, session.Enabled (.insert tx table row) →
      (session.act (.insert tx table row)).2 = some (.ok .nothing) → ∃ record,
        Pool.FirstFit tx table row record session.pool (session.act (.insert tx table row)).1.pool ∧
          (session.act (.insert tx table row)).1.pool.Images tx row record) ∧
    ∀ table file, session.pool.tables.get? table = some file → file.pageCount = 0 →
      ∀ count after, Filling table session count after →
        after.pool.pageCount table = count ⌈/⌉ file.capacity := by
  have inFiles := even.reached.inFiles
  have awaiting := even.reached.tailsAndWaits
  refine ⟨fun tx table row enabled answered => ?_, fun table file found empty count after filling => ?_⟩
  · obtain ⟨record, fits⟩ := inFiles.firstFit awaiting (fun _ => even.whole) enabled answered
    exact ⟨record, fits, fits.images (inFiles.act enabled).pool⟩
  · obtain ⟨_, _, packed⟩ := filling.packed inFiles awaiting found empty (even.whole found)
    exact packed.pageCount

theorem evenlyReached_integerSession : EvenlyReached integerSession :=
  .developed (@EvenlyReached.opened .empty ⟨['/']⟩ .default _ Disk.sound_empty rfl)
    (@Develops.registered Enabled _ integerOpening _ _ rfl) fun table file _ found =>
      even_integerPool table file found

def unplacedInteger (number : Int32) : Row := ⟨[.int number], none⟩

theorem enabled_unplacedInteger {session : Session} (tx : TxId) (number : Int32)
    (free : session.isParked tx = false) :
    session.Enabled (.insert tx integerFile.id (unplacedInteger number)) := by
  refine ⟨free, fun value listed => ?_, rfl⟩
  cases List.mem_singleton.mp listed
  rfl

set_option maxRecDepth 4000 in
/-- Four rows on pages of three. -/
theorem firstFit_of_fourRows :
    ∃ filled record, EvenlyReached integerSession ∧
      Pool.FirstFit ⟨1⟩ integerFile.id (unplacedInteger 1) record integerPool
        (integerSession.act (.insert ⟨1⟩ integerFile.id (unplacedInteger 1))).1.pool ∧
      Filling integerFile.id integerSession 4 filled ∧ filled.pool.pageCount integerFile.id = 2 := by
  have one := (@Filling.start integerFile.id integerSession).inserted (enabled_unplacedInteger ⟨1⟩ 1 rfl)
    (by decide +kernel)
  have two := one.inserted (enabled_unplacedInteger ⟨1⟩ 2 (by decide +kernel)) (by decide +kernel)
  have three := two.inserted (enabled_unplacedInteger ⟨1⟩ 3 (by decide +kernel)) (by decide +kernel)
  have four := three.inserted (enabled_unplacedInteger ⟨1⟩ 4 (by decide +kernel)) (by decide +kernel)
  obtain ⟨places, counts⟩ := firstFit_of_evenlyReached evenlyReached_integerSession
  obtain ⟨record, fits, _⟩ := places ⟨1⟩ integerFile.id (unplacedInteger 1)
    (enabled_unplacedInteger ⟨1⟩ 1 rfl) (by decide +kernel)
  refine ⟨_, record, evenlyReached_integerSession, fits, four, ?_⟩
  rw [counts integerFile.id integerFile (by rfl) rfl _ _ four]
  decide

end RowStore.Session
