import RowStore.Proofs.Lock.Sound
import RowStore.Proofs.Lock.WaitGraph

namespace RowStore.LockTable

/-! The parked requests: who joins them, and whom a release or an interrupt wakes.

Nothing but a look at a request takes it off the table. Whoever loses a holder of
its page is woken, so a request that sleeps on waits for a page that stayed as it
was.
-/

open WaitGraph

variable {locks changed : LockTable} {tx other : TxId} {page place : PageId} {mode : LockMode}
variable {waiter : Waiter}

def IsParked (locks : LockTable) (tx : TxId) : Prop := ∃ waiter ∈ locks.parked, waiter.tx = tx

instance (locks : LockTable) (tx : TxId) : Decidable (locks.IsParked tx) :=
  inferInstanceAs (Decidable (∃ waiter ∈ locks.parked, waiter.tx = tx))

theorem isParked_iff : locks.IsParked tx ↔ tx ∈ locks.parked.map Waiter.tx := by
  simp [IsParked]

/-! ## Waking requests -/

/-- The same requests are parked, and some of them were woken; those that sleep on are `still` as
they were. -/
def Rouses (locks changed : LockTable) (still : Waiter → Prop) : Prop :=
  ∃ state : Waiter → WaiterState,
    changed.parked = locks.parked.map (fun waiter => { waiter with state := state waiter }) ∧
      ∀ waiter, state waiter = .asleep → waiter.state = .asleep ∧ still waiter

section
variable {still : Waiter → Prop}

theorem Rouses.map_tx (rouses : locks.Rouses changed still) :
    changed.parked.map Waiter.tx = locks.parked.map Waiter.tx := by
  obtain ⟨state, same, _⟩ := rouses
  rw [same, List.map_map]
  rfl

theorem Rouses.isParked_iff (rouses : locks.Rouses changed still) :
    changed.IsParked tx ↔ locks.IsParked tx := by
  rw [LockTable.isParked_iff, LockTable.isParked_iff, rouses.map_tx]

theorem Rouses.after (rouses : locks.Rouses changed still) (parked : waiter ∈ locks.parked) :
    ∃ state, { waiter with state } ∈ changed.parked ∧
      (state = .asleep → waiter.state = .asleep ∧ still waiter) := by
  obtain ⟨state, same, asleep⟩ := rouses
  exact ⟨state waiter, same ▸ List.mem_map.mpr ⟨waiter, parked, rfl⟩, asleep waiter⟩

theorem Rouses.before (rouses : locks.Rouses changed still) (parked : waiter ∈ changed.parked) :
    ∃ state, { waiter with state } ∈ locks.parked := by
  obtain ⟨state, same, _⟩ := rouses
  rw [same] at parked
  obtain ⟨before, listed, rfl⟩ := List.mem_map.mp parked
  exact ⟨before.state, listed⟩

theorem Rouses.asleep (rouses : locks.Rouses changed still) (parked : waiter ∈ changed.parked)
    (sleeps : waiter.state = .asleep) : waiter ∈ locks.parked ∧ still waiter := by
  obtain ⟨state, same, asleep⟩ := rouses
  rw [same] at parked
  obtain ⟨before, listed, rfl⟩ := List.mem_map.mp parked
  obtain ⟨slept, kept⟩ := asleep before sleeps
  have unchanged : { before with state := state before } = before := by
    rw [show state before = before.state from Eq.trans sleeps slept.symm]
  rw [unchanged]
  exact ⟨listed, kept⟩

end

theorem rouses_notify (locks : LockTable) (page : PageId) :
    locks.Rouses (locks.notify page) fun waiter => waiter.page ≠ page := by
  refine ⟨fun waiter => if waiter.page = page ∧ waiter.state = .asleep then .woken else waiter.state,
    ?_, fun waiter sleeps => ?_⟩
  · refine List.map_congr_left fun waiter _ => ?_
    dsimp only
    split <;> rfl
  · dsimp only at sleeps
    split at sleeps
    · contradiction
    · next other => exact ⟨sleeps, fun here => other ⟨here, sleeps⟩⟩

theorem lockOn_of_not_contains (missing : locks.pages.contains page = false) :
    locks.lockOn page = .free := by
  simp only [FinMap.contains, Option.isSome_eq_false_iff, Option.isNone_iff_eq_none] at missing
  simp [lockOn, missing]

/-- Who sleeps on after a page was given up waits for another page, or for one that nobody ever
held. -/
theorem rouses_releasePage (locks : LockTable) (tx : TxId) (page : PageId) :
    locks.Rouses (locks.releasePage tx page) fun waiter =>
      waiter.page = page → locks.lockOn page = .free := by
  unfold releasePage
  split
  · obtain ⟨state, same, asleep⟩ := rouses_notify
      { locks with pages := locks.pages.insert page ((locks.lockOn page).release tx) } page
    refine ⟨state, same, fun waiter sleeps => ?_⟩
    obtain ⟨slept, elsewhere⟩ := asleep waiter sleeps
    exact ⟨slept, fun here => absurd here elsewhere⟩
  · next missing =>
    refine ⟨Waiter.state, by simp, fun waiter sleeps => ⟨sleeps, fun _ => ?_⟩⟩
    exact lockOn_of_not_contains (by simpa using missing)

theorem rouses_release (locks : LockTable) (tx : TxId) (page : PageId) :
    locks.Rouses (locks.release tx page) fun waiter => waiter.page = page → locks.lockOn page = .free :=
  rouses_releasePage _ tx page

theorem rouses_releaseEach (locks : LockTable) (tx : TxId) (pages : List PageId) :
    locks.Rouses (pages.foldl (fun locks page => locks.releasePage tx page) locks) fun waiter =>
      waiter.page ∈ pages → locks.lockOn waiter.page = .free := by
  induction pages generalizing locks with
  | nil => exact ⟨Waiter.state, by simp, fun waiter sleeps => ⟨sleeps, fun none => by simp at none⟩⟩
  | cons page rest ih =>
      obtain ⟨first, between, here⟩ := rouses_releasePage locks tx page
      obtain ⟨last, after, later⟩ := ih (locks.releasePage tx page)
      refine ⟨fun waiter => last { waiter with state := first waiter }, ?_, fun waiter sleeps => ?_⟩
      · rw [List.foldl_cons, after, between, List.map_map]
        rfl
      · obtain ⟨slept, elsewhere⟩ := later _ sleeps
        obtain ⟨before, free⟩ := here waiter slept
        refine ⟨before, fun member => ?_⟩
        by_cases same : waiter.page = page
        · exact same ▸ free same
        · have unlocked := elsewhere ((List.mem_cons.mp member).resolve_left same)
          rwa [lockOn_releasePage, if_neg same] at unlocked

theorem rouses_releaseAll (locks : LockTable) (tx : TxId) :
    locks.Rouses (locks.releaseAll tx) fun waiter =>
      waiter.page ∈ locks.heldPages tx → locks.lockOn waiter.page = .free :=
  rouses_releaseEach { locks with held := locks.held.erase tx } tx (locks.heldPages tx)

theorem rouses_interrupt (locks : LockTable) (tx : TxId) :
    locks.Rouses (locks.interrupt tx) fun _ => True := by
  unfold interrupt
  split
  · next page _ =>
    obtain ⟨state, same, asleep⟩ :=
      rouses_notify { locks with waits := locks.waits.interrupt tx (locks.held.contains tx) } page
    exact ⟨state, same, fun waiter sleeps => ⟨(asleep waiter sleeps).1, trivial⟩⟩
  · exact ⟨Waiter.state, by simp, fun waiter sleeps => ⟨sleeps, trivial⟩⟩

theorem rouses_expire (locks : LockTable) (overdue : Waiter → Bool) :
    locks.Rouses (locks.expire overdue) fun _ => True := by
  refine ⟨fun waiter => if overdue waiter then .expired else waiter.state, ?_, fun waiter sleeps => ?_⟩
  · refine List.map_congr_left fun waiter _ => ?_
    dsimp only
    split <;> rfl
  · dsimp only at sleeps
    split at sleeps
    · contradiction
    · exact ⟨sleeps, trivial⟩

theorem map_tx_notify : (locks.notify page).parked.map Waiter.tx = locks.parked.map Waiter.tx :=
  (rouses_notify locks page).map_tx

/-- Who still sleeps after a page was notified does not wait for that page. -/
theorem asleep_of_notify (parked : waiter ∈ (locks.notify page).parked)
    (sleeps : waiter.state = .asleep) : waiter ∈ locks.parked ∧ waiter.page ≠ page :=
  (rouses_notify locks page).asleep parked sleeps

theorem map_tx_releasePage :
    (locks.releasePage tx page).parked.map Waiter.tx = locks.parked.map Waiter.tx :=
  (rouses_releasePage locks tx page).map_tx

theorem asleep_of_releasePage (parked : waiter ∈ (locks.releasePage tx page).parked)
    (sleeps : waiter.state = .asleep) :
    waiter ∈ locks.parked ∧ (waiter.page = page → locks.lockOn page = .free) :=
  (rouses_releasePage locks tx page).asleep parked sleeps

theorem asleep_of_releaseEach {pages : List PageId}
    (parked : waiter ∈ (pages.foldl (fun locks page => locks.releasePage tx page) locks).parked)
    (sleeps : waiter.state = .asleep) :
    waiter ∈ locks.parked ∧ (waiter.page ∈ pages → locks.lockOn waiter.page = .free) :=
  (rouses_releaseEach locks tx pages).asleep parked sleeps

/-- Whoever sleeps on when pages are given up waits for a page whose lock stays as it was. -/
theorem asleep_of_release
    (parked : waiter ∈ (locks.release tx page).parked) (sleeps : waiter.state = .asleep) :
    waiter ∈ locks.parked ∧ (locks.release tx page).lockOn waiter.page = locks.lockOn waiter.page := by
  obtain ⟨before, free⟩ := (rouses_release locks tx page).asleep parked sleeps
  refine ⟨before, ?_⟩
  rw [lockOn_release]
  split
  · next here =>
    have unlocked : locks.lockOn page = .free := free here
    rw [here, unlocked, PageLock.release_free]
  · rfl

theorem Sound.asleep_of_releaseAll (sound : locks.Sound)
    (parked : waiter ∈ (locks.releaseAll tx).parked) (sleeps : waiter.state = .asleep) :
    waiter ∈ locks.parked ∧ (locks.releaseAll tx).lockOn waiter.page = locks.lockOn waiter.page := by
  obtain ⟨before, free⟩ := (rouses_releaseAll locks tx).asleep parked sleeps
  refine ⟨before, ?_⟩
  rw [lockOn_releaseAll sound]
  by_cases held : waiter.page ∈ locks.heldPages tx
  · have unlocked : locks.lockOn waiter.page = .free := free held
    rw [unlocked, PageLock.release_free]
  · exact (sound.lock waiter.page).release_of_not_mem (mt (sound.held tx waiter.page).mp held)

/-! ## What a release leaves -/

theorem releasePage_detectDeadlocks :
    (locks.releasePage tx page).detectDeadlocks = locks.detectDeadlocks := by
  unfold releasePage
  split <;> rfl

theorem releasePage_waits : (locks.releasePage tx page).waits = locks.waits := by
  unfold releasePage
  split <;> rfl

theorem releaseEach_frame (pages : List PageId) :
    let freed := pages.foldl (fun locks page => locks.releasePage tx page) locks
    freed.parked.map Waiter.tx = locks.parked.map Waiter.tx ∧
      freed.detectDeadlocks = locks.detectDeadlocks ∧ freed.waits = locks.waits := by
  induction pages generalizing locks with
  | nil => exact ⟨rfl, rfl, rfl⟩
  | cons page rest ih =>
      obtain ⟨parked, detects, waits⟩ := @ih (locks.releasePage tx page)
      exact ⟨parked.trans map_tx_releasePage, detects.trans releasePage_detectDeadlocks,
        waits.trans releasePage_waits⟩

theorem waits_releaseAll (locks : LockTable) (tx : TxId) :
    (locks.releaseAll tx).waits = locks.waits.forget tx := by
  obtain ⟨_, _, waits⟩ :=
    @releaseEach_frame { locks with held := locks.held.erase tx } tx (locks.heldPages tx)
  simp only [LockTable.releaseAll, waits]

/-- Giving up every page takes away the edges from the transaction and to it. -/
theorem successors_releaseAll :
    successors (locks.releaseAll tx).waits.edges other =
      if other = tx then [] else (successors locks.waits.edges other).filter (· ≠ tx) := by
  rw [waits_releaseAll, successors_forget]

theorem interrupt_waits_edges : (locks.interrupt tx).waits.edges = locks.waits.edges := by
  unfold interrupt
  split <;> exact interrupt_edges

/-! ## Looking at a request -/

theorem blockers_ne_nil (sound : locks.Sound)
    (blocked : (locks.lockOn page).canGrant tx mode ≠ true) : (locks.lockOn page).blockers tx ≠ [] := by
  intro nobody
  refine blocked ((sound.lock page).canGrant_iff.mpr (Or.inl fun holder listed => ?_))
  by_contra differs
  have waitedFor : holder ∈ (locks.lockOn page).blockers tx := by
    simp [PageLock.blockers, listed, differs]
  simp [nobody] at waitedFor

/-- The table in which a request is looked at: one that is looked at again is taken off the parked
ones before. -/
structure Taken (locks taken : LockTable) (tx : TxId) (waited : Bool) : Prop where
  pages : taken.pages = locks.pages
  held : taken.held = locks.held
  waits : taken.waits = locks.waits
  fewer : ∀ waiter ∈ taken.parked, waiter ∈ locks.parked
  others : ∀ waiter ∈ locks.parked, (waiter.tx = tx → waited = false) → waiter ∈ taken.parked

theorem taken_acquire (locks : LockTable) (tx : TxId) : locks.Taken locks tx false :=
  ⟨rfl, rfl, rfl, fun _ parked => parked, fun _ parked _ => parked⟩

theorem taken_retry (parked : waiter ∈ locks.parked) :
    locks.Taken { locks with parked := locks.parked.erase waiter } waiter.tx true := by
  refine ⟨rfl, rfl, rfl, fun _ left => List.mem_of_mem_erase left, fun other listed apart => ?_⟩
  have differs : other ≠ waiter := by
    rintro rfl
    simpa using apart rfl
  exact (List.mem_erase_of_ne differs).mpr listed

section
variable {taken : LockTable} {waited : Bool}

theorem Taken.lockOn_eq (look : locks.Taken taken tx waited) (page : PageId) :
    taken.lockOn page = locks.lockOn page := by
  simp [LockTable.lockOn, look.pages]

theorem Taken.sound (look : locks.Taken taken tx waited) (sound : locks.Sound) : taken.Sound :=
  sound.congr taken look.pages look.held

theorem Taken.not_isParked (look : locks.Taken taken tx waited) (alone : ¬ locks.IsParked other) :
    ¬ taken.IsParked other := by
  rintro ⟨waiter, parked, same⟩
  exact alone ⟨waiter, look.fewer waiter parked, same⟩

end

/-- A request that cannot be granted is refused, and waits for nobody any longer, or else it parks
behind the holders of its page. -/
theorem wait_cases (locks : LockTable) (tx : TxId) (page : PageId) (mode : LockMode) (expired : Bool) :
    (∃ (reason : AbortReason) (waits : WaitGraph), locks.wait tx page mode expired =
        ({ locks with waits := waits.clearWaiting tx }, .refused reason) ∧
      ∀ other, other ≠ tx → successors waits.edges other = successors locks.waits.edges other) ∨
    locks.wait tx page mode expired =
        ({ locks with
            waits := locks.waits.setWaiting tx page ((locks.lockOn page).blockers tx)
            parked := locks.parked ++ [⟨tx, page, mode, .asleep⟩] }, .parked) := by
  simp only [wait]
  split
  · exact Or.inl ⟨_, _, rfl, fun _ _ => rfl⟩
  · split
    · exact Or.inl ⟨_, _, rfl, fun _ _ => rfl⟩
    · split
      · exact Or.inl ⟨_, _, rfl, fun other differs => by simp [differs]⟩
      · exact Or.inr rfl

/-- A look at a request leaves the other parked requests as they are. -/
theorem mem_parked_evaluate {waited expired : Bool}
    (parked : waiter ∈ (locks.evaluate tx page mode waited expired).1.parked) :
    waiter ∈ locks.parked ∨ waiter = ⟨tx, page, mode, .asleep⟩ ∧
      (locks.evaluate tx page mode waited expired).2 = .parked := by
  by_cases granted : (locks.evaluate tx page mode waited expired).2 = .granted
  · rw [evaluate_of_granted granted] at parked
    exact Or.inl parked
  · rw [evaluate_of_not_granted granted] at parked ⊢
    obtain ⟨reason, waits, same, _⟩ | same := locks.wait_cases tx page mode expired
    · rw [same] at parked
      exact Or.inl parked
    · rw [same] at parked ⊢
      simpa using parked

theorem evaluate_parked {waited expired : Bool}
    (waits : (locks.evaluate tx page mode waited expired).2 = .parked) :
    (locks.evaluate tx page mode waited expired).1.parked =
      locks.parked ++ [⟨tx, page, mode, .asleep⟩] := by
  have refused : (locks.evaluate tx page mode waited expired).2 ≠ .granted := by simp [waits]
  rw [evaluate_of_not_granted refused] at waits ⊢
  obtain ⟨reason, graph, same, _⟩ | same := locks.wait_cases tx page mode expired
  · simp [same] at waits
  · rw [same]

theorem parked_subset_evaluate {waited expired : Bool} (parked : waiter ∈ locks.parked) :
    waiter ∈ (locks.evaluate tx page mode waited expired).1.parked := by
  by_cases granted : (locks.evaluate tx page mode waited expired).2 = .granted
  · rw [evaluate_of_granted granted]
    exact parked
  · rw [evaluate_of_not_granted granted]
    obtain ⟨reason, waits, same, _⟩ | same := locks.wait_cases tx page mode expired
    · rw [same]
      exact parked
    · rw [same]
      exact List.mem_append_left _ parked

/-- A look at a request replaces the edges of its transaction only. -/
theorem successors_evaluate_of_ne {waited expired : Bool} (differs : other ≠ tx) :
    successors (locks.evaluate tx page mode waited expired).1.waits.edges other =
      successors locks.waits.edges other := by
  by_cases granted : (locks.evaluate tx page mode waited expired).2 = .granted
  · rw [evaluate_of_granted granted]
    cases waited <;> simp [LockTable.grant, differs]
  · rw [evaluate_of_not_granted granted]
    obtain ⟨reason, waits, same, kept⟩ | same := locks.wait_cases tx page mode expired
    · rw [same]
      simp [differs, kept]
    · rw [same]
      simp [differs]

/-- A request that had to wait leaves edges exactly when it parks again. -/
theorem successors_evaluate_self {waited expired : Bool}
    (clear : waited = false → successors locks.waits.edges tx = []) :
    successors (locks.evaluate tx page mode waited expired).1.waits.edges tx =
      if (locks.evaluate tx page mode waited expired).2 = .parked then (locks.lockOn page).blockers tx
      else [] := by
  by_cases granted : (locks.evaluate tx page mode waited expired).2 = .granted
  · rw [granted, evaluate_of_granted granted]
    cases waited with
    | false => simp [LockTable.grant, clear]
    | true => simp [LockTable.grant]
  · rw [evaluate_of_not_granted granted]
    obtain ⟨reason, waits, same, kept⟩ | same := locks.wait_cases tx page mode expired
    · rw [same]
      simp
    · rw [same]
      simp

/-- A request is refused for a deadlock exactly when it is neither granted nor refused before, and
the search finds a cycle through it. -/
theorem evaluate_deadlock_iff {waited expired : Bool} :
    (locks.evaluate tx page mode waited expired).2 = .refused .deadlock ↔
      ((locks.lockOn page).canGrant tx mode ≠ true ∧ expired = false ∧
        locks.waits.isInterrupted tx = false) ∧ locks.detectDeadlocks = true ∧
      (locks.waits.setWaiting tx page ((locks.lockOn page).blockers tx)).hasCycleThrough tx = true := by
  simp only [evaluate, wait]
  split
  · next granted => simp [granted]
  · next blocked =>
    split
    · next late => simp [late]
    · next timely =>
      split
      · next marked => simp [marked]
      · next unmarked =>
        split
        · next closed => simp_all
        · next unclosed => simp_all

end RowStore.LockTable
