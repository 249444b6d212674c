import RowStore.Proofs.Lock.Agreement
import RowStore.Proofs.Lock.Deadlock

namespace RowStore

/-! Which cycles a request is refused for.

A look at a request that has to wait takes down the other holders of its page. A
reader that is granted the page after that is not among them, so nobody is refused
for a cycle that leads through such a late reader, until a release wakes the
request behind it. All other cycles are found.
-/

/-- The event leaves a request of the transaction for the page parked. -/
def LockEvent.parks (tx : TxId) (page : PageId) (event : LockEvent) : Bool :=
  match event.action.request?, event.verdict with
  | some (asker, wanted, _), some .parked => asker = tx ∧ wanted = page
  | _, _ => false

/-- The other transaction held the page when the request of the first one for it was last looked at,
and did not give it up since. -/
def HeldSinceLook (tx other : TxId) (page : PageId) : List LockEvent → Prop
  | [] => False
  | event :: earlier =>
      if event.parks tx page then grantsSince other page earlier ≠ []
      else event.action.givesUp other page = false ∧ HeldSinceLook tx other page earlier

namespace LockTable

open Relation WaitGraph

variable {locks changed : LockTable} {history : List LockEvent} {event : LockEvent}
variable {tx other : TxId} {page : PageId} {mode : LockMode}

/-- The transaction waits for a page that the other one holds, and held already when the request was
last looked at. -/
def KnownWait (history : List LockEvent) (locks : LockTable) (tx other : TxId) : Prop :=
  ∃ waiter ∈ locks.parked, waiter.tx = tx ∧ other ∈ (locks.lockOn waiter.page).holders ∧ other ≠ tx ∧
    HeldSinceLook tx other waiter.page history

theorem heldSinceLook_cons (unlooked : event.parks tx page = false) :
    HeldSinceLook tx other page (event :: history) ↔
      event.action.givesUp other page = false ∧ HeldSinceLook tx other page history := by
  simp [HeldSinceLook, unlooked]

/-- The edges of a request lead to those who held its page all the time since its last look, and of
a request that sleeps to nobody else. -/
structure Noted (history : List LockEvent) (locks : LockTable) : Prop where
  attached : ∀ tx, successors locks.waits.edges tx ≠ [] → locks.IsParked tx
  known : ∀ waiter ∈ locks.parked, ∀ other, other ≠ waiter.tx →
    HeldSinceLook waiter.tx other waiter.page history → Edge locks.waits.edges waiter.tx other
  recorded : ∀ waiter ∈ locks.parked, waiter.state = .asleep → ∀ other,
    Edge locks.waits.edges waiter.tx other → HeldSinceLook waiter.tx other waiter.page history

theorem noted_empty (config : Config) : Noted [] (empty config) :=
  ⟨by simp [successors, empty, WaitGraph.empty], by simp [empty], by simp [empty]⟩

/-- A request is looked at of a transaction that has no other one parked. -/
theorem Noted.evaluate {taken : LockTable} {waited expired : Bool} (noted : Noted history locks)
    (tracks : Tracks history locks) (look : locks.Taken taken tx waited)
    (alone : ¬ taken.IsParked tx) (first : waited = false → ¬ locks.IsParked tx)
    (asked : event.action.request? = some (tx, page, mode))
    (answered : event.verdict = some (taken.evaluate tx page mode waited expired).2) :
    Noted (event :: history) (taken.evaluate tx page mode waited expired).1 := by
  have keeps : ∀ other place, event.action.givesUp other place = false := by
    intro other place
    cases shape : event.action <;> simp_all [LockAction.request?, LockAction.givesUp]
  have parks : ∀ other place, event.parks other place =
      decide ((taken.evaluate tx page mode waited expired).2 = .parked ∧ tx = other ∧ page = place) := by
    intro other place
    simp only [LockEvent.parks, asked, answered]
    cases (taken.evaluate tx page mode waited expired).2 <;> simp
  have clear : waited = false → successors taken.waits.edges tx = [] := by
    intro fresh
    rw [look.waits]
    by_contra leaves
    exact first fresh (noted.attached tx leaves)
  have old : ∀ waiter ∈ taken.parked, waiter.tx ≠ tx ∧ ∀ other,
      (HeldSinceLook waiter.tx other waiter.page (event :: history) ↔
        HeldSinceLook waiter.tx other waiter.page history) ∧
      (Edge (taken.evaluate tx page mode waited expired).1.waits.edges waiter.tx other ↔
        Edge locks.waits.edges waiter.tx other) := by
    intro waiter parked
    have differs : waiter.tx ≠ tx := fun same => alone ⟨waiter, parked, same⟩
    refine ⟨differs, fun other => ⟨?_, ?_⟩⟩
    · rw [heldSinceLook_cons (by simp [parks, differs.symm]), keeps]
      simp
    · rw [Edge, successors_evaluate_of_ne differs, look.waits]
      rfl
  have fresh : (taken.evaluate tx page mode waited expired).2 = .parked → ∀ other, other ≠ tx →
      (HeldSinceLook tx other page (event :: history) ↔
        Edge (taken.evaluate tx page mode waited expired).1.waits.edges tx other) := by
    intro waits other differs
    rw [Edge, successors_evaluate_self clear, if_pos waits, look.lockOn_eq]
    simp [HeldSinceLook, parks, waits, PageLock.blockers, differs, tracks.holds]
  refine ⟨fun other leaves => ?_, fun waiter parked other differs since => ?_,
    fun waiter parked sleeps other edge => ?_⟩
  · by_cases same : other = tx
    · subst same
      rw [successors_evaluate_self clear] at leaves
      have waits : (taken.evaluate other page mode waited expired).2 = .parked := by
        by_contra ended
        rw [if_neg ended] at leaves
        contradiction
      exact ⟨⟨other, page, mode, .asleep⟩, by simp [evaluate_parked waits], rfl⟩
    · rw [successors_evaluate_of_ne same, look.waits] at leaves
      obtain ⟨waiter, parked, rfl⟩ := noted.attached other leaves
      have left := look.others waiter parked fun equal => absurd equal same
      exact ⟨waiter, parked_subset_evaluate left, rfl⟩
  · rcases mem_parked_evaluate parked with before | ⟨rfl, waits⟩
    · obtain ⟨_, same⟩ := old waiter before
      exact (same other).2.mpr
        (noted.known waiter (look.fewer waiter before) other differs ((same other).1.mp since))
    · exact (fresh waits other differs).mp since
  · rcases mem_parked_evaluate parked with before | ⟨rfl, waits⟩
    · obtain ⟨_, same⟩ := old waiter before
      exact (same other).1.mpr
        (noted.recorded waiter (look.fewer waiter before) sleeps other ((same other).2.mp edge))
    · have differs : other ≠ tx := by
        rintro rfl
        rw [Edge, successors_evaluate_self clear, if_pos waits] at edge
        simp [PageLock.blockers] at edge
      exact (fresh waits other differs).mpr edge

/-- Giving up pages takes away the edges to those who are forgotten by it. -/
theorem Noted.giveUp {still : Waiter → Prop} {action : LockAction} (noted : Noted history locks)
    (rouses : locks.Rouses changed still) (asks : action.request? = none)
    (edges : ∀ tx other, Edge changed.waits.edges tx other → Edge locks.waits.edges tx other)
    (kept : ∀ waiter : Waiter, locks.IsParked waiter.tx → ∀ other, action.givesUp other waiter.page = false →
      Edge locks.waits.edges waiter.tx other → Edge changed.waits.edges waiter.tx other)
    (lost : ∀ waiter ∈ locks.parked, waiter.state = .asleep → still waiter → ∀ other,
      Edge changed.waits.edges waiter.tx other → action.givesUp other waiter.page = false) :
    Noted (⟨action, none⟩ :: history) changed := by
  have unlooked : ∀ tx page, LockEvent.parks tx page ⟨action, none⟩ = false := by
    intro tx page
    simp [LockEvent.parks, asks]
  refine ⟨fun tx leaves => ?_, fun waiter parked other differs since => ?_,
    fun waiter parked sleeps other edge => ?_⟩
  · obtain ⟨other, edge⟩ := List.exists_mem_of_ne_nil _ leaves
    exact rouses.isParked_iff.mpr (noted.attached tx (List.ne_nil_of_mem (edges tx other edge)))
  · obtain ⟨keeps, earlier⟩ := (heldSinceLook_cons (unlooked _ _)).mp since
    obtain ⟨state, before⟩ := rouses.before parked
    exact kept waiter ⟨_, before, rfl⟩ other keeps (noted.known _ before other differs earlier)
  · obtain ⟨before, same⟩ := rouses.asleep parked sleeps
    have earlier := noted.recorded waiter before sleeps other (edges _ _ edge)
    exact (heldSinceLook_cons (unlooked _ _)).mpr ⟨lost waiter before sleeps same other edge, earlier⟩

theorem Noted.act (noted : Noted history locks) (tracks : Tracks history locks)
    (untangled : locks.Untangled) (action : LockAction) (orderly : locks.Orderly action) :
    Noted (⟨action, (locks.act action).2⟩ :: history) (locks.act action).1 := by
  cases action with
  | acquire tx page mode =>
      exact noted.evaluate tracks (taken_acquire locks tx) orderly (fun _ => orderly) rfl rfl
  | retry waiter =>
      exact noted.evaluate tracks (taken_retry orderly.1) (parked_erase_apart untangled.once orderly.1)
        (by simp) rfl rfl
  | release tx page =>
      have waits : (locks.release tx page).waits = locks.waits := releasePage_waits
      refine noted.giveUp (rouses_release locks tx page) rfl (fun _ _ edge => waits ▸ edge)
        (fun _ _ _ _ edge => waits.symm ▸ edge) fun waiter parked sleeps free other edge => ?_
      -- Whoever sleeps on waits for no page that somebody held and gave up.
      have holder := (untangled.current waiter parked sleeps other (waits ▸ edge)).1
      by_contra gone
      obtain ⟨rfl, rfl⟩ : tx = other ∧ page = waiter.page := by simpa [LockAction.givesUp] using gone
      rw [free rfl] at holder
      simp [PageLock.free] at holder
  | releaseAll tx =>
      have edge_iff : ∀ first next, Edge (locks.releaseAll tx).waits.edges first next ↔
          first ≠ tx ∧ next ≠ tx ∧ Edge locks.waits.edges first next := by
        intro first next
        rw [Edge, successors_releaseAll]
        split
        · next same => simp [same]
        · next differs => simp [differs, Edge, and_comm]
      refine noted.giveUp (rouses_releaseAll locks tx) rfl (fun _ _ edge => ((edge_iff _ _).mp edge).2.2)
        (fun waiter parked other keeps edge => (edge_iff _ _).mpr ⟨?_, ?_, edge⟩)
        fun waiter _ _ _ other edge => ?_
      · exact fun same => orderly (same ▸ parked)
      · simpa [LockAction.givesUp, eq_comm] using keeps
      · simpa [LockAction.givesUp, eq_comm] using ((edge_iff _ _).mp edge).2.1
  | interrupt tx =>
      have edges : (locks.interrupt tx).waits.edges = locks.waits.edges := interrupt_waits_edges
      exact noted.giveUp (rouses_interrupt locks tx) rfl (fun _ _ edge => edges ▸ edge)
        (fun _ _ _ _ edge => edges.symm ▸ edge) fun _ _ _ _ _ _ => rfl
  | expire overdue =>
      exact noted.giveUp (rouses_expire locks overdue) rfl (fun _ _ edge => edge)
        (fun _ _ _ _ edge => edge) fun _ _ _ _ _ _ => rfl

theorem Run.noted {config : Config} (detects : config.detectDeadlocks = true)
    (run : Run Orderly (empty config) history locks) : locks.Untangled ∧ Noted history locks := by
  induction run with
  | start => exact ⟨untangled_empty detects, noted_empty config⟩
  | step before action orderly ih =>
      obtain ⟨untangled, noted⟩ := ih
      exact ⟨untangled.act action orderly, noted.act before.tracks untangled action orderly⟩

/-- When nobody has to be looked at again, the edges are the known waits. -/
theorem Noted.edge_iff (noted : Noted history locks) (untangled : locks.Untangled)
    (settled : locks.awake = []) :
    Edge locks.waits.edges tx other ↔ KnownWait history locks tx other := by
  have asleep : ∀ waiter ∈ locks.parked, waiter.state = .asleep := by
    simpa [awake] using settled
  constructor
  · intro edge
    obtain ⟨waiter, parked, rfl⟩ := noted.attached tx (List.ne_nil_of_mem edge)
    have sleeps := asleep waiter parked
    obtain ⟨holder, differs⟩ := untangled.current waiter parked sleeps other edge
    exact ⟨waiter, parked, rfl, holder, differs, noted.recorded waiter parked sleeps other edge⟩
  · rintro ⟨waiter, parked, rfl, _, differs, since⟩
    exact noted.known waiter parked other differs since

/-- A new request that has to wait is refused for a deadlock exactly when one of the other holders of
its page waits for it, directly or not, by known waits. -/
theorem deadlock_iff_of_run {config : Config} (detects : config.detectDeadlocks = true)
    (run : Run Orderly (empty config) history locks) (settled : locks.awake = [])
    (blocked : (locks.lockOn page).canGrant tx mode ≠ true)
    (unmarked : locks.waits.isInterrupted tx = false) :
    (locks.acquire tx page mode).2 = .refused .deadlock ↔
      ∃ first ∈ (locks.lockOn page).holders, first ≠ tx ∧
        TransGen (KnownWait history locks) first tx := by
  obtain ⟨untangled, noted⟩ := run.noted detects
  have edges : Edge locks.waits.edges = KnownWait history locks := by
    funext first next
    exact propext (noted.edge_iff untangled settled)
  have others : ∀ other, other ≠ tx →
      successors (locks.waits.setWaiting tx page ((locks.lockOn page).blockers tx)).edges other =
        successors locks.waits.edges other := by
    intro other differs
    simp [differs]
  rw [acquire, evaluate_deadlock_iff, hasCycleThrough_iff_transGen, TransGen.head'_iff]
  constructor
  · rintro ⟨_, _, first, edge, path⟩
    rw [Edge, successors_setWaiting, if_pos rfl] at edge
    obtain ⟨holder, differs⟩ := List.mem_filter.mp edge
    have apart : first ≠ tx := of_decide_eq_true differs
    refine ⟨first, holder, apart, ?_⟩
    rw [← edges]
    exact (reflTransGen_iff_eq_or_transGen.mp (reflTransGen_to_of_same others path)).resolve_left apart.symm
  · rintro ⟨first, holder, differs, path⟩
    rw [← edges] at path
    refine ⟨⟨blocked, rfl, unmarked⟩, untangled.detects, first, ?_, ?_⟩
    · rw [Edge, successors_setWaiting, if_pos rfl]
      exact List.mem_filter.mpr ⟨holder, decide_eq_true differs⟩
    · exact reflTransGen_to_of_same (fun other apart => (others other apart).symm) path.to_reflTransGen

/-- Two writers want each other's page. -/
theorem deadlock_of_writers :
    ∃ history locks, Run Orderly (empty .default) history locks ∧ locks.awake = [] ∧
      (locks.lockOn ⟨0, 0⟩).canGrant ⟨2⟩ .exclusive ≠ true ∧ locks.waits.isInterrupted ⟨2⟩ = false ∧
      (locks.acquire ⟨2⟩ ⟨0, 0⟩ .exclusive).2 = .refused .deadlock ∧
      ∃ first ∈ (locks.lockOn ⟨0, 0⟩).holders, first ≠ ⟨2⟩ ∧
        TransGen (KnownWait history locks) first ⟨2⟩ := by
  have first := (@Run.start Orderly (empty .default)).step (.acquire ⟨1⟩ ⟨0, 0⟩ .exclusive)
    (by decide +kernel)
  have second := first.step (.acquire ⟨2⟩ ⟨0, 1⟩ .exclusive) (by decide +kernel)
  have run := second.step (.acquire ⟨1⟩ ⟨0, 1⟩ .shared) (by decide +kernel)
  refine ⟨_, _, run, ?settled, ?blocked, ?unmarked, ?refused,
    (deadlock_iff_of_run rfl run ?settled ?blocked ?unmarked).mp ?refused⟩
  case settled => decide +kernel
  case blocked => decide +kernel
  case unmarked => decide +kernel
  case refused => decide +kernel

/-- The last of three transactions is a late reader of the page that the first one, which holds the
page that it asks for, waits to write. So it waits on a cycle of actual waits. -/
theorem late_reader_parks :
    ∃ history locks, Run Orderly (empty .default) history locks ∧ locks.awake = [] ∧
      ¬ locks.IsParked ⟨2⟩ ∧ (locks.lockOn ⟨1, 1⟩).canGrant ⟨2⟩ .shared ≠ true ∧
      locks.waits.isInterrupted ⟨2⟩ = false ∧
      ⟨3⟩ ∈ (locks.lockOn ⟨1, 1⟩).holders ∧ locks.WaitsFor ⟨3⟩ ⟨2⟩ ∧
      (locks.acquire ⟨2⟩ ⟨1, 1⟩ .shared).2 = .parked := by
  have first := (@Run.start Orderly (empty .default)).step (.acquire ⟨3⟩ ⟨1, 1⟩ .exclusive)
    (by decide +kernel)
  have second := first.step (.acquire ⟨1⟩ ⟨1, 0⟩ .shared) (by decide +kernel)
  have third := second.step (.acquire ⟨3⟩ ⟨1, 0⟩ .exclusive) (by decide +kernel)
  have run := third.step (.acquire ⟨2⟩ ⟨1, 0⟩ .shared) (by decide +kernel)
  refine ⟨_, _, run, by decide +kernel, by decide +kernel, by decide +kernel, by decide +kernel,
    by decide +kernel, ⟨⟨⟨3⟩, ⟨1, 0⟩, .exclusive, .asleep⟩, by decide +kernel, rfl,
      by decide +kernel, by decide⟩, by decide +kernel⟩

end LockTable

end RowStore
