import RowStore.Proofs.Lock.Parked
import RowStore.Proofs.Lock.Run

namespace RowStore.LockTable

/-! Whoever is refused for a deadlock is in one.

A transaction may have several requests parked; the edges recorded for it are those
of one of them. Such an edge is out of date only when the holder at its end gave up
the page. That wakes the request, and the holder has no request parked, so no
edges leave it: a search comes to a dead end there. The holder puts no other
request before the woken one was looked at, and then the edge is gone.
-/

open Relation WaitGraph

variable {locks changed : LockTable} {history : List LockEvent} {tx other : TxId} {page : PageId}
variable {mode : LockMode} {action : LockAction}

/-- Every woken request is looked at again before the next request is put, and a transaction gives up
pages only while none of its requests is parked. -/
def Prompt (locks : LockTable) : LockAction → Prop
  | .acquire _ _ _ => locks.awake = []
  | .retry waiter => waiter ∈ locks.parked ∧ waiter.state ≠ .asleep
  | .release tx _ => ¬ locks.IsParked tx
  | .releaseAll tx => ¬ locks.IsParked tx
  | .interrupt _ => True
  | .expire _ => True

instance (locks : LockTable) : (action : LockAction) → Decidable (locks.Prompt action)
  | .acquire _ _ _ => inferInstanceAs (Decidable (locks.awake = []))
  | .retry waiter => inferInstanceAs (Decidable (waiter ∈ locks.parked ∧ waiter.state ≠ .asleep))
  | .release tx _ => inferInstanceAs (Decidable (¬ locks.IsParked tx))
  | .releaseAll tx => inferInstanceAs (Decidable (¬ locks.IsParked tx))
  | .interrupt _ => .isTrue trivial
  | .expire _ => .isTrue trivial

/-- A request that an action looks at, or that is parked. -/
def Outstanding (locks : LockTable) (action : LockAction) (tx : TxId) (page : PageId) (mode : LockMode) :
    Prop :=
  action.request? = some (tx, page, mode) ∨ ∃ state, ⟨tx, page, mode, state⟩ ∈ locks.parked

/-- Some request of the transaction cannot be granted, and the other one holds its page. -/
def BlockedBy (locks : LockTable) (action : LockAction) (tx other : TxId) : Prop :=
  ∃ page mode, locks.Outstanding action tx page mode ∧
    (locks.lockOn page).canGrant tx mode ≠ true ∧
    other ∈ (locks.lockOn page).holders ∧ other ≠ tx

/-- What an edge from a parked request to another transaction says: the request waits for it, or it
has to be looked at again and the other transaction waits for nothing. -/
def Stands (locks : LockTable) (waiter : Waiter) (other : TxId) : Prop :=
  other ≠ waiter.tx ∧
    (other ∈ (locks.lockOn waiter.page).holders ∧
        (locks.lockOn waiter.page).canGrant waiter.tx waiter.mode ≠ true ∨
      waiter.state ≠ .asleep ∧ ¬ locks.IsParked other)

/-- One parked request of the transaction stands for all edges that leave it. -/
def Vouched (locks : LockTable) (tx : TxId) : Prop :=
  ∃ waiter ∈ locks.parked, waiter.tx = tx ∧
    ∀ other ∈ successors locks.waits.edges tx, locks.Stands waiter other

structure Truthful (locks : LockTable) : Prop where
  sound : locks.Sound
  edges : ∀ tx, successors locks.waits.edges tx ≠ [] → locks.Vouched tx

theorem truthful_empty (config : Config) : (empty config).Truthful :=
  ⟨sound_empty config, by simp [successors, empty, WaitGraph.empty]⟩

section
variable {taken : LockTable} {waited : Bool}

/-- The requests of a transaction whose edges were left alone stand for them as before. -/
theorem Truthful.vouched (truthful : locks.Truthful)
    (edges : ∀ next, Edge changed.waits.edges other next → Edge locks.waits.edges other next)
    (stay : ∀ waiter ∈ locks.parked, waiter.tx = other → waiter ∈ changed.parked)
    (blocked : ∀ page next mode, next ∈ (locks.lockOn page).holders →
      (locks.lockOn page).canGrant other mode ≠ true → next ∈ (changed.lockOn page).holders ∧
        (changed.lockOn page).canGrant other mode ≠ true)
    (idle : ∀ waiter ∈ locks.parked, waiter.state ≠ .asleep → ∀ next, ¬ locks.IsParked next →
      ¬ changed.IsParked next)
    (leaves : successors changed.waits.edges other ≠ []) : changed.Vouched other := by
  obtain ⟨next, edge⟩ := List.exists_mem_of_ne_nil _ leaves
  obtain ⟨waiter, parked, rfl, stands⟩ := truthful.edges other (List.ne_nil_of_mem (edges next edge))
  refine ⟨waiter, stay waiter parked rfl, rfl, fun next edge => ?_⟩
  obtain ⟨differs, ⟨holder, waits⟩ | ⟨awake, alone⟩⟩ := stands next (edges next edge)
  · exact ⟨differs, Or.inl (blocked _ _ _ holder waits)⟩
  · exact ⟨differs, Or.inr ⟨awake, idle waiter parked awake next alone⟩⟩

theorem Truthful.grant (truthful : locks.Truthful) (look : locks.Taken taken tx waited)
    (granted : (taken.lockOn page).canGrant tx mode = true) :
    (taken.grant tx page mode waited).Truthful := by
  refine ⟨(look.sound truthful.sound).grant granted, fun other leaves => ?_⟩
  have unwaited : other = tx → waited = false := by
    rintro rfl
    cases waited with
    | false => rfl
    | true => simp [LockTable.grant] at leaves
  refine truthful.vouched ?_ ?_ ?_ (fun _ _ _ _ => look.not_isParked) leaves
  · intro next edge
    cases waited <;> simp_all [Edge, LockTable.grant, look.waits]
  · rintro waiter parked rfl
    exact look.others waiter parked unwaited
  · intro place next wish holder blocked
    rw [lockOn_grant, look.lockOn_eq, look.lockOn_eq]
    rw [look.lockOn_eq] at granted
    split
    · next here =>
      subst here
      refine ⟨PageLock.mem_holders_grant.mpr (Or.inr holder), mt ?_ blocked⟩
      exact (truthful.sound.lock place).canGrant_of_grant granted
    · exact ⟨holder, blocked⟩

theorem Truthful.refuse (truthful : locks.Truthful) (look : locks.Taken taken tx waited)
    {waits : WaitGraph}
    (kept : ∀ other, other ≠ tx → successors waits.edges other = successors taken.waits.edges other) :
    Truthful { taken with waits := waits.clearWaiting tx } := by
  refine ⟨(look.sound truthful.sound).congr _ rfl rfl, fun other leaves => ?_⟩
  have differs : other ≠ tx := by
    rintro rfl
    simp at leaves
  refine truthful.vouched ?_ ?_ ?_ (fun _ _ _ _ => look.not_isParked) leaves
  · intro next edge
    simpa [Edge, differs, kept, look.waits] using edge
  · rintro waiter parked rfl
    exact look.others waiter parked fun same => absurd same differs
  · intro place next wish holder blocked
    exact (look.lockOn_eq place).symm ▸ ⟨holder, blocked⟩

/-- A request that parks stands for the edges to all other holders of its page. -/
theorem Truthful.park (truthful : locks.Truthful) (look : locks.Taken taken tx waited)
    (known : ∀ waiter ∈ locks.parked, waiter.state ≠ .asleep → locks.IsParked tx)
    (blocked : (taken.lockOn page).canGrant tx mode ≠ true) :
    Truthful { taken with
      waits := taken.waits.setWaiting tx page ((taken.lockOn page).blockers tx)
      parked := taken.parked ++ [⟨tx, page, mode, .asleep⟩] } := by
  refine ⟨(look.sound truthful.sound).congr _ rfl rfl, fun other leaves => ?_⟩
  by_cases same : other = tx
  · subst same
    refine ⟨⟨other, page, mode, .asleep⟩, by simp, rfl, fun next edge => ?_⟩
    simp only [successors_setWaiting, if_true] at edge
    obtain ⟨holder, apart⟩ := List.mem_filter.mp edge
    exact ⟨of_decide_eq_true apart, Or.inl ⟨holder, blocked⟩⟩
  · refine truthful.vouched ?_ ?_ ?_ ?_ leaves
    · intro next edge
      simpa [Edge, same, look.waits] using edge
    · rintro waiter parked rfl
      exact List.mem_append_left _ (look.others waiter parked fun equal => absurd equal same)
    · intro place next wish holder stands
      exact (look.lockOn_eq place).symm ▸ ⟨holder, stands⟩
    · rintro waiter parked awake next alone ⟨left, listed, rfl⟩
      rcases List.mem_append.mp listed with listed | fresh
      · exact look.not_isParked alone ⟨left, listed, rfl⟩
      · rw [List.mem_singleton.mp fresh] at alone
        exact alone (known waiter parked awake)

theorem Truthful.evaluate (truthful : locks.Truthful) (look : locks.Taken taken tx waited)
    (known : ∀ waiter ∈ locks.parked, waiter.state ≠ .asleep → locks.IsParked tx)
    (page : PageId) (mode : LockMode) (expired : Bool) :
    (taken.evaluate tx page mode waited expired).1.Truthful := by
  by_cases granted : (taken.evaluate tx page mode waited expired).2 = .granted
  · rw [evaluate_of_granted granted]
    exact truthful.grant look (evaluate_granted_iff.mp granted)
  · rw [evaluate_of_not_granted granted]
    obtain ⟨reason, waits, result, kept⟩ | result := taken.wait_cases tx page mode expired
    · rw [result]
      exact truthful.refuse look kept
    · rw [result]
      exact truthful.park look known (mt evaluate_granted_iff.mpr granted)

/-- A cycle that the search finds for a blocked request is one of actual waits: an edge that is out of
date leads to somebody whom no edge leaves. -/
theorem Truthful.cycle {expired : Bool} (truthful : locks.Truthful)
    (look : locks.Taken taken tx waited)
    (known : ∀ waiter ∈ locks.parked, waiter.state ≠ .asleep → locks.IsParked tx)
    (asked : action.request? = some (tx, page, mode))
    (refused : (taken.evaluate tx page mode waited expired).2 = .refused .deadlock) :
    TransGen (locks.BlockedBy action) tx tx := by
  obtain ⟨⟨blocked, _, _⟩, _, found⟩ := evaluate_deadlock_iff.mp refused
  rw [look.lockOn_eq] at blocked
  rw [look.lockOn_eq, look.waits, hasCycleThrough_iff_transGen] at found
  generalize graph : locks.waits.setWaiting tx page ((locks.lockOn page).blockers tx) = searched at found
  have own : ∀ next, Edge searched.edges tx next → locks.BlockedBy action tx next := by
    intro next edge
    rw [Edge, ← graph, successors_setWaiting, if_pos rfl] at edge
    obtain ⟨holder, apart⟩ := List.mem_filter.mp edge
    exact ⟨page, mode, Or.inl asked, blocked, holder, of_decide_eq_true apart⟩
  have recorded : ∀ first next, first ≠ tx → Edge searched.edges first next →
      Edge locks.waits.edges first next := by
    intro first next differs edge
    rwa [Edge, ← graph, successors_setWaiting, if_neg differs] at edge
  have actual : ∀ first next, Edge searched.edges first next →
      (next = tx ∨ ∃ further, Edge searched.edges next further) → locks.BlockedBy action first next := by
    intro first next edge goesOn
    by_cases same : first = tx
    · subst same
      exact own next edge
    · have old := recorded first next same edge
      obtain ⟨waiter, parked, rfl, stands⟩ := truthful.edges first (List.ne_nil_of_mem old)
      obtain ⟨differs, ⟨holder, waits⟩ | ⟨awake, idle⟩⟩ := stands next old
      · exact ⟨waiter.page, waiter.mode, Or.inr ⟨waiter.state, parked⟩, waits, holder, differs⟩
      · have back := known waiter parked awake
        refine absurd ?_ idle
        by_cases here : next = tx
        · exact here ▸ back
        · obtain ⟨further, onward⟩ := goesOn.resolve_left here
          obtain ⟨other, listed, same, _⟩ :=
            truthful.edges next (List.ne_nil_of_mem (recorded next further here onward))
          exact ⟨other, listed, same⟩
  have lifted : ∀ first, TransGen (Edge searched.edges) first tx →
      TransGen (locks.BlockedBy action) first tx := by
    intro first path
    induction path using TransGen.head_induction_on with
    | single edge => exact .single (actual _ _ edge (Or.inl rfl))
    | head edge path ih =>
        obtain ⟨further, onward, _⟩ := TransGen.head'_iff.mp path
        exact .head (actual _ _ edge (Or.inr ⟨further, onward⟩)) ih
  exact lifted tx found

end

/-- Who gave up a page waits for nothing, and the requests behind it are woken; so they stand for
their edges still, those to the other holders as those to it. -/
theorem Stands.giveUp {waiter : Waiter} {state : WaiterState} (stands : locks.Stands waiter other)
    (sound : locks.Sound) (alone : ¬ locks.IsParked tx)
    (sleeps : state = .asleep → waiter.state = .asleep)
    (lock : changed.lockOn waiter.page = locks.lockOn waiter.page ∨
      changed.lockOn waiter.page = (locks.lockOn waiter.page).release tx ∧
        (state = .asleep → locks.lockOn waiter.page = .free))
    (parked : ∀ other, changed.IsParked other ↔ locks.IsParked other) :
    changed.Stands { waiter with state } other := by
  obtain ⟨differs, ⟨holder, blocked⟩ | ⟨awake, idle⟩⟩ := stands
  · rcases lock with same | ⟨released, free⟩
    · exact ⟨differs, Or.inl (same ▸ ⟨holder, blocked⟩)⟩
    · by_cases gone : other = tx
      · subst gone
        refine ⟨differs, Or.inr ⟨fun asleep => ?_, mt (parked other).mp alone⟩⟩
        simp [free asleep, PageLock.free] at holder
      · have left : other ∈ ((locks.lockOn waiter.page).release tx).holders :=
          PageLock.mem_holders_release.mpr ⟨holder, gone⟩
        refine ⟨differs, Or.inl ?_⟩
        rw [released]
        exact ⟨left, mt ((sound.lock waiter.page).canGrant_of_release left differs) blocked⟩
  · exact ⟨differs, Or.inr ⟨mt sleeps awake, mt (parked other).mp idle⟩⟩

theorem Truthful.release (truthful : locks.Truthful) (alone : ¬ locks.IsParked tx) (page : PageId) :
    (locks.release tx page).Truthful := by
  have waits : (locks.release tx page).waits = locks.waits := releasePage_waits
  have rouses := rouses_release locks tx page
  refine ⟨truthful.sound.release tx page, fun other leaves => ?_⟩
  rw [waits] at leaves
  obtain ⟨waiter, parked, rfl, stands⟩ := truthful.edges other leaves
  obtain ⟨state, left, sleeps⟩ := rouses.after parked
  refine ⟨_, left, rfl, fun next edge => ?_⟩
  rw [waits] at edge
  refine (stands next edge).giveUp truthful.sound alone (fun asleep => (sleeps asleep).1) ?_
    fun _ => rouses.isParked_iff
  rw [lockOn_release]
  split
  · next here => exact Or.inr ⟨by rw [here], fun asleep => here ▸ (sleeps asleep).2 here⟩
  · exact Or.inl rfl

theorem Truthful.releaseAll (truthful : locks.Truthful) (alone : ¬ locks.IsParked tx) :
    (locks.releaseAll tx).Truthful := by
  have rouses := rouses_releaseAll locks tx
  have edges : ∀ other next, Edge (locks.releaseAll tx).waits.edges other next →
      Edge locks.waits.edges other next := by
    intro other next edge
    rw [Edge, successors_releaseAll] at edge
    split at edge
    · contradiction
    · exact List.mem_of_mem_filter edge
  refine ⟨truthful.sound.releaseAll tx, fun other leaves => ?_⟩
  obtain ⟨first, edge⟩ := List.exists_mem_of_ne_nil _ leaves
  obtain ⟨waiter, parked, rfl, stands⟩ := truthful.edges other (List.ne_nil_of_mem (edges other first edge))
  obtain ⟨state, left, sleeps⟩ := rouses.after parked
  refine ⟨_, left, rfl, fun next edge => ?_⟩
  refine (stands next (edges _ next edge)).giveUp truthful.sound alone (fun asleep => (sleeps asleep).1)
    ?_ fun _ => rouses.isParked_iff
  rw [lockOn_releaseAll truthful.sound]
  by_cases held : waiter.page ∈ locks.heldPages tx
  · exact Or.inr ⟨rfl, fun asleep => (sleeps asleep).2 held⟩
  · exact Or.inl ((truthful.sound.lock waiter.page).release_of_not_mem
      (mt (truthful.sound.held tx waiter.page).mp held))

/-- Waking requests leaves what they stand for. -/
theorem Truthful.wake {still : Waiter → Prop} (truthful : locks.Truthful) (sound : changed.Sound)
    (edges : changed.waits.edges = locks.waits.edges) (pages : changed.pages = locks.pages)
    (rouses : locks.Rouses changed still) : changed.Truthful := by
  refine ⟨sound, fun other leaves => ?_⟩
  rw [edges] at leaves
  obtain ⟨waiter, parked, rfl, stands⟩ := truthful.edges other leaves
  obtain ⟨state, left, sleeps⟩ := rouses.after parked
  have same : changed.lockOn waiter.page = locks.lockOn waiter.page := by simp [LockTable.lockOn, pages]
  refine ⟨_, left, rfl, fun next edge => ?_⟩
  rw [edges] at edge
  obtain ⟨differs, waits | ⟨awake, idle⟩⟩ := stands next edge
  · exact ⟨differs, Or.inl (same ▸ waits)⟩
  · exact ⟨differs, Or.inr ⟨mt (fun asleep => (sleeps asleep).1) awake, mt rouses.isParked_iff.mp idle⟩⟩

theorem Truthful.interrupt (truthful : locks.Truthful) (tx : TxId) : (locks.interrupt tx).Truthful :=
  truthful.wake (truthful.sound.interrupt tx) interrupt_waits_edges interrupt_pages
    (rouses_interrupt locks tx)

theorem Truthful.expire (truthful : locks.Truthful) (overdue : Waiter → Bool) :
    (locks.expire overdue).Truthful :=
  truthful.wake (truthful.sound.expire overdue) rfl rfl (rouses_expire locks overdue)

/-- A woken request is never in the way of a look: none is left when a new request comes, and the
transaction of a request that is looked at again is parked already. -/
theorem Prompt.known (prompt : locks.Prompt action) (asked : action.request? = some (tx, page, mode)) :
    ∀ waiter ∈ locks.parked, waiter.state ≠ .asleep → locks.IsParked tx := by
  intro waiter parked awake
  cases action with
  | acquire other place wish =>
      have asleep : ∀ waiter ∈ locks.parked, waiter.state = .asleep := by
        simpa [Prompt, LockTable.awake] using prompt
      exact absurd (asleep waiter parked) awake
  | retry again =>
      obtain ⟨rfl, _⟩ := Prod.mk.inj (Option.some.inj asked)
      exact ⟨again, prompt.1, rfl⟩
  | release | releaseAll | interrupt | expire => simp [LockAction.request?] at asked

theorem Truthful.act (truthful : locks.Truthful) (action : LockAction) (prompt : locks.Prompt action) :
    (locks.act action).1.Truthful := by
  cases action with
  | acquire tx page mode => exact truthful.evaluate (taken_acquire locks tx) (prompt.known rfl) page mode false
  | retry waiter => exact truthful.evaluate (taken_retry prompt.1) (prompt.known rfl) _ _ _
  | release tx page => exact truthful.release prompt page
  | releaseAll tx => exact truthful.releaseAll prompt
  | interrupt tx => exact truthful.interrupt tx
  | expire overdue => exact truthful.expire overdue

/-- Whenever a request is refused for a deadlock, at its first look or at a later one, its transaction
is at that moment on a cycle of transactions each of which has a request that cannot be granted, on a
page that the next one holds. -/
theorem real_cycle_of_run {config : Config} (run : Run Prompt (empty config) history locks)
    (prompt : locks.Prompt action) (refused : (locks.act action).2 = some (.refused .deadlock)) :
    ∃ tx page mode, action.request? = some (tx, page, mode) ∧
      TransGen (locks.BlockedBy action) tx tx := by
  have truthful : locks.Truthful := run.invariant (truthful_empty config)
    fun _ action kept prompt => kept.act action prompt
  cases action with
  | acquire tx page mode =>
      exact ⟨tx, page, mode, rfl,
        truthful.cycle (taken_acquire locks tx) (prompt.known rfl) rfl (Option.some.inj refused)⟩
  | retry waiter =>
      exact ⟨waiter.tx, waiter.page, waiter.mode, rfl,
        truthful.cycle (taken_retry prompt.1) (prompt.known rfl) rfl (Option.some.inj refused)⟩
  | release tx page => contradiction
  | releaseAll tx => contradiction
  | interrupt tx => contradiction
  | expire overdue => contradiction

/-- Two readers of a page both want to write it. -/
theorem real_cycle_of_upgrades :
    ∃ history locks, Run Prompt (empty .default) history locks ∧
      ∃ action, locks.Prompt action ∧ (locks.act action).2 = some (.refused .deadlock) ∧
        ∃ tx page mode, action.request? = some (tx, page, mode) ∧
          TransGen (locks.BlockedBy action) tx tx := by
  have first := (@Run.start Prompt (empty .default)).step (.acquire ⟨1⟩ ⟨0, 0⟩ .shared) (by decide +kernel)
  have second := first.step (.acquire ⟨2⟩ ⟨0, 0⟩ .shared) (by decide +kernel)
  have run := second.step (.acquire ⟨1⟩ ⟨0, 0⟩ .exclusive) (by decide +kernel)
  refine ⟨_, _, run, .acquire ⟨2⟩ ⟨0, 0⟩ .exclusive, ?prompt, ?refused,
    real_cycle_of_run run ?prompt ?refused⟩
  case prompt => decide +kernel
  case refused => decide +kernel

end RowStore.LockTable
