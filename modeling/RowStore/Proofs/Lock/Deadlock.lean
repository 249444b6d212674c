import Mathlib.Data.List.Nodup
import RowStore.Proofs.Lock.Parked
import RowStore.Proofs.Lock.Run
import RowStore.Proofs.Lock.WaitGraph

namespace RowStore.LockTable

/-! No transactions wait for each other forever.

The recorded edges may be out of date: a later reader of a page is missing from the
edges of those who wait for the page, and a woken request still has the edges of
its last look. But they never close a cycle, and the edges of a request that is
not woken lead to holders of its page, to one at least. So a chain of recorded
edges ends, and it ends at a transaction that waits for nothing.
-/

open Relation WaitGraph

variable {locks : LockTable} {history : List LockEvent} {tx other : TxId} {page place : PageId}

/-- The transaction is parked on a page that the other one holds. -/
def WaitsFor (locks : LockTable) (tx other : TxId) : Prop :=
  ∃ waiter ∈ locks.parked, waiter.tx = tx ∧ other ∈ (locks.lockOn waiter.page).holders ∧ other ≠ tx

/-- A transaction that has a request parked gives no page up. -/
def Patient (locks : LockTable) : LockAction → Prop
  | .release tx _ => ¬ locks.IsParked tx
  | .releaseAll tx => ¬ locks.IsParked tx
  | action => locks.Enabled action

instance (locks : LockTable) : (action : LockAction) → Decidable (locks.Patient action)
  | .release tx _ | .releaseAll tx => inferInstanceAs (Decidable (¬ locks.IsParked tx))
  | .retry waiter => inferInstanceAs (Decidable (locks.Enabled (.retry waiter)))
  | .acquire _ _ _ | .interrupt _ | .expire _ => .isTrue trivial

/-- A transaction makes one call at a time. Woken requests are looked at again in any order, before or
after the next calls. -/
def Orderly (locks : LockTable) : LockAction → Prop
  | .acquire tx _ _ => ¬ locks.IsParked tx
  | action => locks.Patient action

instance (locks : LockTable) : (action : LockAction) → Decidable (locks.Orderly action)
  | .acquire tx _ _ | .release tx _ | .releaseAll tx => inferInstanceAs (Decidable (¬ locks.IsParked tx))
  | .retry waiter => inferInstanceAs (Decidable (locks.Enabled (.retry waiter)))
  | .interrupt _ | .expire _ => .isTrue trivial

/-- What the recorded edges say of the requests that are not woken. -/
structure Untangled (locks : LockTable) : Prop where
  sound : locks.Sound
  detects : locks.detectDeadlocks = true
  once : (locks.parked.map Waiter.tx).Nodup
  acyclic : Acyclic locks.waits.edges
  recorded : ∀ waiter ∈ locks.parked, waiter.state = .asleep →
    successors locks.waits.edges waiter.tx ≠ []
  current : ∀ waiter ∈ locks.parked, waiter.state = .asleep →
    ∀ other ∈ successors locks.waits.edges waiter.tx,
      other ∈ (locks.lockOn waiter.page).holders ∧ other ≠ waiter.tx

theorem untangled_empty {config : Config} (detects : config.detectDeadlocks = true) :
    (empty config).Untangled where
  sound := sound_empty config
  detects := detects
  once := by simp [empty]
  acyclic := by
    intro tx cycle
    obtain ⟨other, edge, _⟩ := TransGen.head'_iff.mp cycle
    simp [Edge, successors, empty, WaitGraph.empty] at edge
  recorded := by simp [empty]
  current := by simp [empty]

/-- Edges of those who are parked may be taken over when nothing but their own edges matters. -/
theorem Untangled.of_waits {changed : LockTable} (untangled : locks.Untangled) (sound : changed.Sound)
    (detects : changed.detectDeadlocks = locks.detectDeadlocks)
    (once : (changed.parked.map Waiter.tx).Nodup)
    (fewer : ∀ tx other, Edge changed.waits.edges tx other → Edge locks.waits.edges tx other)
    (asleep : ∀ waiter ∈ changed.parked, waiter.state = .asleep → waiter ∈ locks.parked ∧
      successors changed.waits.edges waiter.tx = successors locks.waits.edges waiter.tx ∧
      ∀ other ∈ (locks.lockOn waiter.page).holders, other ∈ successors locks.waits.edges waiter.tx →
        other ∈ (changed.lockOn waiter.page).holders) : changed.Untangled where
  sound := sound
  detects := detects.trans untangled.detects
  once := once
  acyclic := untangled.acyclic.mono fewer
  recorded := by
    intro waiter parked sleeps
    obtain ⟨before, same, _⟩ := asleep waiter parked sleeps
    rw [same]
    exact untangled.recorded waiter before sleeps
  current := by
    intro waiter parked sleeps other edge
    obtain ⟨before, same, stays⟩ := asleep waiter parked sleeps
    rw [same] at edge
    obtain ⟨holder, differs⟩ := untangled.current waiter before sleeps other edge
    exact ⟨stays other holder edge, differs⟩

theorem Untangled.grant {mode : LockMode} (untangled : locks.Untangled) (alone : ¬ locks.IsParked tx)
    (granted : (locks.lockOn page).canGrant tx mode = true) (waited : Bool) :
    (locks.grant tx page mode waited).Untangled := by
  have edges : ∀ other, other ≠ tx → successors (locks.grant tx page mode waited).waits.edges other =
      successors locks.waits.edges other := by
    intro other differs
    cases waited <;> simp [LockTable.grant, differs]
  refine untangled.of_waits (untangled.sound.grant granted) rfl untangled.once ?_ ?_
  · intro first next edge
    cases waited with
    | false => exact edge
    | true =>
        simp only [Edge, LockTable.grant, if_true, successors_clearWaiting] at edge
        split at edge
        · contradiction
        · exact edge
  · intro waiter parked _
    refine ⟨parked, edges _ fun same => alone ⟨waiter, parked, same⟩, fun other holder _ => ?_⟩
    rw [lockOn_grant]
    split
    · next here => exact PageLock.mem_holders_grant.mpr (Or.inr (here ▸ holder))
    · exact holder

theorem Untangled.refuse (untangled : locks.Untangled) (alone : ¬ locks.IsParked tx) {waits : WaitGraph}
    (others : ∀ other, other ≠ tx → successors waits.edges other = successors locks.waits.edges other) :
    Untangled { locks with waits := waits.clearWaiting tx } := by
  have edges : ∀ other, other ≠ tx →
      successors (waits.clearWaiting tx).edges other = successors locks.waits.edges other := by
    intro other differs
    simp [differs, others]
  refine untangled.of_waits (untangled.sound.congr _ rfl rfl) rfl untangled.once ?_ ?_
  · intro first next edge
    by_cases same : first = tx
    · simp [Edge, same] at edge
    · rwa [Edge, edges first same] at edge
  · intro waiter parked _
    exact ⟨parked, edges _ fun same => alone ⟨waiter, parked, same⟩, fun _ holder _ => holder⟩

/-- A request that parks takes its edges from the holders of the page, after the search has found
no cycle through them. -/
theorem Untangled.park {mode : LockMode} (untangled : locks.Untangled) (alone : ¬ locks.IsParked tx)
    (blocked : (locks.lockOn page).canGrant tx mode ≠ true)
    (unclosed : (locks.waits.setWaiting tx page ((locks.lockOn page).blockers tx)).hasCycleThrough tx =
      false) :
    Untangled { locks with
      waits := locks.waits.setWaiting tx page ((locks.lockOn page).blockers tx)
      parked := locks.parked ++ [⟨tx, page, mode, .asleep⟩] } where
  sound := untangled.sound.congr _ rfl rfl
  detects := untangled.detects
  once := by
    have fresh : tx ∉ locks.parked.map Waiter.tx := by
      simpa [IsParked] using alone
    rw [List.map_append, List.nodup_append]
    refine ⟨untangled.once, List.nodup_singleton tx, fun first listed last new same => fresh ?_⟩
    rwa [same, List.mem_singleton.mp new] at listed
  acyclic := by
    have others : ∀ other, other ≠ tx →
        successors (locks.waits.setWaiting tx page ((locks.lockOn page).blockers tx)).edges other =
          successors locks.waits.edges other := by
      intro other differs
      simp [differs]
    refine untangled.acyclic.replace others fun cycle => ?_
    simp [hasCycleThrough_iff_transGen.mpr cycle] at unclosed
  recorded := by
    intro waiter parked sleeps
    rw [successors_setWaiting]
    split
    · exact blockers_ne_nil untangled.sound blocked
    · next differs =>
      rcases List.mem_append.mp parked with parked | fresh
      · exact untangled.recorded waiter parked sleeps
      · rw [List.mem_singleton.mp fresh] at differs
        contradiction
  current := by
    intro waiter parked sleeps other edge
    rw [successors_setWaiting] at edge
    rcases List.mem_append.mp parked with parked | fresh
    · rw [if_neg fun same => alone ⟨waiter, parked, same⟩] at edge
      exact untangled.current waiter parked sleeps other edge
    · obtain rfl := List.mem_singleton.mp fresh
      rw [if_pos rfl] at edge
      obtain ⟨holder, differs⟩ := List.mem_filter.mp edge
      exact ⟨holder, of_decide_eq_true differs⟩

/-- A request is looked at whose transaction has no other request parked. -/
theorem Untangled.evaluate (untangled : locks.Untangled) (alone : ¬ locks.IsParked tx)
    (page : PageId) (mode : LockMode) (waited expired : Bool) :
    (locks.evaluate tx page mode waited expired).1.Untangled := by
  unfold LockTable.evaluate
  split
  · next granted => exact untangled.grant alone granted waited
  · next blocked =>
    simp only [wait]
    split
    · exact untangled.refuse alone fun _ _ => rfl
    · split
      · exact untangled.refuse alone fun _ _ => rfl
      · split
        · exact untangled.refuse alone fun other differs => by simp [differs]
        · next unclosed =>
          rw [untangled.detects, Bool.true_and, Bool.not_eq_true] at unclosed
          exact untangled.park alone blocked unclosed

/-- Waking requests, and taking some off, asks less of the edges. -/
theorem Untangled.wake {changed : LockTable} (untangled : locks.Untangled) (sound : changed.Sound)
    (detects : changed.detectDeadlocks = locks.detectDeadlocks)
    (edges : changed.waits.edges = locks.waits.edges)
    (once : (changed.parked.map Waiter.tx).Nodup)
    (asleep : ∀ waiter ∈ changed.parked, waiter.state = .asleep →
      waiter ∈ locks.parked ∧ changed.lockOn waiter.page = locks.lockOn waiter.page) :
    changed.Untangled := by
  refine untangled.of_waits sound detects once (fun _ _ edge => edges ▸ edge) ?_
  intro waiter parked sleeps
  obtain ⟨before, same⟩ := asleep waiter parked sleeps
  exact ⟨before, by rw [edges], fun other holder _ => same ▸ holder⟩

theorem parked_erase_apart (once : (locks.parked.map Waiter.tx).Nodup) {waiter : Waiter}
    (parked : waiter ∈ locks.parked) :
    ¬ IsParked { locks with parked := locks.parked.erase waiter } waiter.tx := by
  rintro ⟨other, left, same⟩
  obtain ⟨differs, listed⟩ := (List.Nodup.mem_erase_iff (List.Nodup.of_map _ once)).mp left
  exact differs (List.inj_on_of_nodup_map once listed parked same)

theorem Untangled.retry (untangled : locks.Untangled) {waiter : Waiter}
    (parked : waiter ∈ locks.parked) : (locks.retry waiter).1.Untangled := by
  have taken : Untangled { locks with parked := locks.parked.erase waiter } := by
    refine untangled.wake (untangled.sound.congr _ rfl rfl) rfl rfl ?_ ?_
    · exact untangled.once.sublist ((List.erase_sublist).map _)
    · intro other left _
      exact ⟨List.mem_of_mem_erase left, rfl⟩
  exact taken.evaluate (parked_erase_apart untangled.once parked) _ _ _ _

theorem Untangled.release (untangled : locks.Untangled) (tx : TxId) (page : PageId) :
    (locks.release tx page).Untangled := by
  refine untangled.wake (untangled.sound.release tx page) ?_ ?_ ?_ ?_
  · exact releasePage_detectDeadlocks
  · exact congrArg WaitGraph.edges releasePage_waits
  · exact (congrArg List.Nodup map_tx_releasePage).mpr untangled.once
  · intro waiter parked sleeps
    obtain ⟨listed, free⟩ := asleep_of_releasePage parked sleeps
    refine ⟨listed, ?_⟩
    rw [lockOn_release]
    split
    · next here =>
      have unlocked : locks.lockOn page = .free := free here
      rw [here, unlocked, PageLock.release_free]
    · rfl

theorem Untangled.releaseAll (untangled : locks.Untangled) (alone : ¬ locks.IsParked tx) :
    (locks.releaseAll tx).Untangled := by
  obtain ⟨parkedTxs, detects, waits⟩ :=
    @releaseEach_frame { locks with held := locks.held.erase tx } tx (locks.heldPages tx)
  have edges : ∀ other, successors (locks.releaseAll tx).waits.edges other =
      if other = tx then [] else (successors locks.waits.edges other).filter (· ≠ tx) := by
    intro other
    simp only [LockTable.releaseAll, waits, successors_forget]
  refine untangled.of_waits (untangled.sound.releaseAll tx) detects (parkedTxs ▸ untangled.once) ?_ ?_
  · intro first next edge
    rw [Edge, edges] at edge
    split at edge
    · contradiction
    · exact List.mem_of_mem_filter edge
  · intro waiter parked sleeps
    obtain ⟨listed, free⟩ := asleep_of_releaseEach parked sleeps
    have stranger : tx ∉ (locks.lockOn waiter.page).holders := by
      intro holder
      have unlocked : locks.lockOn waiter.page = .free :=
        free ((untangled.sound.held tx waiter.page).mp holder)
      simp [unlocked, PageLock.free] at holder
    refine ⟨listed, ?_, ?_⟩
    · rw [edges, if_neg fun same => alone ⟨waiter, listed, same⟩, List.filter_eq_self]
      intro other edge
      have holder := (untangled.current waiter listed sleeps other edge).1
      simpa using fun same : other = tx => stranger (same ▸ holder)
    · intro other holder _
      rw [lockOn_releaseAll untangled.sound, PageLock.mem_holders_release]
      exact ⟨holder, fun same => stranger (same ▸ holder)⟩

theorem Untangled.interrupt (untangled : locks.Untangled) (tx : TxId) :
    (locks.interrupt tx).Untangled := by
  have marked : Untangled { locks with waits := locks.waits.interrupt tx (locks.held.contains tx) } :=
    untangled.wake (untangled.sound.congr _ rfl rfl) rfl interrupt_edges untangled.once
      fun _ parked _ => ⟨parked, rfl⟩
  simp only [LockTable.interrupt]
  split
  · refine marked.wake (marked.sound.congr _ rfl rfl) rfl rfl ?_ ?_
    · rw [map_tx_notify]
      exact marked.once
    · intro waiter parked sleeps
      exact ⟨(asleep_of_notify parked sleeps).1, rfl⟩
  · exact marked

theorem Untangled.expire (untangled : locks.Untangled) (overdue : Waiter → Bool) :
    (locks.expire overdue).Untangled := by
  refine untangled.wake (untangled.sound.expire overdue) rfl rfl ?_ fun waiter parked sleeps => ?_
  · rw [(rouses_expire locks overdue).map_tx]
    exact untangled.once
  · exact ⟨((rouses_expire locks overdue).asleep parked sleeps).1, rfl⟩

theorem Untangled.act (untangled : locks.Untangled) (action : LockAction)
    (orderly : locks.Orderly action) : (locks.act action).1.Untangled := by
  cases action with
  | acquire tx page mode => exact untangled.evaluate orderly page mode false false
  | retry waiter => exact untangled.retry orderly.1
  | release tx page => exact untangled.release tx page
  | releaseAll tx => exact untangled.releaseAll orderly
  | interrupt tx => exact untangled.interrupt tx
  | expire overdue => exact untangled.expire overdue

/-- From everybody who is parked, a chain of waits leads to somebody who is not. -/
theorem Untangled.exists_chain (untangled : locks.Untangled) (settled : locks.awake = [])
    (tx : TxId) :
    ∃ chain : List TxId, chain.head? = some tx ∧ chain.Nodup ∧ chain.IsChain locks.WaitsFor ∧
      ∃ last, chain.getLast? = some last ∧ ¬ locks.IsParked last := by
  have asleep : ∀ waiter ∈ locks.parked, waiter.state = .asleep := by
    simpa [awake] using settled
  have leaves : ∀ tx, locks.IsParked tx → successors locks.waits.edges tx ≠ [] := by
    rintro tx ⟨waiter, parked, rfl⟩
    exact untangled.recorded waiter parked (asleep waiter parked)
  obtain ⟨chain, starts, linked, ends⟩ := untangled.acyclic.exists_chain leaves tx [] (by simp)
  refine ⟨chain, starts, untangled.acyclic.nodup_of_isChain (linked.imp fun _ _ => And.right), ?_, ends⟩
  refine linked.imp ?_
  rintro first next ⟨⟨waiter, parked, rfl⟩, edge⟩
  obtain ⟨holder, differs⟩ := untangled.current waiter parked (asleep waiter parked) next edge
  exact ⟨waiter, parked, rfl, holder, differs⟩

/-- A chain that begins in a group and ends outside of it leaves the group somewhere. -/
theorem exists_leaving {related : TxId → TxId → Prop} {group : TxId → Prop} {chain : List TxId}
    (linked : chain.IsChain related) {first last : TxId} (starts : chain.head? = some first)
    (ends : chain.getLast? = some last) (inside : group first) (outside : ¬ group last) :
    ∃ tx other, group tx ∧ ¬ group other ∧ related tx other := by
  induction linked generalizing first with
  | nil => contradiction
  | singleton tx =>
      obtain rfl := Option.some.inj starts
      obtain rfl := Option.some.inj ends
      exact absurd inside outside
  | @cons_cons tx next rest edge _ ih =>
      obtain rfl := Option.some.inj starts
      by_cases stays : group next
      · exact ih rfl (by simpa using ends) stays
      · exact ⟨tx, next, inside, stays, edge⟩

/-- With the search for cycles on, every parked transaction waits, directly or not, for one that is
not parked; so transactions never wait for each other only. -/
theorem no_deadlock_of_run {config : Config} (detects : config.detectDeadlocks = true)
    (run : Run Orderly (empty config) history locks) (settled : locks.awake = []) :
    (∀ tx, locks.IsParked tx → ∃ chain : List TxId, chain.head? = some tx ∧ chain.Nodup ∧
      chain.IsChain locks.WaitsFor ∧ ∃ last, chain.getLast? = some last ∧ ¬ locks.IsParked last) ∧
    ∀ group : TxId → Prop, (∃ tx, group tx) → (∀ tx, group tx → locks.IsParked tx) →
      ∃ tx other, group tx ∧ ¬ group other ∧ locks.WaitsFor tx other := by
  have untangled : locks.Untangled := run.invariant (untangled_empty detects)
    fun _ action kept orderly => kept.act action orderly
  refine ⟨fun tx _ => untangled.exists_chain settled tx, ?_⟩
  rintro group ⟨tx, inside⟩ parked
  obtain ⟨chain, starts, _, linked, last, ends, idle⟩ := untangled.exists_chain settled tx
  exact exists_leaving linked starts ends inside fun member => idle (parked last member)

/-- A reader waits for a writer that itself waits for another page. -/
theorem no_deadlock_of_queue :
    ∃ history locks, Run Orderly (empty .default) history locks ∧ locks.awake = [] ∧
      locks.IsParked ⟨3⟩ ∧ ∃ chain : List TxId, chain.head? = some ⟨3⟩ ∧ chain.Nodup ∧
        chain.IsChain locks.WaitsFor ∧ ∃ last, chain.getLast? = some last ∧ ¬ locks.IsParked last := by
  have first := (@Run.start Orderly (empty .default)).step (.acquire ⟨1⟩ ⟨0, 0⟩ .exclusive)
    (by decide +kernel)
  have second := first.step (.acquire ⟨2⟩ ⟨0, 1⟩ .exclusive) (by decide +kernel)
  have third := second.step (.acquire ⟨1⟩ ⟨0, 1⟩ .exclusive) (by decide +kernel)
  have run := third.step (.acquire ⟨3⟩ ⟨0, 0⟩ .shared) (by decide +kernel)
  exact ⟨_, _, run, by decide +kernel, by decide +kernel,
    (no_deadlock_of_run rfl run (by decide +kernel)).1 ⟨3⟩ (by decide +kernel)⟩

end RowStore.LockTable
