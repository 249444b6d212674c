import RowStore.Proofs.Lock.Deadlock
import RowStore.Proofs.Lock.Wakeup

namespace RowStore

/-! What an interrupt does to the requests of its transaction.

An interrupt is on record until a request of the transaction is refused for it, or the
transaction gives up everything. A look at a request that cannot be granted takes it off
the record and refuses the request, unless the time of the request is over.
-/

/-- The event refuses a request of the transaction because of an interrupt. -/
def LockEvent.Aborts (tx : TxId) (event : LockEvent) : Prop :=
  (∃ page mode, event.action.request? = some (tx, page, mode)) ∧
    event.verdict = some (.refused .interrupted)

/-- After the event no interrupt of the transaction is pending that came before it. -/
def LockEvent.Spends (tx : TxId) (event : LockEvent) : Prop :=
  event.action = .releaseAll tx ∨ event.Aborts tx

namespace LockTable

variable {locks changed : LockTable} {config : Config} {history : List LockEvent}
variable {tx other : TxId} {page place : PageId} {mode : LockMode} {action : LockAction}
variable {waited expired : Bool}

theorem act_unanswered (nothing : action.request? = none) : (locks.act action).2 = none := by
  cases action <;> simp_all [LockAction.request?, act]

/-! ## What a look at a request does -/

theorem evaluate_interrupted_iff :
    (locks.evaluate tx page mode waited expired).2 = .refused .interrupted ↔
      (locks.lockOn page).canGrant tx mode ≠ true ∧ expired = false ∧ tx ∈ locks.waits.interrupted := by
  have flagged : locks.waits.isInterrupted tx = true ↔ tx ∈ locks.waits.interrupted :=
    decide_eq_true_iff
  rw [← flagged]
  simp only [evaluate, wait]
  split
  · next granted => simp [granted]
  · next blocked =>
    split
    · next late => simp [late]
    · next timely =>
      split
      · next marked => simp_all
      · next unmarked =>
        split <;> simp_all

/-- A look at a request uses an interrupt up just if it refuses the request for it. -/
theorem mem_interrupted_evaluate :
    other ∈ (locks.evaluate tx page mode waited expired).1.waits.interrupted ↔
      other ∈ locks.waits.interrupted ∧
        ¬ (other = tx ∧ (locks.evaluate tx page mode waited expired).2 = .refused .interrupted) := by
  simp only [evaluate, wait]
  split
  · cases waited <;> simp [grant, WaitGraph.clearWaiting]
  · split
    · simp [WaitGraph.clearWaiting]
    · split
      · simp [WaitGraph.clearWaiting, WaitGraph.takeInterrupt]
      · split <;> simp [WaitGraph.clearWaiting, WaitGraph.setWaiting]

/-- A look at a request ends the wait on record unless it grants the request at once, and records a new
one if the request parks. -/
theorem waitingOn_evaluate :
    (locks.evaluate tx page mode waited expired).1.waits.waitingOn.get? other =
      if other = tx ∧ ((locks.evaluate tx page mode waited expired).2 = .granted → waited = true) then
        if (locks.evaluate tx page mode waited expired).2 = .parked then some page else none
      else locks.waits.waitingOn.get? other := by
  simp only [evaluate, wait]
  split
  · cases waited <;> simp [grant, WaitGraph.clearWaiting, FinMap.get?_erase]
  · split
    · simp [WaitGraph.clearWaiting, FinMap.get?_erase]
    · split
      · simp [WaitGraph.clearWaiting, WaitGraph.takeInterrupt, FinMap.get?_erase]
      · split
        · by_cases same : other = tx <;>
            simp [WaitGraph.clearWaiting, WaitGraph.setWaiting, FinMap.get?_erase, FinMap.get?_insert, same]
        · simp [WaitGraph.setWaiting, FinMap.get?_insert]

theorem parked_evaluate :
    (locks.evaluate tx page mode waited expired).1.parked =
      if (locks.evaluate tx page mode waited expired).2 = .parked then
        locks.parked ++ [⟨tx, page, mode, .asleep⟩]
      else locks.parked := by
  simp only [evaluate, wait]
  split
  · simp [grant]
  · split
    · simp
    · split
      · simp
      · split <;> simp

/-- A request parks beside those of other transactions. -/
theorem nodup_evaluate (once : (locks.parked.map Waiter.tx).Nodup) (alone : ¬ locks.IsParked tx) :
    ((locks.evaluate tx page mode waited expired).1.parked.map Waiter.tx).Nodup := by
  rw [parked_evaluate]
  split
  · rw [List.map_append, List.nodup_append]
    refine ⟨once, List.nodup_singleton tx, fun first listed last new same => ?_⟩
    rw [same, List.mem_singleton.mp new] at listed
    exact alone (isParked_iff.mpr listed)
  · exact once

theorem nodup_retry {waiter : Waiter} (once : (locks.parked.map Waiter.tx).Nodup)
    (parked : waiter ∈ locks.parked) : ((locks.retry waiter).1.parked.map Waiter.tx).Nodup :=
  nodup_evaluate (once.sublist (List.erase_sublist.map _)) (parked_erase_apart once parked)

theorem occupied_evaluate (occupied : ∀ tx, locks.held.get? tx ≠ some []) :
    (locks.evaluate tx page mode waited expired).1.held.get? other ≠ some [] := by
  by_cases granted : (locks.evaluate tx page mode waited expired).2 = .granted
  · rw [evaluate_of_granted granted, grant, FinMap.get?_insert]
    split
    · split
      · next listed => simpa using List.ne_nil_of_mem listed
      · simp
    · exact occupied other
  · rw [evaluate_of_not_granted granted, wait_held]
    exact occupied other

theorem contains_held_iff (sound : locks.Sound) (occupied : ∀ tx, locks.held.get? tx ≠ some []) :
    locks.held.contains tx = true ↔ ∃ page, tx ∈ (locks.lockOn page).holders := by
  simp only [sound.held, FinMap.contains, heldPages]
  cases found : locks.held.get? tx with
  | none => simp
  | some pages =>
      cases pages with
      | nil => exact absurd found (occupied tx)
      | cons page rest => exact ⟨fun _ => ⟨page, by simp⟩, fun _ => rfl⟩

theorem occupied_release (occupied : ∀ tx, locks.held.get? tx ≠ some []) :
    (locks.release tx page).held.get? other ≠ some [] := by
  rw [LockTable.release, releasePage_held]
  generalize (locks.heldPages tx).filter (fun other => other ≠ page) = left
  cases left with
  | nil =>
      simp only [List.isEmpty_nil, if_true, FinMap.get?_erase]
      split
      · simp
      · exact occupied other
  | cons first rest =>
      simp only [List.isEmpty_cons, Bool.false_eq_true, if_false, FinMap.get?_insert]
      split
      · simp
      · exact occupied other

theorem occupied_releaseAll (occupied : ∀ tx, locks.held.get? tx ≠ some []) :
    (locks.releaseAll tx).held.get? other ≠ some [] := by
  simp only [LockTable.releaseAll, releaseEach_held, FinMap.get?_erase]
  split
  · simp
  · exact occupied other

/-- A transaction that holds no page has no list of pages. -/
theorem occupied_act (occupied : ∀ tx, locks.held.get? tx ≠ some []) :
    (locks.act action).1.held.get? other ≠ some [] := by
  cases action with
  | acquire | retry => exact occupied_evaluate occupied
  | release giver page => exact occupied_release occupied
  | releaseAll giver => exact occupied_releaseAll occupied
  | interrupt => simpa [act] using occupied other
  | expire => exact occupied other

/-! ## What waking requests leaves -/

theorem mem_parked_of_notify {waiter : Waiter} (parked : waiter ∈ (locks.notify page).parked)
    (unwoken : waiter.state ≠ .woken) : waiter ∈ locks.parked := by
  obtain ⟨before, listed, rfl⟩ := List.mem_map.mp parked
  split
  · next here => simp [here] at unwoken
  · exact listed

theorem Rouses.waits_for_iff {still : Waiter → Prop} (rouses : locks.Rouses changed still) :
    (∃ waiter ∈ changed.parked, waiter.tx = tx ∧ waiter.page = page) ↔
      ∃ waiter ∈ locks.parked, waiter.tx = tx ∧ waiter.page = page := by
  constructor
  · rintro ⟨waiter, parked, asker, wanted⟩
    obtain ⟨state, before⟩ := rouses.before parked
    exact ⟨_, before, asker, wanted⟩
  · rintro ⟨waiter, parked, asker, wanted⟩
    obtain ⟨state, after, _⟩ := rouses.after parked
    exact ⟨_, after, asker, wanted⟩

theorem interrupt_waits : (locks.interrupt tx).waits = locks.waits.interrupt tx (locks.held.contains tx) := by
  unfold interrupt
  split <;> rfl

theorem interrupt_waitingOn : (locks.interrupt tx).waits.waitingOn = locks.waits.waitingOn := by
  rw [interrupt_waits, WaitGraph.interrupt]
  split <;> rfl

/-! ## Looking at requests of interrupted transactions -/

theorem act_granted_iff (asked : action.request? = some (tx, page, mode)) :
    (locks.act action).2 = some .granted ↔ (locks.lockOn page).canGrant tx mode = true := by
  cases action with
  | acquire asker wanted wish =>
      obtain ⟨rfl, rfl, rfl⟩ : asker = tx ∧ wanted = page ∧ wish = mode := by
        simpa [LockAction.request?] using asked
      exact (Option.some_inj).trans evaluate_granted_iff
  | retry waiter =>
      obtain ⟨rfl, rfl, rfl⟩ : waiter.tx = tx ∧ waiter.page = page ∧ waiter.mode = mode := by
        simpa [LockAction.request?] using asked
      exact (Option.some_inj).trans evaluate_granted_iff
  | release | releaseAll | interrupt | expire => simp [LockAction.request?] at asked

theorem isParked_evaluate :
    (locks.evaluate tx page mode waited expired).1.IsParked other ↔
      locks.IsParked other ∨
        other = tx ∧ (locks.evaluate tx page mode waited expired).2 = .parked := by
  rw [isParked_iff, parked_evaluate, isParked_iff]
  split
  · next waits => simp [waits]
  · next answered => simp [answered]

theorem isParked_retry_of_ne {waiter : Waiter} (differs : other ≠ waiter.tx) :
    (locks.retry waiter).1.IsParked other ↔ locks.IsParked other := by
  refine isParked_evaluate.trans ?_
  simp only [differs, false_and, or_false]
  constructor
  · rintro ⟨left, listed, same⟩
    exact ⟨left, List.mem_of_mem_erase listed, same⟩
  · rintro ⟨left, listed, rfl⟩
    exact ⟨left, (List.mem_erase_of_ne fun equal => differs (congrArg Waiter.tx equal)).mpr listed, rfl⟩

/-- Where no parked request can be granted, a look at one grants nothing. -/
theorem stalled_retry {waiter : Waiter} (parked : waiter ∈ locks.parked)
    (stalled : ∀ waiter ∈ locks.parked, ¬ locks.Grantable waiter) :
    ∀ other ∈ (locks.retry waiter).1.parked, ¬ (locks.retry waiter).1.Grantable other := by
  have blocked : (locks.retry waiter).2 ≠ .granted := mt evaluate_granted_iff.mp (stalled waiter parked)
  have lockOn : ∀ page, (locks.retry waiter).1.lockOn page = locks.lockOn page :=
    fun page => lockOn_evaluate_of_not_granted blocked
  intro other listed possible
  rw [Grantable, lockOn] at possible
  rcases mem_parked_evaluate listed with before | ⟨rfl, _⟩
  · exact stalled other (List.mem_of_mem_erase before) possible
  · exact stalled waiter parked possible

theorem not_isParked_retryEach {order : List Waiter} (every : order.Perm locks.woken)
    (alone : ¬ locks.IsParked tx) : ¬ (locks.retryEach order).IsParked tx := by
  induction order generalizing locks with
  | nil => exact alone
  | cons waiter rest ih =>
      have listed : waiter ∈ locks.woken := every.subset List.mem_cons_self
      have differs : tx ≠ waiter.tx := by
        rintro rfl
        exact alone ⟨waiter, List.mem_of_mem_filter listed, rfl⟩
      exact ih ((every.trans (woken_retry listed)).cons_inv) (mt (isParked_retry_of_ne differs).mp alone)

/-- While no parked request can be granted, one look at each woken request refuses one of an
interrupted transaction, whenever its turn comes. -/
theorem retryEach_interrupted {order : List Waiter}
    (stalled : ∀ waiter ∈ locks.parked, ¬ locks.Grantable waiter)
    (timely : ∀ waiter ∈ locks.parked, waiter.tx = tx → waiter.state ≠ .expired)
    (marked : tx ∈ locks.waits.interrupted) (waits : ∃ waiter ∈ locks.woken, waiter.tx = tx)
    (every : order.Perm locks.woken) :
    ∃ (before : List Waiter) (waiter : Waiter) (after : List Waiter),
      order = before ++ waiter :: after ∧ waiter.tx = tx ∧
        ((locks.retryEach before).retry waiter).2 = .refused .interrupted ∧
        ((locks.parked.map Waiter.tx).Nodup → ¬ (locks.retryEach order).IsParked tx) := by
  induction order generalizing locks with
  | nil =>
      obtain ⟨waiter, listed, _⟩ := waits
      exact absurd (every.symm.subset listed) List.not_mem_nil
  | cons first rest ih =>
      have listed : first ∈ locks.woken := every.subset List.mem_cons_self
      have parked : first ∈ locks.parked := List.mem_of_mem_filter listed
      have left : rest.Perm (locks.retry first).1.woken := (every.trans (woken_retry listed)).cons_inv
      by_cases same : tx = first.tx
      · subst same
        have refused : (locks.retry first).2 = .refused .interrupted :=
          evaluate_interrupted_iff.mpr
            ⟨stalled first parked, decide_eq_false (timely first parked rfl), marked⟩
        refine ⟨[], first, rest, rfl, rfl, refused, fun once => ?_⟩
        have gone : ¬ (locks.retry first).1.IsParked first.tx := by
          refine fun again => (isParked_evaluate.mp again).elim ?_ fun both => ?_
          · exact parked_erase_apart once parked
          · exact Verdict.noConfusion (refused.symm.trans both.2)
        have after := not_isParked_retryEach left gone
        exact after
      · have still : tx ∈ (locks.retry first).1.waits.interrupted :=
          mem_interrupted_evaluate.mpr ⟨marked, fun both => same both.1⟩
        have punctual : ∀ waiter ∈ (locks.retry first).1.parked, waiter.tx = tx →
            waiter.state ≠ .expired := by
          intro waiter there asker
          rcases mem_parked_evaluate there with before | ⟨rfl, _⟩
          · exact timely waiter (List.mem_of_mem_erase before) asker
          · simp
        have waiting : ∃ waiter ∈ (locks.retry first).1.woken, waiter.tx = tx := by
          obtain ⟨waiter, woken, asker⟩ := waits
          have differs : waiter ≠ first := fun equal => same (asker.symm.trans (congrArg Waiter.tx equal))
          exact ⟨waiter, (List.mem_cons.mp ((woken_retry listed).subset woken)).resolve_left differs, asker⟩
        obtain ⟨before, waiter, after, rfl, asker, refused, gone⟩ :=
          ih (stalled_retry parked stalled) punctual still waiting left
        exact ⟨first :: before, waiter, after, rfl, asker, refused, fun once => gone (nodup_retry once parked)⟩

end LockTable

end RowStore
