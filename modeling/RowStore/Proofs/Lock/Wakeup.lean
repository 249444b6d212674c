import RowStore.Proofs.Lock.Parked
import RowStore.Proofs.Lock.Run

namespace RowStore.LockTable

/-! No wake-up is lost.

A request that sleeps could not be granted when it was last looked at. Later grants
make it no more possible, and whatever takes a holder off its page wakes it. So
one look at each woken request, in any order, leaves only requests that have to
wait.
-/

variable {locks start : LockTable} {history : List LockEvent} {tx : TxId} {page : PageId}
variable {mode : LockMode}

def Grantable (locks : LockTable) (waiter : Waiter) : Prop :=
  (locks.lockOn waiter.page).canGrant waiter.tx waiter.mode = true

instance (locks : LockTable) (waiter : Waiter) : Decidable (locks.Grantable waiter) :=
  inferInstanceAs (Decidable (_ = true))

/-- The parked requests that are to be looked at again. -/
def woken (locks : LockTable) : List Waiter :=
  locks.parked.filter fun waiter => waiter.state ≠ .asleep

/-- Looks again at some parked requests, one after the other. -/
def retryEach (locks : LockTable) (order : List Waiter) : LockTable :=
  order.foldl (fun locks waiter => (locks.retry waiter).1) locks

/-- Only requests sleep that cannot be granted. -/
structure Attentive (locks : LockTable) : Prop where
  sound : locks.Sound
  asleep : ∀ waiter ∈ locks.parked, waiter.state = .asleep → ¬ locks.Grantable waiter

theorem attentive_empty (config : Config) : (empty config).Attentive :=
  ⟨sound_empty config, by simp [empty]⟩

/-- Whoever still sleeps after an operation slept before it, with the same lock on the page. -/
theorem Attentive.of_lockOn {changed : LockTable} (attentive : locks.Attentive) (sound : changed.Sound)
    (asleep : ∀ waiter ∈ changed.parked, waiter.state = .asleep →
      waiter ∈ locks.parked ∧ changed.lockOn waiter.page = locks.lockOn waiter.page) :
    changed.Attentive := by
  refine ⟨sound, fun waiter parked sleeps => ?_⟩
  obtain ⟨before, same⟩ := asleep waiter parked sleeps
  rw [Grantable, same]
  exact attentive.asleep waiter before sleeps

theorem Attentive.evaluate (attentive : locks.Attentive) (tx : TxId) (page : PageId) (mode : LockMode)
    (waited expired : Bool) : (locks.evaluate tx page mode waited expired).1.Attentive := by
  refine ⟨attentive.sound.evaluate tx page mode waited expired, fun waiter parked sleeps possible => ?_⟩
  by_cases granted : (locks.evaluate tx page mode waited expired).2 = .granted
  · rcases mem_parked_evaluate parked with before | ⟨_, answer⟩
    · rw [evaluate_of_granted granted, Grantable, lockOn_grant] at possible
      refine attentive.asleep waiter before sleeps ?_
      split at possible
      · next here =>
        rw [Grantable, here]
        exact (attentive.sound.lock page).canGrant_of_grant (evaluate_granted_iff.mp granted) possible
      · exact possible
    · simp [granted] at answer
  · rw [Grantable, lockOn_evaluate_of_not_granted granted] at possible
    rcases mem_parked_evaluate parked with before | ⟨rfl, _⟩
    · exact attentive.asleep waiter before sleeps possible
    · exact granted (evaluate_granted_iff.mpr possible)

theorem Attentive.retry (attentive : locks.Attentive) (waiter : Waiter) :
    (locks.retry waiter).1.Attentive := by
  have taken : Attentive { locks with parked := locks.parked.erase waiter } :=
    attentive.of_lockOn (attentive.sound.congr _ rfl rfl)
      fun _ parked _ => ⟨List.mem_of_mem_erase parked, rfl⟩
  exact taken.evaluate _ _ _ _ _

theorem Attentive.release (attentive : locks.Attentive) (tx : TxId) (page : PageId) :
    (locks.release tx page).Attentive :=
  attentive.of_lockOn (attentive.sound.release tx page)
    fun _ parked sleeps => asleep_of_release parked sleeps

theorem Attentive.releaseAll (attentive : locks.Attentive) (tx : TxId) :
    (locks.releaseAll tx).Attentive :=
  attentive.of_lockOn (attentive.sound.releaseAll tx)
    fun _ parked sleeps => attentive.sound.asleep_of_releaseAll parked sleeps

theorem Attentive.interrupt (attentive : locks.Attentive) (tx : TxId) :
    (locks.interrupt tx).Attentive := by
  refine attentive.of_lockOn (attentive.sound.interrupt tx) fun waiter parked sleeps => ?_
  exact ⟨((rouses_interrupt locks tx).asleep parked sleeps).1, by simp [lockOn]⟩

theorem Attentive.expire (attentive : locks.Attentive) (overdue : Waiter → Bool) :
    (locks.expire overdue).Attentive := by
  refine attentive.of_lockOn (attentive.sound.expire overdue) fun waiter parked sleeps => ?_
  exact ⟨((rouses_expire locks overdue).asleep parked sleeps).1, rfl⟩

theorem Attentive.act (attentive : locks.Attentive) (action : LockAction) :
    (locks.act action).1.Attentive := by
  cases action with
  | acquire tx page mode => exact attentive.evaluate tx page mode false false
  | retry waiter => exact attentive.retry waiter
  | release tx page => exact attentive.release tx page
  | releaseAll tx => exact attentive.releaseAll tx
  | interrupt tx => exact attentive.interrupt tx
  | expire overdue => exact attentive.expire overdue

/-- A look at a request wakes nobody, and leaves it granted, refused or asleep. -/
theorem woken_evaluate {waited expired : Bool} :
    (locks.evaluate tx page mode waited expired).1.woken = locks.woken := by
  by_cases granted : (locks.evaluate tx page mode waited expired).2 = .granted
  · rw [evaluate_of_granted granted]
    rfl
  · rw [evaluate_of_not_granted granted]
    obtain ⟨reason, waits, same, _⟩ | same := locks.wait_cases tx page mode expired
    · rw [same]
      rfl
    · rw [same]
      simp [woken]

theorem woken_retry {waiter : Waiter} (listed : waiter ∈ locks.woken) :
    locks.woken.Perm (waiter :: (locks.retry waiter).1.woken) := by
  obtain ⟨parked, awake⟩ := List.mem_filter.mp listed
  have taken := (List.perm_cons_erase parked).filter fun waiter => decide (waiter.state ≠ .asleep)
  rw [List.filter_cons, if_pos awake] at taken
  rw [LockTable.retry, woken_evaluate]
  exact taken

theorem woken_retryEach {order : List Waiter} (every : order.Perm locks.woken) :
    (locks.retryEach order).woken = [] := by
  induction order generalizing locks with
  | nil => exact every.symm.eq_nil
  | cons waiter rest ih =>
      have listed : waiter ∈ locks.woken := every.subset List.mem_cons_self
      exact ih ((every.trans (woken_retry listed)).cons_inv)

/-- Looking at the woken requests in any order is a way for a run to go on. -/
theorem Run.retryEach {order : List Waiter} (run : Run Enabled start history locks)
    (every : order.Perm locks.woken) :
    ∃ looks, Run Enabled start (looks ++ history) (locks.retryEach order) := by
  induction order generalizing locks history with
  | nil => exact ⟨[], run⟩
  | cons waiter rest ih =>
      have listed : waiter ∈ locks.woken := every.subset List.mem_cons_self
      obtain ⟨parked, awake⟩ := List.mem_filter.mp listed
      have next := run.step (.retry waiter) ⟨parked, of_decide_eq_true awake⟩
      obtain ⟨looks, after⟩ := ih next ((every.trans (woken_retry listed)).cons_inv)
      refine ⟨looks ++ [⟨.retry waiter, some (locks.retry waiter).2⟩], ?_⟩
      rw [List.append_assoc]
      exact after

theorem Attentive.settled (attentive : locks.Attentive) (settled : locks.awake = []) :
    ∀ waiter ∈ locks.parked, ¬ locks.Grantable waiter := by
  have asleep : ∀ waiter ∈ locks.parked, waiter.state = .asleep := by
    simpa [awake] using settled
  exact fun waiter parked => attentive.asleep waiter parked (asleep waiter parked)

/-- Once every woken request was looked at, no parked request can be granted; and it takes one look
at each of them, in whatever order. -/
theorem no_lost_wakeup_of_run {config : Config} (run : Run Enabled (empty config) history locks) :
    (locks.awake = [] → ∀ waiter ∈ locks.parked, ¬ locks.Grantable waiter) ∧
    ∀ order : List Waiter, order.Perm locks.woken → (locks.retryEach order).awake = [] ∧
      ∀ waiter ∈ (locks.retryEach order).parked, ¬ (locks.retryEach order).Grantable waiter := by
  have attentive : ∀ {history locks}, Run Enabled (empty config) history locks → locks.Attentive :=
    fun run => run.invariant (attentive_empty config) fun _ action kept _ => kept.act action
  refine ⟨(attentive run).settled, fun order every => ?_⟩
  obtain ⟨_, after⟩ := run.retryEach every
  have settled : (locks.retryEach order).awake = [] := congrArg (List.map Waiter.tx) (woken_retryEach every)
  exact ⟨settled, (attentive after).settled settled⟩

/-- Two readers and a writer wait behind a writer. After it has left, they are looked at in an order
in which the readers come first and last. -/
theorem no_lost_wakeup_of_writer :
    ∃ (history : List LockEvent) (locks : LockTable) (order : List Waiter),
      Run Enabled (empty ⟨4096, none, false⟩) history locks ∧ order.Perm locks.woken ∧
      order.map Waiter.tx = [⟨3⟩, ⟨4⟩, ⟨2⟩] ∧ (locks.retryEach order).parked.map Waiter.tx = [⟨4⟩] ∧
      (locks.retryEach order).awake = [] ∧
      ∀ waiter ∈ (locks.retryEach order).parked, ¬ (locks.retryEach order).Grantable waiter := by
  have first := (@Run.start Enabled (empty ⟨4096, none, false⟩)).step (.acquire ⟨1⟩ ⟨0, 0⟩ .exclusive) trivial
  have second := first.step (.acquire ⟨2⟩ ⟨0, 0⟩ .shared) trivial
  have third := second.step (.acquire ⟨3⟩ ⟨0, 0⟩ .shared) trivial
  have fourth := third.step (.acquire ⟨4⟩ ⟨0, 0⟩ .exclusive) trivial
  have run := fourth.step (.releaseAll ⟨1⟩) trivial
  let order : List Waiter := [⟨⟨3⟩, ⟨0, 0⟩, .shared, .woken⟩, ⟨⟨4⟩, ⟨0, 0⟩, .exclusive, .woken⟩,
    ⟨⟨2⟩, ⟨0, 0⟩, .shared, .woken⟩]
  have settles := (no_lost_wakeup_of_run run).2 order (by decide +kernel)
  exact ⟨_, _, order, run, by decide +kernel, rfl, by decide +kernel, settles⟩

end RowStore.LockTable
