import RowStore.Proofs.Lock.Interrupts

namespace RowStore

/-! Which waits an interrupt can end.

The wait of a transaction is on record apart from its parked request. It is recorded when
a request parks, and the record ends when a request of the transaction is refused, or
granted after a wait. It also ends when the transaction gives up everything, which can be
done for it while its request is parked. Then the request stays parked, nobody is told
that the transaction waits, and an interrupt does not find the request.
-/

/-- The event puts a wait of the transaction on record. -/
def LockEvent.recordsWait (tx : TxId) (event : LockEvent) : Bool :=
  match event.action.request?, event.verdict with
  | some (asker, _, _), some .parked => asker = tx
  | _, _ => false

/-- The event takes a wait of the transaction off the record. -/
def LockEvent.dropsWait (tx : TxId) (event : LockEvent) : Bool :=
  match event.action, event.verdict with
  | .releaseAll giver, _ => giver = tx
  | .acquire asker _ _, some (.refused _) => asker = tx
  | .retry waiter, some verdict => waiter.tx = tx && verdict ≠ .parked
  | _, _ => false

/-- The wait of the transaction that was recorded last is off the record again. -/
def Forgotten (tx : TxId) : List LockEvent → Prop
  | [] => False
  | event :: earlier => event.dropsWait tx ∨ event.recordsWait tx = false ∧ Forgotten tx earlier

/-- The transaction gave up everything after its requests were last looked at. -/
def GivenUpSinceLook (tx : TxId) : List LockEvent → Prop
  | [] => False
  | event :: earlier =>
      event.action = .releaseAll tx ∨
        event.action.request?.map Prod.fst ≠ some tx ∧ GivenUpSinceLook tx earlier

namespace LockTable

variable {locks changed : LockTable} {config : Config} {history : List LockEvent} {event : LockEvent}
variable {tx other : TxId} {page place : PageId} {mode : LockMode} {action : LockAction}
variable {waited expired : Bool}

/-- A transaction makes one call at a time. Pages can be given up for it at any time. -/
def Single (locks : LockTable) : LockAction → Prop
  | .acquire tx _ _ => ¬ locks.IsParked tx
  | action => locks.Enabled action

instance (locks : LockTable) : (action : LockAction) → Decidable (locks.Single action)
  | .acquire tx _ _ => inferInstanceAs (Decidable (¬ locks.IsParked tx))
  | .retry waiter => inferInstanceAs (Decidable (locks.Enabled (.retry waiter)))
  | .release _ _ | .releaseAll _ | .interrupt _ | .expire _ => .isTrue trivial

/-! ## What an event says of the record -/

theorem recordsWait_iff {verdict : Verdict} (asked : event.action.request? = some (tx, page, mode))
    (answered : event.verdict = some verdict) :
    event.recordsWait other = true ↔ other = tx ∧ verdict = .parked := by
  simp only [LockEvent.recordsWait, asked, answered]
  cases verdict <;> simp [eq_comm]

theorem dropsWait_acquire {verdict : Verdict} :
    LockEvent.dropsWait other ⟨.acquire tx page mode, some verdict⟩ = true ↔
      other = tx ∧ (verdict = .granted → false = true) ∧ verdict ≠ .parked := by
  cases verdict <;> simp [LockEvent.dropsWait, eq_comm]

theorem dropsWait_retry {waiter : Waiter} {verdict : Verdict} :
    LockEvent.dropsWait other ⟨.retry waiter, some verdict⟩ = true ↔
      other = waiter.tx ∧ (verdict = .granted → true = true) ∧ verdict ≠ .parked := by
  cases verdict <;> simp [LockEvent.dropsWait, eq_comm]

/-- An event that leaves the record of the transaction alone leaves its wait forgotten or not. -/
theorem forgotten_cons (undropped : event.dropsWait tx = false) (unrecorded : event.recordsWait tx = false) :
    Forgotten tx (event :: history) ↔ Forgotten tx history := by
  simp [Forgotten, undropped, unrecorded]

/-! ## The waits on record -/

/-- A wait on record is that of a parked request, and a parked request without one was forgotten. -/
structure Recorded (history : List LockEvent) (locks : LockTable) : Prop where
  parked : ∀ tx page, locks.waits.waitingOn.get? tx = some page →
    (∃ waiter ∈ locks.parked, waiter.tx = tx ∧ waiter.page = page) ∧ ¬ Forgotten tx history
  forgotten : ∀ tx, locks.waits.waitingOn.get? tx = none → locks.IsParked tx → Forgotten tx history

theorem recorded_empty (config : Config) : Recorded [] (empty config) :=
  ⟨by simp [empty, WaitGraph.empty], by simp [IsParked, empty]⟩

/-- A look at a request says something about the record of its transaction, unless the request is
granted at once. -/
theorem Recorded.evaluate {taken : LockTable} (recorded : Recorded history locks)
    (look : locks.Taken taken tx waited)
    (drops : ∀ other, event.dropsWait other = true ↔
      other = tx ∧ ((taken.evaluate tx page mode waited expired).2 = .granted → waited = true) ∧
        (taken.evaluate tx page mode waited expired).2 ≠ .parked)
    (records : ∀ other, event.recordsWait other = true ↔
      other = tx ∧ (taken.evaluate tx page mode waited expired).2 = .parked) :
    Recorded (event :: history) (taken.evaluate tx page mode waited expired).1 := by
  have unseen : ∀ other,
      ¬ (other = tx ∧ ((taken.evaluate tx page mode waited expired).2 = .granted → waited = true)) →
      (Forgotten other (event :: history) ↔ Forgotten other history) ∧
        ∀ waiter ∈ locks.parked, waiter.tx = other → waiter ∈ taken.parked := by
    intro other unlooked
    refine ⟨forgotten_cons ?_ ?_, fun waiter parked asker => look.others waiter parked fun same => ?_⟩
    · exact Bool.eq_false_iff.mpr fun dropped => unlooked (((drops other).mp dropped).imp_right And.left)
    · refine Bool.eq_false_iff.mpr fun new => unlooked ?_
      obtain ⟨same, waits⟩ := (records other).mp new
      exact ⟨same, fun granted => by simp [granted] at waits⟩
    · by_contra retried
      exact unlooked ⟨asker.symm.trans same, fun _ => by simpa using retried⟩
  refine ⟨fun other place on => ?_, fun other off parked => ?_⟩
  · rw [waitingOn_evaluate, look.waits] at on
    split at on
    · next looked =>
      split at on
      · next waits =>
        obtain rfl := Option.some.inj on
        refine ⟨⟨⟨tx, page, mode, .asleep⟩, by simp [evaluate_parked waits], looked.1.symm, rfl⟩, ?_⟩
        have fresh := (records other).mpr ⟨looked.1, waits⟩
        have kept : event.dropsWait other ≠ true := fun dropped => ((drops other).mp dropped).2.2 waits
        simp [Forgotten, fresh, kept]
      · contradiction
    · next unlooked =>
      obtain ⟨⟨waiter, parked, asker, wanted⟩, kept⟩ := recorded.parked other place on
      obtain ⟨same, stays⟩ := unseen other unlooked
      exact ⟨⟨waiter, parked_subset_evaluate (stays waiter parked asker), asker, wanted⟩, mt same.mp kept⟩
  · rw [waitingOn_evaluate, look.waits] at off
    split at off
    · next looked =>
      split at off
      · contradiction
      · next answered => exact Or.inl ((drops other).mpr ⟨looked.1, looked.2, answered⟩)
    · next unlooked =>
      obtain ⟨waiter, there, asker⟩ := parked
      refine (unseen other unlooked).1.mpr (recorded.forgotten other off ?_)
      rcases mem_parked_evaluate there with before | ⟨rfl, waits⟩
      · exact ⟨waiter, look.fewer waiter before, asker⟩
      · exact absurd ⟨asker.symm, fun granted => by simp [granted] at waits⟩ unlooked

/-- Waking requests leaves the waits on record. -/
theorem Recorded.of_rouses {still : Waiter → Prop} (recorded : Recorded history locks)
    (rouses : locks.Rouses changed still)
    (waiting : ∀ tx, changed.waits.waitingOn.get? tx =
      if event.dropsWait tx then none else locks.waits.waitingOn.get? tx)
    (unrecorded : ∀ tx, event.recordsWait tx = false) : Recorded (event :: history) changed := by
  refine ⟨fun tx page on => ?_, fun tx off parked => ?_⟩
  · rw [waiting] at on
    split at on
    · contradiction
    · next kept =>
      obtain ⟨waits, known⟩ := recorded.parked tx page on
      exact ⟨rouses.waits_for_iff.mpr waits,
        mt (forgotten_cons (Bool.eq_false_iff.mpr kept) (unrecorded tx)).mp known⟩
  · rw [waiting] at off
    split at off
    · next dropped => exact Or.inl dropped
    · exact Or.inr ⟨unrecorded tx, recorded.forgotten tx off (rouses.isParked_iff.mp parked)⟩

theorem Recorded.act (recorded : Recorded history locks) (permitted : locks.Enabled action) :
    Recorded (⟨action, (locks.act action).2⟩ :: history) (locks.act action).1 := by
  cases action with
  | acquire tx page mode =>
      exact recorded.evaluate (locks.taken_acquire tx) (fun _ => dropsWait_acquire)
        fun _ => recordsWait_iff rfl rfl
  | retry waiter =>
      exact recorded.evaluate (taken_retry permitted.1) (fun _ => dropsWait_retry)
        fun _ => recordsWait_iff rfl rfl
  | release giver page =>
      have waits : (locks.release giver page).waits = locks.waits := releasePage_waits
      refine recorded.of_rouses (rouses_release locks giver page) (fun tx => ?_) fun _ => rfl
      simp [LockTable.act, waits, LockEvent.dropsWait]
  | releaseAll giver =>
      refine recorded.of_rouses (rouses_releaseAll locks giver) (fun tx => ?_) fun _ => rfl
      simp [LockTable.act, waits_releaseAll, WaitGraph.forget, WaitGraph.clearWaiting, FinMap.get?_erase,
        LockEvent.dropsWait, eq_comm]
  | interrupt tx =>
      refine recorded.of_rouses (rouses_interrupt locks tx) (fun other => ?_) fun _ => rfl
      simp [LockTable.act, interrupt_waitingOn, LockEvent.dropsWait]
  | expire overdue =>
      refine recorded.of_rouses (rouses_expire locks overdue) (fun tx => ?_) fun _ => rfl
      simp [LockTable.act, LockTable.expire, LockEvent.dropsWait]

theorem Run.recorded (run : Run Enabled (empty config) history locks) : Recorded history locks := by
  induction run with
  | start => exact recorded_empty config
  | step before action permitted ih => exact ih.act permitted

theorem isWaiting_iff_exists :
    locks.isWaiting tx = true ↔ ∃ page, locks.waits.waitingOn.get? tx = some page :=
  Option.isSome_iff_exists

theorem Recorded.isWaiting_iff (recorded : Recorded history locks) :
    locks.isWaiting tx = true ↔ locks.IsParked tx ∧ ¬ Forgotten tx history := by
  rw [isWaiting_iff_exists]
  constructor
  · rintro ⟨page, on⟩
    obtain ⟨⟨waiter, parked, asker, _⟩, known⟩ := recorded.parked tx page on
    exact ⟨⟨waiter, parked, asker⟩, known⟩
  · rintro ⟨parked, known⟩
    refine Option.ne_none_iff_exists'.mp fun off => ?_
    exact known (recorded.forgotten tx off parked)

/-! ## One call at a time -/

/-- Each transaction has one request parked at most, and only what was given up for it since that
was looked at has made its wait be forgotten. -/
structure Alone (history : List LockEvent) (locks : LockTable) : Prop where
  once : (locks.parked.map Waiter.tx).Nodup
  forgotten_iff : ∀ tx, locks.IsParked tx → (Forgotten tx history ↔ GivenUpSinceLook tx history)

theorem Alone.evaluate {taken : LockTable} (alone : Alone history locks)
    (look : locks.Taken taken tx waited) (once : (taken.parked.map Waiter.tx).Nodup)
    (apart : ¬ taken.IsParked tx) (asked : event.action.request? = some (tx, page, mode))
    (answered : event.verdict = some (taken.evaluate tx page mode waited expired).2)
    (drops : ∀ other, event.dropsWait other = true →
      other = tx ∧ (taken.evaluate tx page mode waited expired).2 ≠ .parked) :
    Alone (event :: history) (taken.evaluate tx page mode waited expired).1 := by
  have gives : ∀ other, event.action ≠ .releaseAll other := by
    intro other same
    rw [same] at asked
    contradiction
  refine ⟨nodup_evaluate once apart, fun other parked => ?_⟩
  rcases isParked_evaluate.mp parked with before | ⟨rfl, waits⟩
  · have differs : other ≠ tx := fun same => apart (same ▸ before)
    have undropped : event.dropsWait other = false := Bool.eq_false_iff.mpr fun dropped =>
      differs (drops other dropped).1
    have unrecorded : event.recordsWait other = false := Bool.eq_false_iff.mpr fun new =>
      differs ((recordsWait_iff asked answered).mp new).1
    obtain ⟨waiter, there, asker⟩ := before
    rw [forgotten_cons undropped unrecorded,
      alone.forgotten_iff other ⟨waiter, look.fewer waiter there, asker⟩]
    simp [GivenUpSinceLook, gives, asked, differs.symm]
  · have kept : event.dropsWait other ≠ true := fun dropped => (drops other dropped).2 waits
    have new : event.recordsWait other = true := (recordsWait_iff asked answered).mpr ⟨rfl, waits⟩
    simp [Forgotten, GivenUpSinceLook, kept, new, gives, asked]

theorem Alone.of_rouses {still : Waiter → Prop} (alone : Alone history locks)
    (rouses : locks.Rouses changed still) (asks : event.action.request? = none)
    (drops : ∀ tx, event.dropsWait tx = true ↔ event.action = .releaseAll tx) :
    Alone (event :: history) changed := by
  refine ⟨rouses.map_tx ▸ alone.once, fun tx parked => ?_⟩
  have unrecorded : event.recordsWait tx = false := by simp [LockEvent.recordsWait, asks]
  simp only [Forgotten, GivenUpSinceLook, drops, unrecorded, asks,
    alone.forgotten_iff tx (rouses.isParked_iff.mp parked)]
  simp

theorem Alone.act (alone : Alone history locks) (permitted : locks.Single action) :
    Alone (⟨action, (locks.act action).2⟩ :: history) (locks.act action).1 := by
  cases action with
  | acquire tx page mode =>
      exact alone.evaluate (locks.taken_acquire tx) alone.once permitted rfl rfl
        fun _ dropped => (dropsWait_acquire.mp dropped).imp_right And.right
  | retry waiter =>
      exact alone.evaluate (taken_retry permitted.1) (alone.once.sublist (List.erase_sublist.map _))
        (parked_erase_apart alone.once permitted.1) rfl rfl
        fun _ dropped => (dropsWait_retry.mp dropped).imp_right And.right
  | release giver page =>
      exact alone.of_rouses (rouses_release locks giver page) rfl (by simp [LockEvent.dropsWait])
  | releaseAll giver =>
      exact alone.of_rouses (rouses_releaseAll locks giver) rfl (by simp [LockEvent.dropsWait])
  | interrupt tx => exact alone.of_rouses (rouses_interrupt locks tx) rfl (by simp [LockEvent.dropsWait])
  | expire overdue => exact alone.of_rouses (rouses_expire locks overdue) rfl (by simp [LockEvent.dropsWait])

theorem Run.alone (run : Run Single (empty config) history locks) : Alone history locks := by
  induction run with
  | start => exact ⟨by simp [empty], by simp [IsParked, empty]⟩
  | step before action permitted ih => exact ih.act permitted

/-! ## What an interrupt finds -/

/-- An interrupt wakes the requests for the page of the wait that is on record. -/
theorem interrupt_of_recorded (on : locks.waits.waitingOn.get? tx = some page) :
    locks.interrupt tx =
      LockTable.notify { locks with waits := locks.waits.interrupt tx (locks.held.contains tx) } page := by
  simp only [interrupt, on]

theorem mem_interrupted_of_recorded (on : locks.waits.waitingOn.get? tx = some page) :
    tx ∈ (locks.interrupt tx).waits.interrupted := by
  have waiting : locks.waits.waitingOn.contains tx = true := by simp [FinMap.contains, on]
  rw [interrupt_waits, WaitGraph.interrupt, waiting, Bool.true_or, if_pos rfl]
  split
  · next marked => exact marked
  · exact List.mem_cons_self

/-- Without a wait on record an interrupt wakes nobody; for those who hold no page it is lost. -/
theorem interrupt_of_unrecorded (sound : locks.Sound) (occupied : ∀ tx, locks.held.get? tx ≠ some [])
    (off : locks.waits.waitingOn.get? tx = none) :
    (locks.interrupt tx).parked = locks.parked ∧
      ((∀ page, tx ∉ (locks.lockOn page).holders) → locks.interrupt tx = locks) := by
  simp only [interrupt, off, true_and]
  intro idle
  have holds : locks.held.contains tx = false := by
    refine Bool.eq_false_iff.mpr fun held => ?_
    obtain ⟨page, holder⟩ := (contains_held_iff sound occupied).mp held
    exact idle page holder
  have waits : locks.waits.waitingOn.contains tx = false := by simp [FinMap.contains, off]
  simp [WaitGraph.interrupt, waits, holds]

theorem Run.occupied (run : Run Enabled (empty config) history locks) (tx : TxId) :
    locks.held.get? tx ≠ some [] := by
  induction run generalizing tx with
  | start => simp [empty]
  | step before action permitted ih => exact occupied_act ih

/-- An interrupt ends the wait that is on record, whenever its request is looked at. -/
theorem Attentive.cancelled (attentive : locks.Attentive) (settled : locks.awake = [])
    (waits : ∃ waiter ∈ locks.parked, waiter.tx = tx ∧ waiter.page = page)
    (on : locks.waits.waitingOn.get? tx = some page) {order : List Waiter}
    (every : order.Perm (locks.interrupt tx).woken) :
    ∃ (before : List Waiter) (waiter : Waiter) (after : List Waiter),
      order = before ++ waiter :: after ∧ waiter.tx = tx ∧
        (((locks.interrupt tx).retryEach before).retry waiter).2 = .refused .interrupted ∧
        (((locks.interrupt tx).parked.map Waiter.tx).Nodup →
          ¬ ((locks.interrupt tx).retryEach order).IsParked tx) := by
  have asleep : ∀ waiter ∈ locks.parked, waiter.state = .asleep := by
    simpa [awake] using settled
  have before : ∀ waiter ∈ (locks.interrupt tx).parked, waiter.state ≠ .woken → waiter ∈ locks.parked := by
    rw [interrupt_of_recorded on]
    exact fun waiter parked unwoken => mem_parked_of_notify parked unwoken
  refine retryEach_interrupted (fun waiter parked possible => ?_) (fun waiter parked _ late => ?_)
    (mem_interrupted_of_recorded on) ?_ every
  · obtain ⟨state, there⟩ := (rouses_interrupt locks tx).before parked
    refine attentive.settled settled _ there ?_
    simpa [Grantable, LockTable.lockOn] using possible
  · have sleeps := asleep waiter (before waiter parked (by simp [late]))
    rw [late] at sleeps
    contradiction
  · obtain ⟨waiter, parked, asker, wanted⟩ := waits
    refine ⟨{ waiter with state := .woken }, List.mem_filter.mpr ⟨?_, rfl⟩, asker⟩
    rw [interrupt_of_recorded on]
    exact List.mem_map.mpr ⟨waiter, parked, if_pos ⟨wanted, asleep waiter parked⟩⟩

/-! ## Cancellation -/

/-- Who is said to wait, and which waits an interrupt ends. -/
structure Cancellation (config : Config) (history : List LockEvent) (locks : LockTable) : Prop where
  /-- A transaction is said to wait just if it has a request parked and its wait was not forgotten. -/
  waiting_iff : ∀ tx, locks.isWaiting tx = true ↔ locks.IsParked tx ∧ ¬ Forgotten tx history
  /-- For transactions that make one call at a time, a wait is forgotten just if everything was given up
  for the transaction since its request was last looked at. -/
  single_iff : Run Single (empty config) history locks → ∀ tx,
    locks.isWaiting tx = true ↔ locks.IsParked tx ∧ ¬ GivenUpSinceLook tx history
  /-- An interrupt of a transaction that is said to wait refuses its request in the same step, in whatever
  order the woken requests are looked at. -/
  cancelled : locks.awake = [] → ∀ tx, locks.isWaiting tx = true →
    ∀ order : List Waiter, order.Perm (locks.interrupt tx).woken →
      ∃ (before : List Waiter) (waiter : Waiter) (after : List Waiter),
        order = before ++ waiter :: after ∧ waiter.tx = tx ∧
          (((locks.interrupt tx).retryEach before).retry waiter).2 = .refused .interrupted ∧
          ((locks.parked.map Waiter.tx).Nodup → ¬ ((locks.interrupt tx).retryEach order).IsParked tx)
  /-- An interrupt of any other transaction wakes nobody, so that a parked request stays parked; and if
  the transaction holds no page, then nothing tells of the interrupt later. -/
  uncancelled : ∀ tx, locks.isWaiting tx = false → (locks.interrupt tx).parked = locks.parked ∧
    ((∀ page, tx ∉ (locks.lockOn page).holders) → locks.interrupt tx = locks)

/-- In every history an interrupt ends just the waits that are not forgotten. -/
theorem cancellation_of_run (run : Run Enabled (empty config) history locks) :
    Cancellation config history locks := by
  have recorded := run.recorded
  have attentive : locks.Attentive :=
    run.invariant (attentive_empty config) fun _ action kept _ => kept.act action
  have occupied := run.occupied
  refine ⟨fun tx => recorded.isWaiting_iff, fun single tx => ?_, fun settled tx waiting order every => ?_,
    fun tx idle => ?_⟩
  · rw [recorded.isWaiting_iff]
    exact and_congr_right fun parked => not_congr (single.alone.forgotten_iff tx parked)
  · obtain ⟨page, on⟩ := isWaiting_iff_exists.mp waiting
    rw [← (rouses_interrupt locks tx).map_tx]
    exact attentive.cancelled settled (recorded.parked tx page on).1 on every
  · refine interrupt_of_unrecorded attentive.sound occupied ?_
    refine Option.eq_none_iff_forall_ne_some.mpr fun page on => ?_
    exact Bool.eq_false_iff.mp idle (isWaiting_iff_exists.mpr ⟨page, on⟩)

/-- Transactions 2 and 3 wait for a page of transaction 1, and everything is given up for transaction
2. Only transaction 3 is still said to wait. -/
theorem cancellation_of_abandoned :
    ∃ history locks, Run Enabled (empty .default) history locks ∧ locks.awake = [] ∧
      locks.IsParked ⟨2⟩ ∧ locks.isWaiting ⟨2⟩ = false ∧ locks.isWaiting ⟨3⟩ = true ∧
      Cancellation .default history locks := by
  have first := (@Run.start Enabled (empty .default)).step (.acquire ⟨1⟩ ⟨0, 0⟩ .exclusive) trivial
  have second := first.step (.acquire ⟨2⟩ ⟨0, 0⟩ .exclusive) trivial
  have third := second.step (.acquire ⟨3⟩ ⟨0, 0⟩ .shared) trivial
  have run := third.step (.releaseAll ⟨2⟩) trivial
  exact ⟨_, _, run, by decide +kernel, by decide +kernel, by decide +kernel, by decide +kernel,
    cancellation_of_run run⟩

/-- A parked transaction is not said to wait after everything was given up for it, and an interrupt
leaves it parked. -/
theorem uncancelled_of_abandoned :
    ∃ history locks, Run Single (empty .default) history locks ∧ locks.awake = [] ∧
      locks.IsParked ⟨2⟩ ∧ locks.isWaiting ⟨2⟩ = false ∧
      (locks.interrupt ⟨2⟩).settle.2 = [] ∧ (locks.interrupt ⟨2⟩).settle.1.IsParked ⟨2⟩ := by
  have first := (@Run.start Single (empty .default)).step (.acquire ⟨1⟩ ⟨0, 0⟩ .exclusive)
    (by decide +kernel)
  have second := first.step (.acquire ⟨2⟩ ⟨0, 0⟩ .exclusive)
    (by decide +kernel)
  have run := second.step (.releaseAll ⟨2⟩) trivial
  exact ⟨_, _, run, by decide +kernel, by decide +kernel, by decide +kernel, by decide +kernel,
    by decide +kernel⟩

end LockTable

end RowStore
