import RowStore.Proofs.Lock.Cancellation

namespace RowStore

/-! Interrupts are delivered once.

An interrupt of a transaction that has a wait on record or holds a page is pending until
a request of the transaction is refused for it, or the transaction gives up everything.
Interrupts that are pending together are used together. While a transaction makes one
call at a time, and gives up pages between its calls only, its wait is on record just as
long as its request is parked.
-/

/-- The action looks at a request whose time is over. -/
def LockAction.Late : LockAction → Prop
  | .retry waiter => waiter.state = .expired
  | _ => False

namespace LockTable

variable {locks changed : LockTable} {config : Config} {history : List LockEvent} {event : LockEvent}
variable {tx other : TxId} {page place : PageId} {mode : LockMode} {action : LockAction}
variable {heard : LockTable → TxId → Prop}

/-- A wait of the transaction is on record, or the transaction holds a page. -/
def Noticed (locks : LockTable) (tx : TxId) : Prop :=
  locks.isWaiting tx = true ∨ ∃ page, tx ∈ (locks.lockOn page).holders

/-- The transaction has a request parked, or it holds a page. -/
def Involves (locks : LockTable) (tx : TxId) : Prop :=
  locks.IsParked tx ∨ ∃ page, tx ∈ (locks.lockOn page).holders

/-- Some interrupt came that its transaction was to hear of, and was neither used nor cleared since. -/
def Pending (config : Config) (heard : LockTable → TxId → Prop) (history : List LockEvent) (tx : TxId) :
    Prop :=
  ∃ (later earlier : List LockEvent) (before : LockTable),
    history = later ++ ⟨.interrupt tx, none⟩ :: earlier ∧
      Run Enabled (empty config) earlier before ∧ heard before tx ∧
      ∀ event ∈ later, ¬ event.Spends tx

/-- The newest event leaves an interrupt pending if it is one, or if one was pending that the event
does not end. -/
theorem pending_cons_iff (run : Run Enabled (empty config) history locks)
    (answered : event.action.request? = none → event.verdict = none) :
    Pending config heard (event :: history) tx ↔
      event.action = .interrupt tx ∧ heard locks tx ∨
        ¬ event.Spends tx ∧ Pending config heard history tx := by
  constructor
  · rintro ⟨later, earlier, before, split, past, told, unspent⟩
    cases later with
    | nil =>
        obtain ⟨rfl, rfl⟩ := List.cons_eq_cons.mp split
        exact Or.inl ⟨rfl, past.unique run ▸ told⟩
    | cons newest later =>
        obtain ⟨rfl, rfl⟩ := List.cons_eq_cons.mp split
        obtain ⟨kept, unspent⟩ := List.forall_mem_cons.mp unspent
        exact Or.inr ⟨kept, later, earlier, before, rfl, past, told, unspent⟩
  · rintro (⟨interrupts, told⟩ | ⟨kept, later, earlier, before, rfl, past, told, unspent⟩)
    · obtain ⟨_, verdict⟩ := event
      obtain rfl : _ = LockAction.interrupt tx := interrupts
      obtain rfl : verdict = none := answered rfl
      exact ⟨[], history, locks, rfl, run, told, by simp⟩
    · exact ⟨event :: later, earlier, before, rfl, past, told,
        List.forall_mem_cons.mpr ⟨kept, unspent⟩⟩

/-! ## The interrupts on record -/

/-- An interrupt is recorded just for those who have a wait on record or hold a page. -/
theorem noticed_iff (sound : locks.Sound) (occupied : ∀ tx, locks.held.get? tx ≠ some []) :
    (locks.waits.waitingOn.contains tx || locks.held.contains tx) = true ↔ locks.Noticed tx := by
  rw [Bool.or_eq_true, contains_held_iff sound occupied]
  rfl

theorem mem_interrupted_interrupt (sound : locks.Sound)
    (occupied : ∀ tx, locks.held.get? tx ≠ some []) :
    other ∈ (locks.interrupt tx).waits.interrupted ↔
      other = tx ∧ locks.Noticed tx ∨ other ∈ locks.waits.interrupted := by
  rw [interrupt_waits, WaitGraph.interrupt]
  split
  · next recorded =>
    have noticed := (noticed_iff sound occupied).mp recorded
    by_cases marked : tx ∈ locks.waits.interrupted
    · simp only [marked, if_true, noticed, and_true]
      exact ⟨Or.inr, fun either => either.elim (fun same => same ▸ marked) id⟩
    · simp [marked, noticed]
  · next lost => simp [mt (noticed_iff sound occupied).mpr lost]

/-- An action puts interrupts of a transaction on record and takes them off as the history says. -/
theorem mem_interrupted_act (sound : locks.Sound) (occupied : ∀ tx, locks.held.get? tx ≠ some []) :
    tx ∈ (locks.act action).1.waits.interrupted ↔
      action = .interrupt tx ∧ locks.Noticed tx ∨
        ¬ LockEvent.Spends tx ⟨action, (locks.act action).2⟩ ∧ tx ∈ locks.waits.interrupted := by
  cases action with
  | acquire asker page mode =>
      have spends : LockEvent.Spends tx ⟨.acquire asker page mode, (locks.act (.acquire asker page mode)).2⟩ ↔
          tx = asker ∧ (locks.acquire asker page mode).2 = .refused .interrupted := by
        simp [LockEvent.Spends, LockEvent.Aborts, LockAction.request?, LockTable.act, eq_comm]
      rw [spends]
      refine mem_interrupted_evaluate.trans ?_
      simp [and_comm, LockTable.acquire]
  | retry waiter =>
      have spends : LockEvent.Spends tx ⟨.retry waiter, (locks.act (.retry waiter)).2⟩ ↔
          tx = waiter.tx ∧ (locks.retry waiter).2 = .refused .interrupted := by
        simp [LockEvent.Spends, LockEvent.Aborts, LockAction.request?, LockTable.act, eq_comm]
      rw [spends]
      refine mem_interrupted_evaluate.trans ?_
      simp [and_comm, LockTable.retry]
  | release giver page =>
      have waits : (locks.release giver page).waits = locks.waits := releasePage_waits
      simp [LockTable.act, waits, LockEvent.Spends, LockEvent.Aborts]
  | releaseAll giver =>
      have spends : LockEvent.Spends tx ⟨.releaseAll giver, (locks.act (.releaseAll giver)).2⟩ ↔ tx = giver := by
        simp [LockEvent.Spends, LockEvent.Aborts, LockTable.act, eq_comm]
      rw [spends]
      simp [LockTable.act, waits_releaseAll, WaitGraph.forget, WaitGraph.clearWaiting, and_comm]
  | interrupt interrupted =>
      refine (mem_interrupted_interrupt sound occupied).trans ?_
      by_cases same : tx = interrupted
      · simp [same, LockTable.act, LockEvent.Spends, LockEvent.Aborts]
      · have differs : interrupted ≠ tx := fun equal => same equal.symm
        simp [same, differs, LockTable.act, LockEvent.Spends, LockEvent.Aborts]
  | expire overdue => simp [LockTable.act, LockTable.expire, LockEvent.Spends, LockEvent.Aborts]

theorem Run.attentive (run : Run Enabled (empty config) history locks) : locks.Attentive :=
  run.invariant (attentive_empty config) fun _ action kept _ => kept.act action

/-- An interrupt is on record just as long as it is pending. -/
theorem Run.mem_interrupted_iff (run : Run Enabled (empty config) history locks) (tx : TxId) :
    tx ∈ locks.waits.interrupted ↔ Pending config Noticed history tx := by
  induction run with
  | start => simp [empty, WaitGraph.empty, Pending]
  | step before action permitted ih =>
      rw [mem_interrupted_act before.attentive.sound before.occupied, pending_cons_iff before act_unanswered, ih]

/-! ## What becomes of a request -/

theorem act_interrupted_iff (asked : action.request? = some (tx, page, mode)) :
    (locks.act action).2 = some (.refused .interrupted) ↔
      (locks.lockOn page).canGrant tx mode ≠ true ∧ ¬ action.Late ∧ tx ∈ locks.waits.interrupted := by
  cases action with
  | acquire asker wanted wish =>
      obtain ⟨rfl, rfl, rfl⟩ : asker = tx ∧ wanted = page ∧ wish = mode := by
        simpa [LockAction.request?] using asked
      refine (Option.some_inj).trans (evaluate_interrupted_iff.trans ?_)
      simp [LockAction.Late]
  | retry waiter =>
      obtain ⟨rfl, rfl, rfl⟩ : waiter.tx = tx ∧ waiter.page = page ∧ waiter.mode = mode := by
        simpa [LockAction.request?] using asked
      refine (Option.some_inj).trans (evaluate_interrupted_iff.trans ?_)
      rw [decide_eq_false_iff_not]
      rfl
  | release | releaseAll | interrupt | expire => simp [LockAction.request?] at asked

theorem act_timeout (asked : action.request? = some (tx, page, mode)) (late : action.Late)
    (blocked : (locks.lockOn page).canGrant tx mode ≠ true) :
    (locks.act action).2 = some (.refused .timeout) := by
  cases action with
  | retry waiter =>
      obtain ⟨rfl, rfl, rfl⟩ : waiter.tx = tx ∧ waiter.page = page ∧ waiter.mode = mode := by
        simpa [LockAction.request?] using asked
      have expired : decide (waiter.state = .expired) = true := decide_eq_true late
      have held : ¬ (LockTable.lockOn { locks with parked := locks.parked.erase waiter } waiter.page).canGrant
          waiter.tx waiter.mode = true := blocked
      simp only [LockTable.act, LockTable.retry, LockTable.evaluate, if_neg held, LockTable.wait, if_pos expired]
  | acquire | release | releaseAll | interrupt | expire => exact late.elim

theorem Run.pending_of_aborts (run : Run Enabled (empty config) (event :: history) locks)
    (aborts : event.Aborts tx) : Pending config Noticed history tx := by
  obtain ⟨before, past, permitted, answered, _⟩ := run.last
  obtain ⟨⟨page, mode, asked⟩, refused⟩ := aborts
  exact (past.mem_interrupted_iff tx).mp
    ((act_interrupted_iff asked).mp (answered.symm.trans refused)).2.2

theorem ne_interrupt_of_aborts (aborts : event.Aborts tx) :
    (⟨.interrupt other, none⟩ : LockEvent) ≠ event := by
  rintro rfl
  obtain ⟨⟨_, _, asked⟩, _⟩ := aborts
  simp [LockAction.request?] at asked

/-- Between two refusals of a transaction for an interrupt comes another interrupt of it. -/
theorem Run.interrupt_between {second first : LockEvent} {between earlier : List LockEvent}
    (run : Run Enabled (empty config) (second :: (between ++ first :: earlier)) locks)
    (again : second.Aborts tx) (once : first.Aborts tx) :
    ∃ event ∈ between, event.action = .interrupt tx := by
  obtain ⟨later, _, _, split, _, _, unspent⟩ := run.pending_of_aborts again
  rcases List.append_eq_append_iff.mp split with ⟨more, rfl, rest⟩ | ⟨more, rfl, rest⟩
  · cases more with
    | nil => exact absurd (List.cons_eq_cons.mp rest).1.symm (ne_interrupt_of_aborts once)
    | cons event more =>
        obtain ⟨rfl, _⟩ := List.cons_eq_cons.mp rest
        exact absurd (Or.inr once) (unspent first (by simp))
  · cases more with
    | nil => exact absurd (List.cons_eq_cons.mp rest).1 (ne_interrupt_of_aborts once)
    | cons event more =>
        obtain ⟨rfl, _⟩ := List.cons_eq_cons.mp rest
        exact ⟨⟨.interrupt tx, none⟩, by simp, rfl⟩

/-! ## One call at a time -/

theorem Patient.enabled (patient : locks.Patient action) : locks.Enabled action := by
  cases action with
  | release | releaseAll => trivial
  | acquire | retry | interrupt | expire => exact patient

theorem Orderly.single (orderly : locks.Orderly action) : locks.Single action := by
  cases action with
  | release | releaseAll => trivial
  | acquire | retry | interrupt | expire => exact orderly

theorem Single.enabled (single : locks.Single action) : locks.Enabled action := by
  cases action with
  | acquire => trivial
  | release | releaseAll | retry | interrupt | expire => exact single

/-- An action that looks at no request of a transaction leaves it parked or not. -/
theorem isParked_act (unlooked : action.request?.map Prod.fst ≠ some tx) :
    (locks.act action).1.IsParked tx ↔ locks.IsParked tx := by
  cases action with
  | acquire asker page mode =>
      have differs : tx ≠ asker := by simpa [LockAction.request?, eq_comm] using unlooked
      refine isParked_evaluate.trans ?_
      simp [differs]
  | retry waiter =>
      have differs : tx ≠ waiter.tx := by simpa [LockAction.request?, eq_comm] using unlooked
      exact isParked_retry_of_ne differs
  | release giver page => exact (rouses_release locks giver page).isParked_iff
  | releaseAll giver => exact (rouses_releaseAll locks giver).isParked_iff
  | interrupt other => exact (rouses_interrupt locks other).isParked_iff
  | expire overdue => exact (rouses_expire locks overdue).isParked_iff

/-- Nothing is given up for a transaction while its request is parked. -/
theorem Run.not_givenUpSinceLook (run : Run Orderly (empty config) history locks)
    (parked : locks.IsParked tx) : ¬ GivenUpSinceLook tx history := by
  induction run with
  | start => simp [GivenUpSinceLook]
  | @step history locks before action orderly ih =>
      rintro (gives | ⟨unlooked, earlier⟩)
      · obtain rfl : action = .releaseAll tx := gives
        exact orderly ((rouses_releaseAll locks tx).isParked_iff.mp parked)
      · exact ih ((isParked_act unlooked).mp parked) earlier

theorem Run.isWaiting_iff_isParked (run : Run Orderly (empty config) history locks) :
    locks.isWaiting tx = true ↔ locks.IsParked tx := by
  have single := run.mono fun _ _ => Orderly.single
  have recorded := (single.mono fun _ _ => Single.enabled).recorded
  rw [recorded.isWaiting_iff]
  refine and_iff_left_of_imp fun parked forgotten => ?_
  exact run.not_givenUpSinceLook parked ((single.alone.forgotten_iff tx parked).mp forgotten)

/-- What is pending came while a request of its transaction was parked, or while it held a page. -/
theorem Run.pending_noticed_iff (run : Run Orderly (empty config) history locks) :
    Pending config Noticed history tx ↔ Pending config Involves history tx := by
  refine exists_congr fun later => exists_congr fun earlier => exists_congr fun before => ?_
  refine and_congr_right fun split => and_congr_right fun past => and_congr_left' ?_
  have whole : history = (later ++ [⟨.interrupt tx, none⟩]) ++ earlier := by simpa using split
  subst whole
  obtain ⟨reached, orderly⟩ := run.earlier
  obtain rfl := past.unique (orderly.mono fun _ _ permitted => permitted.single.enabled)
  rw [Noticed, Involves, orderly.isWaiting_iff_isParked]

/-! ## Delivery -/

/-- What the interrupts of a history do to the requests of their transactions. -/
structure Delivery (config : Config) (history : List LockEvent) (locks : LockTable) : Prop where
  /-- A request in time that cannot be granted is refused as interrupted just if an interrupt is
  pending. -/
  interrupted_iff : ∀ action tx page mode, action.request? = some (tx, page, mode) → ¬ action.Late →
    (locks.lockOn page).canGrant tx mode = false →
    ((locks.act action).2 = some (.refused .interrupted) ↔ Pending config Noticed history tx)
  /-- A late one is refused for its time, and what is pending stays so. -/
  late : ∀ action tx page mode, action.request? = some (tx, page, mode) → action.Late →
    (locks.lockOn page).canGrant tx mode = false →
    (locks.act action).2 = some (.refused .timeout) ∧
      ∀ other, Pending config Noticed (⟨action, (locks.act action).2⟩ :: history) other ↔
        Pending config Noticed history other
  /-- For transactions that make one call at a time and give up pages between their calls, those are
  interrupts that came while a request of the transaction was parked, or while it held a page. -/
  orderly : Run Orderly (empty config) history locks → ∀ tx,
    (locks.isWaiting tx = true ↔ locks.IsParked tx) ∧
      (Pending config Noticed history tx ↔ Pending config Involves history tx)
  /-- An interrupt ends the wait of its transaction that is on record at the next look, in whatever
  order the woken requests are looked at. -/
  at_once : locks.awake = [] → ∀ tx, locks.isWaiting tx = true →
    ∀ order : List Waiter, order.Perm (locks.interrupt tx).woken →
      ∃ (before : List Waiter) (waiter : Waiter) (after : List Waiter),
        order = before ++ waiter :: after ∧ waiter.tx = tx ∧
          (((locks.interrupt tx).retryEach before).retry waiter).2 = .refused .interrupted ∧
          (Run Orderly (empty config) history locks → ¬ ((locks.interrupt tx).retryEach order).IsParked tx)
  /-- One interrupt ends one wait. -/
  once : ∀ tx later second between first earlier,
    history = later ++ second :: (between ++ first :: earlier) →
    LockEvent.Aborts tx second → LockEvent.Aborts tx first →
    ∃ event ∈ between, event.action = .interrupt tx
  /-- An interrupt of a transaction that has a wait on record or holds a page does nothing to requests
  that can be granted, and refuses the next one in time that cannot. -/
  next_wait : ∀ tx, locks.Noticed tx → ∀ later after,
    Run Enabled (empty config) (later ++ ⟨.interrupt tx, none⟩ :: history) after →
    (∀ event ∈ later, ¬ event.Spends tx) →
    ∀ action page mode, action.request? = some (tx, page, mode) → ¬ action.Late →
      (after.act action).2 =
        some (if (after.lockOn page).canGrant tx mode then .granted else .refused .interrupted)
  /-- For everybody else an interrupt is lost. -/
  lost : ∀ tx, ¬ locks.Noticed tx → locks.interrupt tx = locks

/-- Interrupts are delivered exactly once, in every history of a table. -/
theorem delivery_of_run (run : Run Enabled (empty config) history locks) :
    Delivery config history locks := by
  refine ⟨fun action tx page mode asked timely blocked => ?_, fun action tx page mode asked late blocked => ?_,
    fun orderly tx => ⟨orderly.isWaiting_iff_isParked, orderly.pending_noticed_iff⟩,
    fun settled tx waiting order every => ?_,
    fun tx later second between first earlier split again once => ?_,
    fun tx noticed later after further unspent action page mode asked timely => ?_,
    fun tx unnoticed => ?_⟩
  · rw [act_interrupted_iff asked, run.mem_interrupted_iff]
    simp [blocked, timely]
  · have refused := act_timeout asked late (Bool.eq_false_iff.mp blocked)
    refine ⟨refused, fun other => ?_⟩
    have unspent : ¬ LockEvent.Spends other ⟨action, (locks.act action).2⟩ := by
      rintro (rfl | ⟨_, aborted⟩)
      · contradiction
      · simp [refused] at aborted
    have uninterrupted : action ≠ .interrupt other := by
      rintro rfl
      contradiction
    rw [pending_cons_iff run act_unanswered]
    simp [unspent, uninterrupted]
  · obtain ⟨page, on⟩ := isWaiting_iff_exists.mp waiting
    obtain ⟨before, waiter, after, split, asker, refused, gone⟩ :=
      run.attentive.cancelled settled (run.recorded.parked tx page on).1 on every
    refine ⟨before, waiter, after, split, asker, refused, fun orderly => gone ?_⟩
    rw [(rouses_interrupt locks tx).map_tx]
    exact (orderly.mono fun _ _ permitted => permitted.single).alone.once
  · subst split
    obtain ⟨_, past⟩ := run.earlier
    exact past.interrupt_between again once
  · have pending : Pending config Noticed (later ++ ⟨.interrupt tx, none⟩ :: history) tx :=
      ⟨later, history, locks, rfl, run, noticed, unspent⟩
    by_cases possible : (after.lockOn page).canGrant tx mode = true
    · rw [if_pos possible, (act_granted_iff asked).mpr possible]
    · rw [if_neg possible]
      exact (act_interrupted_iff asked).mpr
        ⟨possible, timely, (further.mem_interrupted_iff tx).mpr pending⟩
  · have off : locks.waits.waitingOn.get? tx = none := by
      refine Option.eq_none_iff_forall_ne_some.mpr fun page on => ?_
      exact unnoticed (Or.inl (isWaiting_iff_exists.mpr ⟨page, on⟩))
    exact (interrupt_of_unrecorded run.attentive.sound run.occupied off).2
      fun page holder => unnoticed (Or.inr ⟨page, holder⟩)

/-- Transaction 2 holds page 1 and is interrupted while it waits for nothing. It is granted a free
page, and then refused the page that transaction 1 holds. The time of transaction 3 is over when it is
interrupted. -/
theorem delivery_of_idleHolder :
    ∃ history locks, Run Enabled (empty ⟨4096, some 100, true⟩) history locks ∧
      Pending ⟨4096, some 100, true⟩ Noticed history ⟨2⟩ ∧ Pending ⟨4096, some 100, true⟩ Noticed history ⟨3⟩ ∧
      (locks.act (.acquire ⟨2⟩ ⟨0, 0⟩ .shared)).2 = some (.refused .interrupted) ∧
      (locks.act (.retry ⟨⟨3⟩, ⟨0, 0⟩, .shared, .expired⟩)).2 = some (.refused .timeout) ∧
      Delivery ⟨4096, some 100, true⟩ history locks := by
  have first := (@Run.start Enabled (empty ⟨4096, some 100, true⟩)).step (.acquire ⟨1⟩ ⟨0, 0⟩ .exclusive) trivial
  have second := first.step (.acquire ⟨2⟩ ⟨0, 1⟩ .exclusive) trivial
  have third := second.step (.acquire ⟨3⟩ ⟨0, 0⟩ .shared) trivial
  have fourth := third.step (.interrupt ⟨2⟩) trivial
  have fifth := fourth.step (.acquire ⟨2⟩ ⟨0, 2⟩ .shared) trivial
  have sixth := fifth.step (.expire fun _ => true) trivial
  have run := sixth.step (.interrupt ⟨3⟩) trivial
  have delivery := delivery_of_run run
  have holder := (run.mem_interrupted_iff ⟨2⟩).mp (by decide +kernel)
  have waiter := (run.mem_interrupted_iff ⟨3⟩).mp (by decide +kernel)
  have refused := (delivery.interrupted_iff (.acquire ⟨2⟩ ⟨0, 0⟩ .shared) ⟨2⟩ ⟨0, 0⟩ .shared rfl id
    (by decide +kernel)).mpr holder
  have late := (delivery.late (.retry ⟨⟨3⟩, ⟨0, 0⟩, .shared, .expired⟩) ⟨3⟩ ⟨0, 0⟩ .shared rfl rfl
    (by decide +kernel)).1
  exact ⟨_, _, run, holder, waiter, refused, late, delivery⟩

/-- Transaction 2 has two requests parked. An interrupt ends the second one; the next interrupt comes while
the first one is parked, and is lost. And also where every transaction makes one call at a time, a
request whose time is over is refused for that although its transaction was interrupted, and two
interrupts of a transaction end one wait. -/
theorem undelivered_of_parked :
    (∃ history locks, Run Patient (empty .default) history locks ∧ Pending .default Involves history ⟨2⟩ ∧
      locks.Enabled (.retry ⟨⟨2⟩, ⟨0, 0⟩, .exclusive, .woken⟩) ∧
      (locks.lockOn ⟨0, 0⟩).canGrant ⟨2⟩ .exclusive = false ∧
      (locks.act (.retry ⟨⟨2⟩, ⟨0, 0⟩, .exclusive, .woken⟩)).2 = some .parked) ∧
    (∃ history locks, Run Orderly (empty ⟨4096, some 100, true⟩) history locks ∧
      Pending ⟨4096, some 100, true⟩ Involves history ⟨2⟩ ∧
      locks.Enabled (.retry ⟨⟨2⟩, ⟨0, 0⟩, .exclusive, .expired⟩) ∧
      (locks.lockOn ⟨0, 0⟩).canGrant ⟨2⟩ .exclusive = false ∧
      (locks.act (.retry ⟨⟨2⟩, ⟨0, 0⟩, .exclusive, .expired⟩)).2 = some (.refused .timeout)) ∧
    ∃ earlier before locks, Run Orderly (empty .default) earlier before ∧ before.Involves ⟨2⟩ ∧
      Run Orderly (empty .default) (⟨.acquire ⟨2⟩ ⟨0, 0⟩ .shared, some (.refused .interrupted)⟩ ::
        ⟨.interrupt ⟨2⟩, none⟩ :: ⟨.interrupt ⟨2⟩, none⟩ :: earlier) locks ∧
      (locks.lockOn ⟨0, 0⟩).canGrant ⟨2⟩ .shared = false ∧
      (locks.act (.acquire ⟨2⟩ ⟨0, 0⟩ .shared)).2 = some .parked := by
  refine ⟨?twice, ?late, ?coalesced⟩
  case twice =>
    have first := (@Run.start Patient (empty .default)).step (.acquire ⟨1⟩ ⟨0, 0⟩ .shared) trivial
    have second := first.step (.acquire ⟨4⟩ ⟨0, 0⟩ .shared) trivial
    have third := second.step (.acquire ⟨3⟩ ⟨0, 1⟩ .exclusive) trivial
    have fourth := third.step (.acquire ⟨2⟩ ⟨0, 0⟩ .exclusive) trivial
    have fifth := fourth.step (.acquire ⟨2⟩ ⟨0, 1⟩ .exclusive) trivial
    have sixth := fifth.step (.interrupt ⟨2⟩) trivial
    have before := sixth.step (.retry ⟨⟨2⟩, ⟨0, 1⟩, .exclusive, .woken⟩) (by decide +kernel)
    have after := before.step (.interrupt ⟨2⟩) trivial
    have run := after.step (.release ⟨1⟩ ⟨0, 0⟩) (by decide +kernel)
    refine ⟨_, _, run, ⟨[⟨.release ⟨1⟩ ⟨0, 0⟩, none⟩], _, _, rfl, before.mono fun _ _ => Patient.enabled,
      Or.inl (by decide +kernel), by simp [LockEvent.Spends, LockEvent.Aborts]⟩,
      by decide +kernel, by decide +kernel, by decide +kernel⟩
  case late =>
    have first := (@Run.start Orderly (empty ⟨4096, some 100, true⟩)).step (.acquire ⟨1⟩ ⟨0, 0⟩ .exclusive)
      (by decide +kernel)
    have second := first.step (.acquire ⟨2⟩ ⟨0, 0⟩ .exclusive) (by decide +kernel)
    have before := second.step (.expire fun _ => true) trivial
    have run := before.step (.interrupt ⟨2⟩) trivial
    refine ⟨_, _, run, ⟨[], _, _, rfl, before.mono fun _ _ permitted => permitted.single.enabled,
      Or.inl (by decide +kernel), by simp⟩, by decide +kernel, by decide +kernel, by decide +kernel⟩
  case coalesced =>
    have first := (@Run.start Orderly (empty .default)).step (.acquire ⟨1⟩ ⟨0, 0⟩ .exclusive)
      (by decide +kernel)
    have before := first.step (.acquire ⟨2⟩ ⟨0, 1⟩ .exclusive) (by decide +kernel)
    have twice := (before.step (.interrupt ⟨2⟩) trivial).step (.interrupt ⟨2⟩) trivial
    have run := twice.step (.acquire ⟨2⟩ ⟨0, 0⟩ .shared) (by decide +kernel)
    exact ⟨_, _, _, before, Or.inr ⟨⟨0, 1⟩, by decide +kernel⟩, run, by decide +kernel, by decide +kernel⟩

end LockTable

end RowStore
