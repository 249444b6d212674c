import RowStore.Proofs.Lock.Run

namespace RowStore.LockTable

/-! The locks of a table are what its history of grants and releases makes them. -/

variable {locks : LockTable} {history : List LockEvent} {tx other : TxId} {page place : PageId}

/-- Who holds a page was granted it since giving it up last, and holds it to write if one of these
grants was to write. -/
structure Tracks (history : List LockEvent) (locks : LockTable) : Prop where
  sound : locks.Sound
  holds : ∀ tx page, tx ∈ (locks.lockOn page).holders ↔ grantsSince tx page history ≠ []
  writes : ∀ tx page, tx ∈ (locks.lockOn page).holders →
    ((locks.lockOn page).level = some .exclusive ↔ .exclusive ∈ grantsSince tx page history)

theorem tracks_empty (config : Config) : Tracks [] (empty config) :=
  ⟨sound_empty config, by simp [empty, lockOn, PageLock.free, grantsSince],
    by simp [empty, lockOn, PageLock.free]⟩

theorem Tracks.written_iff (tracks : Tracks history locks) (tx : TxId) (page : PageId) :
    tx ∈ (locks.lockOn page).holders ∧ (locks.lockOn page).level = some .exclusive ↔
      .exclusive ∈ grantsSince tx page history := by
  constructor
  · rintro ⟨held, written⟩
    exact (tracks.writes tx page held).mp written
  · intro granted
    have held := (tracks.holds tx page).mpr (List.ne_nil_of_mem granted)
    exact ⟨held, (tracks.writes tx page held).mpr granted⟩

theorem Tracks.idle {changed : LockTable} {event : LockEvent} (tracks : Tracks history locks)
    (sound : changed.Sound) (same : ∀ page, changed.lockOn page = locks.lockOn page)
    (keeps : ∀ tx page, event.action.givesUp tx page = false)
    (grants : ∀ tx page, event.grant? tx page = none) : Tracks (event :: history) changed := by
  have since : ∀ tx page, grantsSince tx page (event :: history) = grantsSince tx page history := by
    intro tx page
    simp [grantsSince, keeps, grants]
  exact ⟨sound, by simpa only [same, since] using tracks.holds,
    by simpa only [same, since] using tracks.writes⟩

/-- A page that is granted was read and is to be read, or nobody else holds it; so the grant adds
one mode to what its holder was granted, and leaves the other holders what they were. -/
theorem Tracks.grant {mode : LockMode} {waited : Bool} {event : LockEvent}
    (tracks : Tracks history locks) (granted : (locks.lockOn page).canGrant tx mode = true)
    (asked : event.action.request? = some (tx, page, mode)) (answered : event.verdict = some .granted) :
    Tracks (event :: history) (locks.grant tx page mode waited) := by
  have keeps : ∀ other place, event.action.givesUp other place = false := by
    intro other place
    cases shape : event.action <;> simp_all [LockAction.request?, LockAction.givesUp]
  have mine : grantsSince tx page (event :: history) = mode :: grantsSince tx page history := by
    simp [grantsSince, keeps, LockEvent.grant?, asked, answered]
  have others : ∀ other place, ¬ (tx = other ∧ page = place) →
      grantsSince other place (event :: history) = grantsSince other place history := by
    intro other place differs
    simp [grantsSince, keeps, LockEvent.grant?, asked, answered, differs]
  refine ⟨tracks.sound.grant granted, fun other place => ?_, fun other place holder => ?_⟩
  · rw [lockOn_grant]
    by_cases same : tx = other ∧ page = place
    · obtain ⟨rfl, rfl⟩ := same
      simp [mine, PageLock.mem_holders_grant]
    · rw [others other place same, ← tracks.holds]
      split
      · next here =>
        subst here
        have differs : other ≠ tx := fun equal => same ⟨equal.symm, rfl⟩
        simp [PageLock.mem_holders_grant, differs]
      · rfl
  · rw [lockOn_grant] at holder ⊢
    by_cases here : place = page
    · subst here
      rw [if_pos rfl] at holder ⊢
      by_cases same : other = tx
      · subst same
        rw [(tracks.sound.lock place).level_grant_iff granted, mine, List.mem_cons, eq_comm]
        exact or_congr_right (tracks.written_iff other place)
      · have held := (PageLock.mem_holders_grant.mp holder).resolve_left same
        rw [others other place fun equal => same equal.1.symm, ← tracks.writes other place held,
          (tracks.sound.lock place).level_grant_of_ne granted held same]
    · rw [if_neg here] at holder ⊢
      rw [others other place fun equal => here equal.2.symm]
      exact tracks.writes other place holder

theorem Tracks.evaluate {mode : LockMode} {waited expired : Bool} {event : LockEvent}
    (tracks : Tracks history locks) (asked : event.action.request? = some (tx, page, mode))
    (answered : event.verdict = some (locks.evaluate tx page mode waited expired).2) :
    Tracks (event :: history) (locks.evaluate tx page mode waited expired).1 := by
  by_cases granted : (locks.evaluate tx page mode waited expired).2 = .granted
  · rw [evaluate_of_granted granted]
    exact tracks.grant (evaluate_granted_iff.mp granted) asked (answered.trans (by rw [granted]))
  · refine tracks.idle (tracks.sound.evaluate _ _ _ _ _) (fun _ => lockOn_evaluate_of_not_granted granted)
      (fun _ _ => ?_) (fun _ _ => ?_)
    · cases shape : event.action <;> simp_all [LockAction.request?, LockAction.givesUp]
    · simp [LockEvent.grant?, asked, answered, granted]

/-- Who gives up a page holds it no longer; for everybody else nothing changes. -/
theorem Tracks.giveUp {changed : LockTable} {action : LockAction} (tracks : Tracks history locks)
    (tx : TxId) (sound : changed.Sound) (nothing : action.request? = none)
    (lockOn : ∀ place, changed.lockOn place =
      if action.givesUp tx place then (locks.lockOn place).release tx else locks.lockOn place)
    (own : ∀ other place, action.givesUp other place = true → other = tx) :
    Tracks (⟨action, none⟩ :: history) changed := by
  have since : ∀ other place, grantsSince other place (⟨action, none⟩ :: history) =
      if action.givesUp other place then [] else grantsSince other place history := by
    intro other place
    simp [grantsSince, LockEvent.grant?, nothing]
  have stays : ∀ other place, other ∈ (changed.lockOn place).holders ↔
      other ∈ (locks.lockOn place).holders ∧ action.givesUp other place = false := by
    intro other place
    rw [lockOn place]
    by_cases same : other = tx
    · subst same
      split
      · next gives => simp [PageLock.mem_holders_release, gives]
      · next keeps => simp [keeps]
    · have keeps : action.givesUp other place = false := by
        simpa using mt (own other place) same
      split
      · simp [PageLock.mem_holders_release, keeps, same]
      · simp [keeps]
  refine ⟨sound, fun other place => ?_, fun other place holder => ?_⟩
  · rw [stays, since, tracks.holds]
    split
    · next gives => simp [gives]
    · next keeps => simp [keeps]
  · obtain ⟨held, keeps⟩ := (stays other place).mp holder
    rw [since, keeps, if_neg Bool.false_ne_true, ← tracks.writes other place held]
    rw [lockOn place] at holder ⊢
    split
    · next gives =>
      rw [if_pos gives] at holder
      rw [PageLock.level_release_of_mem holder]
    · rfl

theorem Tracks.act (tracks : Tracks history locks) (action : LockAction) :
    Tracks (⟨action, (locks.act action).2⟩ :: history) (locks.act action).1 := by
  cases action with
  | acquire tx page mode => exact tracks.evaluate rfl rfl
  | retry waiter =>
      have taken : Tracks history { locks with parked := locks.parked.erase waiter } :=
        ⟨tracks.sound.congr _ rfl rfl, tracks.holds, tracks.writes⟩
      exact taken.evaluate rfl rfl
  | release tx page =>
      refine tracks.giveUp tx (tracks.sound.release tx page) rfl (fun place => ?_) ?_
      · rw [LockTable.act, lockOn_release]
        by_cases same : place = page
        · simp [same, LockAction.givesUp]
        · have apart : ¬ page = place := fun equal => same equal.symm
          simp [same, apart, LockAction.givesUp]
      · simp +contextual [LockAction.givesUp]
  | releaseAll tx =>
      refine tracks.giveUp tx (tracks.sound.releaseAll tx) rfl (fun place => ?_) ?_
      · rw [LockTable.act, lockOn_releaseAll tracks.sound]
        simp [LockAction.givesUp]
      · simp +contextual [LockAction.givesUp]
  | interrupt tx =>
      exact tracks.idle (tracks.sound.interrupt tx) (fun page => by simp [LockTable.act, lockOn])
        (fun _ _ => rfl) fun _ _ => rfl
  | expire overdue =>
      exact tracks.idle (tracks.sound.expire overdue) (fun _ => rfl) (fun _ _ => rfl) fun _ _ => rfl

theorem Run.tracks {allowed : LockTable → LockAction → Prop} {config : Config}
    (run : Run allowed (empty config) history locks) : Tracks history locks := by
  induction run with
  | start => exact tracks_empty config
  | step _ action _ ih => exact ih.act action

/-- What the locks of a table say, in terms of the grants and releases that led to it. -/
structure Agreement (history : List LockEvent) (locks : LockTable) : Prop where
  free_iff : ∀ page, (locks.lockOn page).level = none ↔ (locks.lockOn page).holders = []
  exclusive_alone : ∀ page, (locks.lockOn page).level = some .exclusive →
    (locks.lockOn page).holders.length = 1
  listed_iff : ∀ tx page, tx ∈ (locks.lockOn page).holders ↔ page ∈ locks.heldPages tx
  granted_iff : ∀ tx page, tx ∈ (locks.lockOn page).holders ↔ grantsSince tx page history ≠ []
  exclusive_iff : ∀ tx page, tx ∈ (locks.lockOn page).holders →
    ((locks.lockOn page).level = some .exclusive ↔ .exclusive ∈ grantsSince tx page history)
  /-- A new request is granted when nobody else holds the page, or when both only read. -/
  acquire_iff : ∀ tx page mode, (locks.acquire tx page mode).2 = .granted ↔
    (∀ holder ∈ (locks.lockOn page).holders, holder = tx) ∨
      mode = .shared ∧ (locks.lockOn page).level = some .shared
  retry_iff : ∀ waiter ∈ locks.parked, (locks.retry waiter).2 = .granted ↔
    (∀ holder ∈ (locks.lockOn waiter.page).holders, holder = waiter.tx) ∨
      waiter.mode = .shared ∧ (locks.lockOn waiter.page).level = some .shared
  never_written : ∀ tx other page, tx ∈ (locks.lockOn page).holders →
    other ∈ (locks.lockOn page).holders → tx ≠ other →
    (locks.lockOn page).level = some .shared ∧ .exclusive ∉ grantsSince tx page history

/-- Every table that grants, parks, releases and interrupts lead to agrees with its history. -/
theorem agreement_of_run {config : Config} (run : Run Enabled (empty config) history locks) :
    Agreement history locks := by
  have tracks := run.tracks
  have lock := tracks.sound.lock
  refine ⟨fun page => (lock page).free_iff, fun page => (lock page).alone, tracks.sound.held,
    tracks.holds, tracks.writes, fun tx page mode => ?_, fun waiter _ => ?_, ?_⟩
  · rw [acquire, evaluate_granted_iff, (lock page).canGrant_iff]
  · rw [retry, evaluate_granted_iff]
    exact (lock waiter.page).canGrant_iff
  · intro tx other page first second differs
    have readable : (locks.lockOn page).level ≠ some .exclusive := by
      intro exclusive
      rw [(lock page).holders_eq_of_exclusive exclusive second] at first
      exact differs (List.mem_singleton.mp first)
    have taken := mt (lock page).free_iff.mp (List.ne_nil_of_mem first)
    refine ⟨?_, mt (tracks.writes tx page first).mpr readable⟩
    match level : (locks.lockOn page).level with
    | none => exact absurd level taken
    | some .shared => rfl
    | some .exclusive => exact absurd level readable

/-- Two readers, one of which waits to write until the other one has left. -/
theorem agreement_of_upgrade :
    ∃ history locks, Run Enabled (empty ⟨4096, none, false⟩) history locks ∧
      locks.lockOn ⟨0, 0⟩ = ⟨some .exclusive, [⟨1⟩]⟩ ∧ Agreement history locks := by
  have first := (@Run.start Enabled (empty ⟨4096, none, false⟩)).step (.acquire ⟨1⟩ ⟨0, 0⟩ .shared) trivial
  have second := first.step (.acquire ⟨2⟩ ⟨0, 0⟩ .shared) trivial
  have third := second.step (.acquire ⟨1⟩ ⟨0, 0⟩ .exclusive) trivial
  have fourth := third.step (.release ⟨2⟩ ⟨0, 0⟩) trivial
  have run := fourth.step (.retry ⟨⟨1⟩, ⟨0, 0⟩, .exclusive, .woken⟩) ⟨by decide, by decide⟩
  exact ⟨_, _, run, by rfl, agreement_of_run run⟩

end RowStore.LockTable
