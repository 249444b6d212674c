import RowStore.Lock.Table

namespace RowStore

/-! The lock of a page agrees with itself and with the list of pages that its holders hold.

Requests, releases and interrupts keep that agreement; each of them is described
here by what it does to the lock of every page and to the pages of every
transaction.
-/

namespace PageLock

/-- A page without holders is free, and a page that is locked to write has one holder. -/
structure Sound (lock : PageLock) : Prop where
  free_iff : lock.level = none ↔ lock.holders = []
  alone : lock.level = some .exclusive → lock.holders.length = 1
  distinct : lock.holders.Nodup

variable {lock : PageLock} {tx other : TxId} {mode : LockMode}

theorem sound_free : free.Sound := ⟨by simp [free], by simp [free], List.nodup_nil⟩

theorem heldOnlyBy_iff :
    lock.heldOnlyBy tx = true ↔ tx ∈ lock.holders ∧ ∀ holder ∈ lock.holders, holder = tx := by
  simp [heldOnlyBy, heldBy]

theorem Sound.holders_eq (sound : lock.Sound) (member : tx ∈ lock.holders)
    (only : ∀ holder ∈ lock.holders, holder = tx) : lock.holders = [tx] := by
  have distinct := sound.distinct
  cases holders : lock.holders with
  | nil => simp [holders] at member
  | cons first rest =>
      rw [holders] at only distinct
      obtain rfl := only first (by simp)
      cases rest with
      | nil => rfl
      | cons second rest =>
          obtain rfl := only second (by simp)
          simp at distinct

theorem Sound.holders_eq_of_exclusive (sound : lock.Sound) (exclusive : lock.level = some .exclusive)
    (member : tx ∈ lock.holders) : lock.holders = [tx] := by
  obtain ⟨holder, holders⟩ := List.length_eq_one_iff.mp (sound.alone exclusive)
  rw [holders] at member ⊢
  rw [List.mem_singleton.mp member]

/-- A request is granted when nobody else holds the page, or when the page is only read and is to
be read. -/
theorem Sound.canGrant_iff (sound : lock.Sound) :
    lock.canGrant tx mode = true ↔
      (∀ holder ∈ lock.holders, holder = tx) ∨ mode = .shared ∧ lock.level = some .shared := by
  have member_of_only : lock.level ≠ none → (∀ holder ∈ lock.holders, holder = tx) →
      tx ∈ lock.holders := by
    intro taken only
    obtain ⟨holder, listed⟩ := List.exists_mem_of_ne_nil _ (mt sound.free_iff.mpr taken)
    exact only holder listed ▸ listed
  unfold canGrant
  split
  · next level =>
    simp [sound.free_iff.mp level]
  · next level => simp [level]
  · next level =>
    simp only [heldOnlyBy_iff, reduceCtorEq, false_and, or_false]
    exact ⟨And.right, fun only => ⟨member_of_only (by simp [level]) only, only⟩⟩
  · next level =>
    simp only [heldOnlyBy_iff, level, Option.some.injEq, reduceCtorEq, and_false, or_false]
    exact ⟨And.right, fun only => ⟨member_of_only (by simp [level]) only, only⟩⟩

theorem mem_holders_grant :
    other ∈ (lock.grant tx mode).holders ↔ other = tx ∨ other ∈ lock.holders := by
  simp only [grant]
  split
  · next member =>
    refine ⟨Or.inr, ?_⟩
    rintro (rfl | listed)
    · exact member
    · exact listed
  · exact List.mem_cons

theorem level_grant_ne_none : (lock.grant tx mode).level ≠ none := by
  simp only [grant]
  split <;> simp

theorem level_grant_exclusive : (lock.grant tx .exclusive).level = some .exclusive := by
  simp [grant]

/-- Whoever is granted a page has it locked to write if it was so before, or is so from now on. -/
theorem Sound.level_grant_iff (sound : lock.Sound) (granted : lock.canGrant tx mode = true) :
    (lock.grant tx mode).level = some .exclusive ↔
      mode = .exclusive ∨ tx ∈ lock.holders ∧ lock.level = some .exclusive := by
  by_cases written : lock.level = some .exclusive
  · have held : tx ∈ lock.holders := by
      obtain ⟨holder, holders⟩ := List.length_eq_one_iff.mp (sound.alone written)
      rcases sound.canGrant_iff.mp granted with only | ⟨_, level⟩
      · rw [holders, ← only holder (by simp [holders])]
        exact List.mem_singleton_self holder
      · simp [written] at level
    simp [PageLock.grant, written, held]
  · simp [PageLock.grant, written]

/-- A page that others hold is read, and it is granted only to be read. -/
theorem Sound.level_grant_of_ne (sound : lock.Sound) (granted : lock.canGrant tx mode = true)
    (held : other ∈ lock.holders) (differs : other ≠ tx) :
    (lock.grant tx mode).level = lock.level := by
  rcases sound.canGrant_iff.mp granted with only | ⟨reading, level⟩
  · exact absurd (only other held) differs
  · simp [PageLock.grant, reading, level]

theorem Sound.grant (sound : lock.Sound) (granted : lock.canGrant tx mode = true) :
    (lock.grant tx mode).Sound := by
  constructor
  · have listed : tx ∈ (lock.grant tx mode).holders := mem_holders_grant.mpr (Or.inl rfl)
    simp [level_grant_ne_none, List.ne_nil_of_mem listed]
  · intro exclusive
    have only : ∀ holder ∈ lock.holders, holder = tx := by
      rcases sound.canGrant_iff.mp granted with only | ⟨reading, level⟩
      · exact only
      · simp [PageLock.grant, reading, level] at exclusive
    simp only [PageLock.grant]
    split
    · next member => simp [sound.holders_eq member only]
    · next absent =>
      have none : lock.holders = [] :=
        List.eq_nil_iff_forall_not_mem.mpr fun holder listed => absent (only holder listed ▸ listed)
      simp [none]
  · simp only [PageLock.grant]
    split
    · exact sound.distinct
    · next absent => exact List.nodup_cons.mpr ⟨absent, sound.distinct⟩

/-- A grant makes no other request possible. -/
theorem Sound.canGrant_of_grant (sound : lock.Sound) {wish : LockMode} (granted : lock.canGrant tx mode = true)
    (next : (lock.grant tx mode).canGrant other wish = true) : lock.canGrant other wish = true := by
  rcases (sound.grant granted).canGrant_iff.mp next with only | ⟨reading, level⟩
  · exact sound.canGrant_iff.mpr (Or.inl fun holder listed =>
      only holder (mem_holders_grant.mpr (Or.inr listed)))
  · subst reading
    match before : lock.level with
    | none => simp [canGrant, before]
    | some .shared => simp [canGrant, before]
    | some .exclusive => simp [PageLock.grant, before] at level

theorem mem_holders_release :
    other ∈ (lock.release tx).holders ↔ other ∈ lock.holders ∧ other ≠ tx := by
  simp [release]

theorem level_release :
    (lock.release tx).level = if (lock.release tx).holders = [] then none else lock.level := by
  simp only [release, List.isEmpty_iff]

theorem level_release_of_mem (left : other ∈ (lock.release tx).holders) :
    (lock.release tx).level = lock.level := by
  rw [level_release, if_neg (List.ne_nil_of_mem left)]

theorem Sound.release (sound : lock.Sound) (tx : TxId) : (lock.release tx).Sound := by
  constructor
  · rw [level_release]
    split
    · next left => simp [left]
    · next left =>
      obtain ⟨holder, listed⟩ := List.exists_mem_of_ne_nil _ left
      simp [left, sound.free_iff, List.ne_nil_of_mem (mem_holders_release.mp listed).1]
  · intro exclusive
    rw [level_release] at exclusive
    split at exclusive
    · contradiction
    · next left =>
      obtain ⟨holder, listed⟩ := List.exists_mem_of_ne_nil _ left
      obtain ⟨member, apart⟩ := mem_holders_release.mp listed
      have holders := sound.holders_eq_of_exclusive exclusive member
      simp [PageLock.release, holders, apart]
  · exact sound.distinct.filter _

theorem Sound.release_of_not_mem (sound : lock.Sound) (absent : tx ∉ lock.holders) :
    lock.release tx = lock := by
  have holders : (lock.release tx).holders = lock.holders := by
    rw [PageLock.release, List.filter_eq_self]
    intro holder listed
    simpa using fun same : holder = tx => absent (same ▸ listed)
  have level : (lock.release tx).level = lock.level := by
    rw [level_release, holders]
    split
    · next nobody => exact (sound.free_iff.mpr nobody).symm
    · rfl
  cases lock
  simp_all [PageLock.release]

/-- A request that another holder stands against stays impossible while that holder is left. -/
theorem Sound.canGrant_of_release (sound : lock.Sound) {holder : TxId}
    (left : holder ∈ (lock.release tx).holders) (differs : holder ≠ other)
    (granted : (lock.release tx).canGrant other mode = true) : lock.canGrant other mode = true := by
  rcases (sound.release tx).canGrant_iff.mp granted with only | ⟨reading, level⟩
  · exact absurd (only holder left) differs
  · rw [level_release_of_mem left] at level
    exact sound.canGrant_iff.mpr (Or.inr ⟨reading, level⟩)

theorem release_release : (lock.release tx).release tx = lock.release tx := by
  have holders : ((lock.release tx).release tx).holders = (lock.release tx).holders := by
    simp [release]
  have level : ((lock.release tx).release tx).level = (lock.release tx).level := by
    rw [level_release, holders, level_release]
    split <;> rfl
  generalize lock.release tx = released at *
  cases released
  simp_all [release]

@[simp] theorem release_free : free.release tx = free := rfl

end PageLock

namespace LockTable

/-- Every lock is sound, and its holders are those who have the page on their list. -/
structure Sound (locks : LockTable) : Prop where
  lock : ∀ page, (locks.lockOn page).Sound
  held : ∀ tx page, tx ∈ (locks.lockOn page).holders ↔ page ∈ locks.heldPages tx

variable {locks : LockTable} {tx other : TxId} {page place : PageId} {mode : LockMode}

theorem Sound.congr (sound : locks.Sound) (changed : LockTable)
    (pages : changed.pages = locks.pages) (held : changed.held = locks.held) : changed.Sound := by
  have lockOn : changed.lockOn = locks.lockOn := by
    funext page
    simp [LockTable.lockOn, pages]
  have heldPages : changed.heldPages = locks.heldPages := by
    funext tx
    simp [LockTable.heldPages, held]
  exact ⟨by simpa [lockOn] using sound.lock, by simpa [lockOn, heldPages] using sound.held⟩

theorem sound_empty (config : Config) : (empty config).Sound :=
  ⟨fun _ => PageLock.sound_free, fun _ _ => by simp [lockOn, heldPages, empty, PageLock.free]⟩

/-! ## What the operations do to locks and to lists of pages -/

theorem lockOn_grant {waited : Bool} :
    (locks.grant tx page mode waited).lockOn place =
      if place = page then (locks.lockOn page).grant tx mode else locks.lockOn place := by
  simp only [grant, lockOn, FinMap.get?_insert]
  split <;> simp

theorem heldPages_grant {waited : Bool} :
    (locks.grant tx page mode waited).heldPages other =
      if other = tx then
        if page ∈ locks.heldPages tx then locks.heldPages tx else page :: locks.heldPages tx
      else locks.heldPages other := by
  rw [heldPages, grant, FinMap.get?_insert]
  split <;> rfl

theorem mem_heldPages_grant {waited : Bool} :
    place ∈ (locks.grant tx page mode waited).heldPages other ↔
      place = page ∧ other = tx ∨ place ∈ locks.heldPages other := by
  rw [heldPages_grant]
  split
  · next same =>
    subst same
    split
    · next listed =>
      refine ⟨Or.inr, ?_⟩
      rintro (⟨rfl, _⟩ | member)
      · exact listed
      · exact member
    · simp
  · next differs => simp [differs]

@[simp] theorem wait_pages {expired : Bool} :
    (locks.wait tx page mode expired).1.pages = locks.pages := by
  simp only [wait]
  split
  · rfl
  · split
    · rfl
    · split <;> rfl

@[simp] theorem wait_held {expired : Bool} :
    (locks.wait tx page mode expired).1.held = locks.held := by
  simp only [wait]
  split
  · rfl
  · split
    · rfl
    · split <;> rfl

theorem wait_verdict_ne_granted {expired : Bool} :
    (locks.wait tx page mode expired).2 ≠ .granted := by
  simp only [wait]
  split
  · simp
  · split
    · simp
    · split <;> simp

theorem evaluate_granted_iff {waited expired : Bool} :
    (locks.evaluate tx page mode waited expired).2 = .granted ↔
      (locks.lockOn page).canGrant tx mode = true := by
  unfold evaluate
  split
  · next granted => simp [granted]
  · next refused => simp [refused, wait_verdict_ne_granted]

theorem evaluate_of_granted {waited expired : Bool}
    (granted : (locks.evaluate tx page mode waited expired).2 = .granted) :
    (locks.evaluate tx page mode waited expired).1 = locks.grant tx page mode waited := by
  simp [evaluate, evaluate_granted_iff.mp granted]

theorem evaluate_of_not_granted {waited expired : Bool}
    (refused : (locks.evaluate tx page mode waited expired).2 ≠ .granted) :
    locks.evaluate tx page mode waited expired = locks.wait tx page mode expired := by
  have blocked := mt evaluate_granted_iff.mpr refused
  simp [evaluate, blocked]

theorem lockOn_evaluate_of_not_granted {waited expired : Bool}
    (refused : (locks.evaluate tx page mode waited expired).2 ≠ .granted) :
    (locks.evaluate tx page mode waited expired).1.lockOn place = locks.lockOn place := by
  simp [evaluate_of_not_granted refused, lockOn]

theorem heldPages_evaluate_of_not_granted {waited expired : Bool}
    (refused : (locks.evaluate tx page mode waited expired).2 ≠ .granted) :
    (locks.evaluate tx page mode waited expired).1.heldPages other = locks.heldPages other := by
  simp [evaluate_of_not_granted refused, heldPages]

@[simp] theorem lockOn_releasePage :
    (locks.releasePage tx page).lockOn place =
      if place = page then (locks.lockOn page).release tx else locks.lockOn place := by
  unfold releasePage
  split
  · simp only [notify, lockOn, FinMap.get?_insert]
    split <;> simp
  · next missing =>
    have absent : locks.pages.get? page = none := by simpa [FinMap.contains] using missing
    split
    · next same => simp [lockOn, same, absent]
    · rfl

@[simp] theorem releasePage_held : (locks.releasePage tx page).held = locks.held := by
  unfold releasePage
  split <;> rfl

theorem heldPages_release :
    (locks.release tx page).heldPages other =
      if other = tx then (locks.heldPages tx).filter (· ≠ page) else locks.heldPages other := by
  rw [heldPages, release, releasePage_held]
  generalize (locks.heldPages tx).filter (· ≠ page) = left
  cases left with
  | nil =>
      rw [List.isEmpty_nil, if_pos rfl, FinMap.get?_erase]
      split <;> rfl
  | cons first rest =>
      rw [List.isEmpty_cons, if_neg Bool.false_ne_true, FinMap.get?_insert]
      split <;> rfl

theorem mem_heldPages_release :
    place ∈ (locks.release tx page).heldPages other ↔
      place ∈ locks.heldPages other ∧ ¬ (place = page ∧ other = tx) := by
  rw [heldPages_release]
  split
  · next same => simp [same]
  · next differs => simp [differs]

@[simp] theorem lockOn_release :
    (locks.release tx page).lockOn place =
      if place = page then (locks.lockOn page).release tx else locks.lockOn place := by
  simp only [release, lockOn_releasePage]
  rfl

theorem lockOn_releaseEach (pages : List PageId) :
    (pages.foldl (fun locks page => locks.releasePage tx page) locks).lockOn place =
      if place ∈ pages then (locks.lockOn place).release tx else locks.lockOn place := by
  induction pages generalizing locks with
  | nil => simp
  | cons page rest ih =>
      rw [List.foldl_cons, ih, lockOn_releasePage]
      by_cases same : place = page
      · subst same
        simp [PageLock.release_release]
      · simp [same]

theorem releaseEach_held (pages : List PageId) :
    (pages.foldl (fun locks page => locks.releasePage tx page) locks).held = locks.held := by
  induction pages generalizing locks with
  | nil => rfl
  | cons page rest ih => rw [List.foldl_cons, ih, releasePage_held]

theorem lockOn_releaseAll (sound : locks.Sound) :
    (locks.releaseAll tx).lockOn place = (locks.lockOn place).release tx := by
  have freed := @lockOn_releaseEach { locks with held := locks.held.erase tx } tx place
    (locks.heldPages tx)
  simp only [releaseAll]
  refine Eq.trans freed ?_
  split
  · rfl
  · next missing =>
    exact ((sound.lock place).release_of_not_mem (mt (sound.held tx place).mp missing)).symm

theorem heldPages_releaseAll :
    (locks.releaseAll tx).heldPages other = if other = tx then [] else locks.heldPages other := by
  simp only [releaseAll, heldPages, releaseEach_held, FinMap.get?_erase]
  split <;> rfl

@[simp] theorem interrupt_pages : (locks.interrupt tx).pages = locks.pages := by
  unfold interrupt
  split <;> rfl

@[simp] theorem interrupt_held : (locks.interrupt tx).held = locks.held := by
  unfold interrupt
  split <;> rfl

/-! ## Soundness is kept -/

theorem Sound.grant {waited : Bool} (sound : locks.Sound)
    (granted : (locks.lockOn page).canGrant tx mode = true) :
    (locks.grant tx page mode waited).Sound := by
  constructor
  · intro place
    rw [lockOn_grant]
    split
    · exact (sound.lock page).grant granted
    · exact sound.lock place
  · intro other place
    rw [lockOn_grant, mem_heldPages_grant, ← sound.held]
    split
    · next same =>
      subst same
      simp [PageLock.mem_holders_grant]
    · next differs => simp [differs]

theorem Sound.evaluate (sound : locks.Sound) (tx : TxId) (page : PageId) (mode : LockMode)
    (waited expired : Bool) : (locks.evaluate tx page mode waited expired).1.Sound := by
  by_cases granted : (locks.evaluate tx page mode waited expired).2 = .granted
  · rw [evaluate_of_granted granted]
    exact sound.grant (evaluate_granted_iff.mp granted)
  · rw [evaluate_of_not_granted granted]
    exact sound.congr _ wait_pages wait_held

theorem Sound.acquire (sound : locks.Sound) (tx : TxId) (page : PageId) (mode : LockMode) :
    (locks.acquire tx page mode).1.Sound := sound.evaluate _ _ _ _ _

theorem Sound.request (sound : locks.Sound) (tx : TxId) (page : PageId) (mode : LockMode) :
    (locks.request tx page mode).1.Sound := by
  unfold LockTable.request
  split
  · exact sound.acquire _ _ _
  · exact (sound.congr (locks.unpark tx) rfl rfl).evaluate _ _ _ _ _

theorem Sound.release (sound : locks.Sound) (tx : TxId) (page : PageId) :
    (locks.release tx page).Sound := by
  constructor
  · intro place
    rw [lockOn_release]
    split
    · exact (sound.lock page).release tx
    · exact sound.lock place
  · intro other place
    rw [lockOn_release, mem_heldPages_release, ← sound.held]
    split
    · next same =>
      subst same
      simp [PageLock.mem_holders_release]
    · next differs => simp [differs]

theorem Sound.releaseAll (sound : locks.Sound) (tx : TxId) : (locks.releaseAll tx).Sound := by
  constructor
  · intro place
    rw [lockOn_releaseAll sound]
    exact (sound.lock place).release tx
  · intro other place
    rw [lockOn_releaseAll sound, heldPages_releaseAll, PageLock.mem_holders_release, sound.held]
    split
    · next same => simp [same]
    · next differs => simp [differs]

theorem Sound.interrupt (sound : locks.Sound) (tx : TxId) : (locks.interrupt tx).Sound :=
  sound.congr _ interrupt_pages interrupt_held

theorem Sound.expire (sound : locks.Sound) (overdue : Waiter → Bool) : (locks.expire overdue).Sound :=
  sound.congr _ rfl rfl

/-! ## What a request does to the pages of its transaction and of others -/

theorem request_eq_evaluate (locks : LockTable) (tx : TxId) (page : PageId) (mode : LockMode) :
    ∃ (before : LockTable) (waited expired : Bool),
      locks.request tx page mode = before.evaluate tx page mode waited expired ∧
      before.pages = locks.pages ∧ before.held = locks.held := by
  unfold request
  split
  · exact ⟨locks, false, false, rfl, rfl, rfl⟩
  · exact ⟨locks.unpark tx, true, _, rfl, rfl, rfl⟩

/-- A page that is locked to write stays as it is, whoever asks for whichever page. -/
theorem Sound.lockOn_request_of_exclusive (sound : locks.Sound) {owner : TxId}
    (owned : locks.lockOn place = ⟨some .exclusive, [owner]⟩) (tx : TxId) (page : PageId)
    (mode : LockMode) : (locks.request tx page mode).1.lockOn place = ⟨some .exclusive, [owner]⟩ := by
  obtain ⟨before, waited, expired, same, pages, _⟩ := locks.request_eq_evaluate tx page mode
  have lockOn : ∀ place, before.lockOn place = locks.lockOn place := fun place => by
    simp [LockTable.lockOn, pages]
  rw [same]
  by_cases granted : (before.evaluate tx page mode waited expired).2 = .granted
  · rw [evaluate_of_granted granted, lockOn_grant]
    split
    · next here =>
      subst here
      have allowed := evaluate_granted_iff.mp granted
      rw [lockOn, (sound.lock place).canGrant_iff, owned] at allowed
      rcases allowed with only | ⟨_, level⟩
      · have own : owner = tx := only owner (by simp)
        simp [PageLock.grant, lockOn, owned, own]
      · simp at level
    · rw [lockOn, owned]
  · rw [lockOn_evaluate_of_not_granted granted, lockOn, owned]

theorem heldPages_request_of_ne (differs : other ≠ tx) :
    (locks.request tx page mode).1.heldPages other = locks.heldPages other := by
  obtain ⟨before, waited, expired, same, _, held⟩ := locks.request_eq_evaluate tx page mode
  have pages : before.heldPages other = locks.heldPages other := by rw [heldPages, heldPages, held]
  rw [same]
  by_cases granted : (before.evaluate tx page mode waited expired).2 = .granted
  · rw [evaluate_of_granted granted, heldPages_grant, if_neg differs, pages]
  · rw [heldPages_evaluate_of_not_granted granted, pages]

/-- A transaction that has a page locked to write holds it alone. -/
theorem Sound.lockOn_request_of_granted (sound : locks.Sound)
    (granted : (locks.request tx page .exclusive).2 = .granted) :
    (locks.request tx page .exclusive).1.lockOn page = ⟨some .exclusive, [tx]⟩ := by
  have after := sound.request tx page .exclusive
  obtain ⟨before, waited, expired, same, _, _⟩ := locks.request_eq_evaluate tx page .exclusive
  rw [same] at granted after ⊢
  rw [evaluate_of_granted granted] at after ⊢
  have level : ((before.grant tx page .exclusive waited).lockOn page).level = some .exclusive := by
    rw [lockOn_grant, if_pos rfl, PageLock.level_grant_exclusive]
  have member : tx ∈ ((before.grant tx page .exclusive waited).lockOn page).holders := by
    rw [lockOn_grant, if_pos rfl]
    exact PageLock.mem_holders_grant.mpr (Or.inl rfl)
  have holders := (after.lock page).holders_eq_of_exclusive level member
  generalize (before.grant tx page .exclusive waited).lockOn page = lock at *
  cases lock
  simp_all

theorem Sound.request_granted (sound : locks.Sound)
    (alone : ∀ holder ∈ (locks.lockOn page).holders, holder = tx) :
    (locks.request tx page mode).2 = .granted := by
  obtain ⟨before, waited, expired, same, pages, _⟩ := locks.request_eq_evaluate tx page mode
  have lockOn : before.lockOn page = locks.lockOn page := by simp [LockTable.lockOn, pages]
  rw [same, evaluate_granted_iff, lockOn, (sound.lock page).canGrant_iff]
  exact Or.inl alone

theorem mem_holders_request (listed : other ∈ ((locks.request tx page mode).1.lockOn place).holders) :
    other = tx ∨ other ∈ (locks.lockOn place).holders := by
  obtain ⟨before, waited, expired, same, pages, _⟩ := locks.request_eq_evaluate tx page mode
  have lockOn : ∀ place, before.lockOn place = locks.lockOn place := fun place => by
    simp [LockTable.lockOn, pages]
  rw [same] at listed
  by_cases granted : (before.evaluate tx page mode waited expired).2 = .granted
  · rw [evaluate_of_granted granted, lockOn_grant] at listed
    split at listed
    · next here =>
      subst here
      rwa [PageLock.mem_holders_grant, lockOn] at listed
    · rw [lockOn] at listed
      exact Or.inr listed
  · rw [lockOn_evaluate_of_not_granted granted, lockOn] at listed
    exact Or.inr listed

/-- Who holds a page already may read it at once. -/
theorem Sound.not_mem_heldPages_of_request (sound : locks.Sound)
    (refused : (locks.request tx page .shared).2 ≠ .granted) :
    page ∉ (locks.request tx page .shared).1.heldPages tx := by
  obtain ⟨before, waited, expired, same, pages, held⟩ := locks.request_eq_evaluate tx page .shared
  have soundBefore : before.Sound := sound.congr before pages held
  rw [same] at refused ⊢
  rw [heldPages_evaluate_of_not_granted refused, ← soundBefore.held]
  intro holder
  refine refused (evaluate_granted_iff.mpr ((soundBefore.lock page).canGrant_iff.mpr ?_))
  have taken := mt (soundBefore.lock page).free_iff.mp (List.ne_nil_of_mem holder)
  match level : (before.lockOn page).level with
  | none => exact absurd level taken
  | some .shared => exact Or.inr ⟨rfl, rfl⟩
  | some .exclusive =>
      left
      rw [(soundBefore.lock page).holders_eq_of_exclusive level holder]
      simp

/-- Giving up pages leaves the page that another transaction has locked to write. -/
theorem Sound.lockOn_release_of_exclusive (sound : locks.Sound) {owner : TxId}
    (owned : locks.lockOn place = ⟨some .exclusive, [owner]⟩)
    (keeps : place = page → owner ≠ tx) :
    (locks.release tx page).lockOn place = ⟨some .exclusive, [owner]⟩ := by
  rw [lockOn_release]
  split
  · next here =>
    subst here
    have absent : tx ∉ (locks.lockOn place).holders := by
      simpa [owned] using (keeps rfl).symm
    rw [(sound.lock place).release_of_not_mem absent, owned]
  · exact owned

theorem Sound.lockOn_releaseAll_of_exclusive (sound : locks.Sound) {owner : TxId}
    (owned : locks.lockOn place = ⟨some .exclusive, [owner]⟩) (keeps : owner ≠ tx) :
    (locks.releaseAll tx).lockOn place = ⟨some .exclusive, [owner]⟩ := by
  have absent : tx ∉ (locks.lockOn place).holders := by
    simpa [owned] using keeps.symm
  rw [lockOn_releaseAll sound, (sound.lock place).release_of_not_mem absent, owned]

end LockTable

end RowStore
