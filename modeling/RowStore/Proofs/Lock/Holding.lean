import RowStore.Proofs.Lock.Sound

namespace RowStore.LockTable

/-! What a transaction has of a page, and that only giving up the page takes it away. -/

variable {locks changed : LockTable} {tx other giver : TxId} {page place : PageId}
variable {mode wish : LockMode}

/-- The transaction holds the page, and has it locked to write if the mode says so. -/
def Has (locks : LockTable) (tx : TxId) (page : PageId) (mode : LockMode) : Prop :=
  tx ∈ (locks.lockOn page).holders ∧ (mode = .exclusive → (locks.lockOn page).level = some .exclusive)

instance (locks : LockTable) (tx : TxId) (page : PageId) (mode : LockMode) :
    Decidable (locks.Has tx page mode) :=
  inferInstanceAs (Decidable (_ ∧ _))

theorem Has.shared (has : locks.Has tx page mode) : locks.Has tx page .shared :=
  ⟨has.1, by simp⟩

theorem Has.of_lockOn (has : locks.Has tx page mode)
    (same : changed.lockOn page = locks.lockOn page) : changed.Has tx page mode := by
  rwa [Has, same]

theorem Sound.has_shared_iff (sound : locks.Sound) :
    locks.Has tx page .shared ↔ page ∈ locks.heldPages tx := by
  rw [← sound.held]
  exact and_iff_left (by simp)

/-- Whoever else has something of a page that is locked to write is the one who has it so. -/
theorem Sound.eq_of_has (sound : locks.Sound) (written : locks.Has other page .exclusive)
    (has : locks.Has tx page mode) : tx = other := by
  have holders := (sound.lock page).holders_eq_of_exclusive (written.2 rfl) written.1
  have held := has.1
  rw [holders] at held
  exact List.mem_singleton.mp held

/-! ## Requests -/

theorem lockOn_request (locks : LockTable) (tx : TxId) (page : PageId) (mode : LockMode) (place : PageId) :
    (locks.request tx page mode).1.lockOn place =
      if (locks.request tx page mode).2 = .granted ∧ place = page then
        (locks.lockOn page).grant tx mode
      else locks.lockOn place := by
  obtain ⟨before, waited, expired, same, pages, _⟩ := locks.request_eq_evaluate tx page mode
  have lockOn : ∀ place, before.lockOn place = locks.lockOn place := fun place => by
    simp [LockTable.lockOn, pages]
  rw [same]
  by_cases granted : (before.evaluate tx page mode waited expired).2 = .granted
  · simp only [evaluate_of_granted granted, lockOn_grant, granted, true_and, lockOn]
  · rw [lockOn_evaluate_of_not_granted granted, if_neg fun both => granted both.1, lockOn]

/-- A request takes nothing from anybody. -/
theorem Has.request (has : locks.Has tx page mode) (asker : TxId) (asked : PageId) (wish : LockMode) :
    (locks.request asker asked wish).1.Has tx page mode := by
  rw [Has, lockOn_request]
  split
  · next here =>
    obtain ⟨holder, level⟩ := has
    rw [here.2] at holder level
    refine ⟨PageLock.mem_holders_grant.mpr (Or.inr holder), fun writing => ?_⟩
    simp [PageLock.grant, level writing]
  · exact has

theorem has_of_granted (granted : (locks.request tx page mode).2 = .granted) :
    (locks.request tx page mode).1.Has tx page mode := by
  rw [Has, lockOn_request, if_pos ⟨granted, rfl⟩]
  refine ⟨PageLock.mem_holders_grant.mpr (Or.inl rfl), ?_⟩
  rintro rfl
  exact PageLock.level_grant_exclusive

/-- Nobody is granted a page that somebody else had locked to write. -/
theorem Sound.eq_of_granted (sound : locks.Sound) (granted : (locks.request tx page mode).2 = .granted)
    (written : locks.Has other page .exclusive) : tx = other :=
  (sound.request tx page mode).eq_of_has (written.request tx page mode) (has_of_granted granted)

/-! ## Giving up pages -/

theorem Has.release (has : locks.Has tx page mode) (keeps : page = place → tx ≠ giver) :
    (locks.release giver place).Has tx page mode := by
  rw [Has, lockOn_release]
  split
  · next here =>
    obtain ⟨holder, level⟩ := has
    rw [here] at holder level
    have left : tx ∈ ((locks.lockOn place).release giver).holders :=
      PageLock.mem_holders_release.mpr ⟨holder, keeps here⟩
    exact ⟨left, fun writing => (PageLock.level_release_of_mem left).trans (level writing)⟩
  · exact has

theorem Has.releaseAll (has : locks.Has tx page mode) (sound : locks.Sound) (differs : tx ≠ giver) :
    (locks.releaseAll giver).Has tx page mode := by
  have left : tx ∈ ((locks.lockOn page).release giver).holders :=
    PageLock.mem_holders_release.mpr ⟨has.1, differs⟩
  rw [Has, lockOn_releaseAll sound]
  exact ⟨left, fun writing => (PageLock.level_release_of_mem left).trans (has.2 writing)⟩

theorem Has.interrupt (has : locks.Has tx page mode) (other : TxId) :
    (locks.interrupt other).Has tx page mode :=
  has.of_lockOn (by simp [lockOn])

theorem Has.expire (has : locks.Has tx page mode) (overdue : Waiter → Bool) :
    (locks.expire overdue).Has tx page mode :=
  has.of_lockOn rfl

end RowStore.LockTable
