import RowStore.Proofs.Lock.Holding

namespace RowStore.LockTable

/-! Which pages a transaction has, and how a request or a release changes that.

A request that is granted adds its page and no other; every other request leaves all
transactions with what they have. A release takes away its page, from the one who
gives it up.
-/

variable {locks : LockTable} {tx other giver : TxId} {page place : PageId} {mode wish : LockMode}

theorem canGrant_of_granted (granted : (locks.request tx page mode).2 = .granted) :
    (locks.lockOn page).canGrant tx mode = true := by
  obtain ⟨before, waited, expired, same, pages, _⟩ := locks.request_eq_evaluate tx page mode
  have lockOn : before.lockOn page = locks.lockOn page := by simp [LockTable.lockOn, pages]
  rw [same] at granted
  rw [← lockOn]
  exact evaluate_granted_iff.mp granted

/-- Who is granted a page has that page from then on, and what it had before. -/
theorem Sound.has_request_iff (sound : locks.Sound)
    (granted : (locks.request tx page mode).2 = .granted) :
    (locks.request tx page mode).1.Has tx place wish ↔
      locks.Has tx place wish ∨ place = page ∧ (wish = .exclusive → mode = .exclusive) := by
  constructor
  · intro has
    by_cases here : place = page
    · subst here
      rw [Has, lockOn_request, if_pos ⟨granted, rfl⟩] at has
      by_cases writing : wish = .exclusive
      · have level := has.2 writing
        rw [(sound.lock place).level_grant_iff (canGrant_of_granted granted)] at level
        exact level.symm.imp (fun held => ⟨held.1, fun _ => held.2⟩) fun same => ⟨rfl, fun _ => same⟩
      · exact .inr ⟨rfl, fun same => absurd same writing⟩
    · rw [Has, lockOn_request, if_neg fun both => here both.2] at has
      exact .inl has
  · rintro (has | ⟨rfl, allows⟩)
    · exact has.request tx page mode
    · have has := has_of_granted granted
      exact ⟨has.1, fun writing => has.2 (allows writing)⟩

theorem has_request_of_not_granted (refused : (locks.request tx page mode).2 ≠ .granted) :
    (locks.request tx page mode).1.Has other place wish ↔ locks.Has other place wish := by
  rw [Has, lockOn_request, if_neg fun both => refused both.1, Has]

/-- Nobody gets anything by what somebody else asks for. -/
theorem Sound.has_request_of_ne (sound : locks.Sound) (differs : other ≠ tx) :
    (locks.request tx page mode).1.Has other place wish ↔ locks.Has other place wish := by
  refine ⟨fun has => ?_, fun has => has.request tx page mode⟩
  have held : locks.Has other place .shared := by
    have same := @heldPages_request_of_ne locks tx other page mode differs
    rw [sound.has_shared_iff, ← same, ← (sound.request tx page mode).has_shared_iff]
    exact has.shared
  refine ⟨held.1, fun writing => ?_⟩
  have level := has.2 writing
  rw [lockOn_request] at level
  split at level
  · next both =>
    obtain ⟨granted, rfl⟩ := both
    rwa [(sound.lock place).level_grant_of_ne (canGrant_of_granted granted) held.1 differs] at level
  · exact level

theorem has_release_iff :
    (locks.release giver page).Has tx place wish ↔
      locks.Has tx place wish ∧ ¬ (place = page ∧ tx = giver) := by
  refine ⟨fun has => ?_, fun ⟨has, keeps⟩ => has.release fun here same => keeps ⟨here, same⟩⟩
  rw [Has, lockOn_release] at has
  split at has
  · next here =>
    subst here
    obtain ⟨holder, level⟩ := has
    have before := PageLock.mem_holders_release.mp holder
    exact ⟨⟨before.1, fun writing => (PageLock.level_release_of_mem holder).symm.trans (level writing)⟩,
      fun both => before.2 both.2⟩
  · next differs => exact ⟨has, fun both => differs both.1⟩

end RowStore.LockTable
