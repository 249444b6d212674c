import RowStore.Proofs.Session.Reached
import RowStore.Proofs.Session.Serial

namespace RowStore.Session

/-! A transaction that ends leaves nothing behind, also when the disk refuses to write. This is so in
every state that a directory can be brought to.
-/

variable {session : Session}

/-- How a completion comes out. -/
structure Completed (tx : TxId) (commit : Bool) (pool after : Pool)
    (answer : Option (Except StoreError Answer)) : Prop where
  ended : Pool.Ended tx pool after
  /-- Only a commit fails, and it fails if the disk refuses before all changed pages are written. -/
  result : answer = some (if commit = true ∧ pool.disk.failWrites = true ∧
    pool.disk.writesLeft < (pool.dirtyPages (some tx)).length then .error .storage else .ok .nothing)
  committed : commit = true → answer = some (.ok .nothing) → ∀ id page,
    pool.cache.get? id = some page → page.dirty = some tx →
      after.cache.get? id = some (page.markDirty none).keepImage ∧ after.pageBytes id = page.image

/-- Whichever page cannot be written, a completed transaction has no lock, no wait and no changed page
left, each of its pages is written or put back, and nobody else notices. -/
theorem completed_of_reached (reached : Reached session) (tx : TxId) (commit : Bool) :
    Completed tx commit session.pool (session.act (.complete tx commit)).1.pool
      (session.act (.complete tx commit)).2 := by
  have inFiles := reached.inFiles.pool
  cases commit with
  | true =>
      obtain ⟨ended, result, committed⟩ := inFiles.commit tx
      refine ⟨ended, ?_, fun _ answered => committed ?_⟩
      · simp only [Session.act, settlePool, result, true_and]
        split <;> rfl
      · simp only [Session.act, settlePool, result] at answered ⊢
        split at answered
        · cases answered
        · next whole => rw [if_neg whole]
  | false =>
      obtain ⟨ended, result⟩ := inFiles.abort tx
      refine ⟨ended, ?_, fun same => by cases same⟩
      simp only [Session.act, settlePool, result, Bool.false_eq_true, false_and, if_false]
      rfl

theorem reached_integerSession : Reached integerSession :=
  .developed (@Reached.opened .empty ⟨['/']⟩ .default _ Disk.sound_empty rfl)
    (@Develops.registered Enabled _ integerOpening _ _ rfl)

/-- A transaction that filled one page and began another can write the first that it comes to, and not
the second. -/
theorem completed_of_fullDisk :
    ∃ session, Reached session ∧ (session.pool.dirtyPages (some ⟨1⟩)).length = 2 ∧
      (session.act (.complete ⟨1⟩ true)).2 = some (.error .storage) ∧
      Completed ⟨1⟩ true session.pool (session.act (.complete ⟨1⟩ true)).1.pool
        (session.act (.complete ⟨1⟩ true)).2 := by
  have inserts : ∀ {session : Session}, Reached session → ∀ number, session.isParked ⟨1⟩ = false →
      Reached (session.act (.call ⟨1⟩ (integerInsert number))).1 := by
    intro session reached number free
    refine reached.developed (.acted ⟨free, fun value listed => ?_, rfl⟩)
    cases List.mem_singleton.mp listed
    rfl
  have one := inserts reached_integerSession 1 (by decide +kernel)
  have two := inserts one 2 (by decide +kernel)
  have three := inserts two 3 (by decide +kernel)
  have four := inserts three 4 (by decide +kernel)
  have full := four.developed (@Develops.acted Enabled _ (.limitWrites true 1) trivial)
  exact ⟨_, full, by decide +kernel, by decide +kernel, completed_of_reached full ⟨1⟩ true⟩

end RowStore.Session
