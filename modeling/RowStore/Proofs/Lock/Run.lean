import RowStore.Proofs.Lock.Sound

namespace RowStore

/-! Histories of a lock table.

Any number of requests can be parked at a time, also of one transaction. A parked
request is looked at again at some time after its page was notified, and the
woken requests come in any order, also between other actions. Which actions are
allowed beyond that is a parameter of a run.
-/

/-- What happens to a lock table from outside. -/
inductive LockAction where
  | acquire (tx : TxId) (page : PageId) (mode : LockMode)
  | retry (waiter : Waiter)
  | release (tx : TxId) (page : PageId)
  | releaseAll (tx : TxId)
  | interrupt (tx : TxId)
  | expire (overdue : Waiter → Bool)

namespace LockAction

def request? : LockAction → Option (TxId × PageId × LockMode)
  | .acquire tx page mode => some (tx, page, mode)
  | .retry waiter => some (waiter.tx, waiter.page, waiter.mode)
  | _ => none

def givesUp (tx : TxId) (page : PageId) : LockAction → Bool
  | .release holder given => holder = tx ∧ given = page
  | .releaseAll holder => holder = tx
  | _ => false

end LockAction

/-- An action, with the verdict on the request that it looked at. -/
structure LockEvent where
  action : LockAction
  verdict : Option Verdict

def LockEvent.grant? (tx : TxId) (page : PageId) (event : LockEvent) : Option LockMode :=
  match event.action.request?, event.verdict with
  | some (asker, wanted, mode), some .granted => if asker = tx ∧ wanted = page then some mode else none
  | _, _ => none

/-- The modes in which a transaction was granted a page since it last gave it up. The newest event
of a history comes first. -/
def grantsSince (tx : TxId) (page : PageId) : List LockEvent → List LockMode
  | [] => []
  | event :: earlier =>
      if event.action.givesUp tx page then []
      else (event.grant? tx page).toList ++ grantsSince tx page earlier

namespace LockTable

def act (locks : LockTable) : LockAction → LockTable × Option Verdict
  | .acquire tx page mode =>
      let (locks, verdict) := locks.acquire tx page mode
      (locks, some verdict)
  | .retry waiter =>
      let (locks, verdict) := locks.retry waiter
      (locks, some verdict)
  | .release tx page => (locks.release tx page, none)
  | .releaseAll tx => (locks.releaseAll tx, none)
  | .interrupt tx => (locks.interrupt tx, none)
  | .expire overdue => (locks.expire overdue, none)

/-- A parked request is looked at again only after it was woken or its time was over. -/
def Enabled (locks : LockTable) : LockAction → Prop
  | .retry waiter => waiter ∈ locks.parked ∧ waiter.state ≠ .asleep
  | _ => True

instance (locks : LockTable) : (action : LockAction) → Decidable (locks.Enabled action)
  | .retry waiter => inferInstanceAs (Decidable (waiter ∈ locks.parked ∧ waiter.state ≠ .asleep))
  | .acquire _ _ _ | .release _ _ | .releaseAll _ | .interrupt _ | .expire _ => .isTrue trivial

/-- The histories of a table under allowed actions, with the table that each leads to. -/
inductive Run (allowed : LockTable → LockAction → Prop) (start : LockTable) :
    List LockEvent → LockTable → Prop where
  | start : Run allowed start [] start
  | step {history : List LockEvent} {locks : LockTable} (before : Run allowed start history locks)
      (action : LockAction) (permitted : allowed locks action) :
      Run allowed start (⟨action, (locks.act action).2⟩ :: history) (locks.act action).1

variable {allowed : LockTable → LockAction → Prop} {start locks : LockTable}
variable {history : List LockEvent}

theorem Run.invariant {kept : LockTable → Prop} (run : Run allowed start history locks)
    (first : kept start)
    (next : ∀ locks action, kept locks → allowed locks action → kept (locks.act action).1) :
    kept locks := by
  induction run with
  | start => exact first
  | step _ action permitted ih => exact next _ action ih permitted

theorem Run.mono {wider : LockTable → LockAction → Prop} (run : Run allowed start history locks)
    (widens : ∀ locks action, allowed locks action → wider locks action) :
    Run wider start history locks := by
  induction run with
  | start => exact .start
  | step _ action permitted ih => exact ih.step action (widens _ action permitted)

theorem Run.last {event : LockEvent} {changed : LockTable}
    (run : Run allowed start (event :: history) changed) :
    ∃ locks, Run allowed start history locks ∧ allowed locks event.action ∧
      event.verdict = (locks.act event.action).2 ∧ changed = (locks.act event.action).1 := by
  generalize whole : event :: history = events at run
  cases run with
  | start => contradiction
  | @step earlier locks before action permitted =>
      obtain ⟨rfl, rfl⟩ := List.cons_eq_cons.mp whole
      exact ⟨locks, before, permitted, rfl, rfl⟩

/-- A history leads to one table only. -/
theorem Run.unique {changed : LockTable} (run : Run allowed start history locks)
    (same : Run allowed start history changed) : locks = changed := by
  induction run generalizing changed with
  | start =>
      generalize none : ([] : List LockEvent) = events at same
      cases same with
      | start => rfl
      | step => contradiction
  | step _ action _ ih =>
      obtain ⟨_, before, _, _, rfl⟩ := same.last
      rw [ih before]

theorem Run.earlier {later earlier : List LockEvent}
    (run : Run allowed start (later ++ earlier) locks) :
    ∃ before, Run allowed start earlier before := by
  induction later generalizing locks with
  | nil => exact ⟨locks, run⟩
  | cons event later ih =>
      obtain ⟨_, before, _⟩ := run.last
      exact ih before

end LockTable

end RowStore
