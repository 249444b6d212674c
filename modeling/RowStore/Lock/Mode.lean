import RowStore.Address

namespace RowStore

/-! The lock on one page: who holds it, and whether to read or to write. -/

inductive LockMode where
  | shared
  | exclusive
  deriving DecidableEq, Repr

namespace LockMode

def name : LockMode → String
  | .shared => "Shared"
  | .exclusive => "Exclusive"

def all : List LockMode := [.shared, .exclusive]

end LockMode

structure PageLock where
  level : Option LockMode
  holders : List TxId
  deriving DecidableEq

namespace PageLock

def free : PageLock := ⟨none, []⟩

instance : Inhabited PageLock := ⟨free⟩

def heldBy (lock : PageLock) (tx : TxId) : Bool := decide (tx ∈ lock.holders)

def heldOnlyBy (lock : PageLock) (tx : TxId) : Bool :=
  lock.heldBy tx && lock.holders.all fun holder => holder = tx

/-- A free page goes to anyone and a shared one to further readers. Every other request needs
the page to be held by nobody else. -/
def canGrant (lock : PageLock) (tx : TxId) (mode : LockMode) : Bool :=
  match lock.level, mode with
  | none, _ => true
  | some .shared, .shared => true
  | some .shared, .exclusive => lock.heldOnlyBy tx
  | some .exclusive, _ => lock.heldOnlyBy tx

/-- A grant to write is never weakened by a later grant to read. -/
def grant (lock : PageLock) (tx : TxId) (mode : LockMode) : PageLock where
  level := if lock.level = some .exclusive then some .exclusive else some mode
  holders := if tx ∈ lock.holders then lock.holders else tx :: lock.holders

def release (lock : PageLock) (tx : TxId) : PageLock :=
  let holders := lock.holders.filter fun holder => holder ≠ tx
  ⟨if holders.isEmpty then none else lock.level, holders⟩

/-- The holders that a waiting transaction waits for. -/
def blockers (lock : PageLock) (tx : TxId) : List TxId :=
  lock.holders.filter fun holder => holder ≠ tx

end PageLock

end RowStore
