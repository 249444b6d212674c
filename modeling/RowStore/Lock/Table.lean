import RowStore.Config
import RowStore.Lock.Mode
import RowStore.Lock.WaitGraph

namespace RowStore

/-! All page locks, and the requests that wait for one.

A request is granted, refused, or parked. A parked request stands still until
its page is notified (by a release, or by an interrupt of a transaction that
waits there) or its time is over; then it has to be put again, in whatever order
the woken requests are taken.
-/

inductive WaiterState where
  | asleep
  | woken
  | expired
  deriving DecidableEq, Repr

structure Waiter where
  tx : TxId
  page : PageId
  mode : LockMode
  state : WaiterState
  deriving DecidableEq

inductive Verdict where
  | granted
  | parked
  | refused (reason : AbortReason)
  deriving DecidableEq, Repr

structure LockTable where
  pages : FinMap PageId PageLock
  held : FinMap TxId (List PageId)
  waits : WaitGraph
  parked : List Waiter
  timeout : Option Nat
  detectDeadlocks : Bool

namespace LockTable

def empty (config : Config) : LockTable :=
  ⟨.empty, .empty, .empty, [], config.lockTimeout, config.detectDeadlocks⟩

instance : Inhabited LockTable := ⟨empty .default⟩

def lockOn (locks : LockTable) (page : PageId) : PageLock := (locks.pages.get? page).getD .free

def heldPages (locks : LockTable) (tx : TxId) : List PageId := (locks.held.get? tx).getD []

def holds (locks : LockTable) (tx : TxId) (page : PageId) : Bool :=
  decide (page ∈ locks.heldPages tx)

def isWaiting (locks : LockTable) (tx : TxId) : Bool := locks.waits.isWaiting tx

def waiter? (locks : LockTable) (tx : TxId) : Option Waiter :=
  locks.parked.find? fun waiter => waiter.tx = tx

def unpark (locks : LockTable) (tx : TxId) : LockTable :=
  { locks with parked := locks.parked.filter fun waiter => waiter.tx ≠ tx }

/-- Transactions whose parked request may be put again. -/
def awake (locks : LockTable) : List TxId :=
  (locks.parked.filter fun waiter => waiter.state ≠ .asleep).map Waiter.tx

def notify (locks : LockTable) (page : PageId) : LockTable :=
  { locks with
    parked := locks.parked.map fun waiter =>
      if waiter.page = page ∧ waiter.state = .asleep then { waiter with state := .woken } else waiter }

/-- Hands out a page. A request that had to wait is no longer on record as waiting. -/
def grant (locks : LockTable) (tx : TxId) (page : PageId) (mode : LockMode) (waited : Bool) :
    LockTable :=
  let others := locks.heldPages tx
  { locks with
    pages := locks.pages.insert page ((locks.lockOn page).grant tx mode)
    held := locks.held.insert tx (if page ∈ others then others else page :: others)
    waits := if waited then locks.waits.clearWaiting tx else locks.waits }

/-- A request that cannot be granted: it is refused when its time is over, when its transaction
was interrupted, and when waiting would close a cycle; otherwise it waits. -/
def wait (locks : LockTable) (tx : TxId) (page : PageId) (mode : LockMode) (expired : Bool) :
    LockTable × Verdict :=
  if expired then
    ({ locks with waits := locks.waits.clearWaiting tx }, .refused .timeout)
  else if locks.waits.isInterrupted tx then
    ({ locks with waits := (locks.waits.takeInterrupt tx).clearWaiting tx }, .refused .interrupted)
  else
    let waits := locks.waits.setWaiting tx page ((locks.lockOn page).blockers tx)
    if locks.detectDeadlocks && waits.hasCycleThrough tx then
      ({ locks with waits := waits.clearWaiting tx }, .refused .deadlock)
    else
      ({ locks with waits, parked := locks.parked ++ [⟨tx, page, mode, .asleep⟩] }, .parked)

/-- Looks at a request that is not among the parked ones. -/
def evaluate (locks : LockTable) (tx : TxId) (page : PageId) (mode : LockMode)
    (waited expired : Bool) : LockTable × Verdict :=
  if (locks.lockOn page).canGrant tx mode then (locks.grant tx page mode waited, .granted)
  else locks.wait tx page mode expired

def acquire (locks : LockTable) (tx : TxId) (page : PageId) (mode : LockMode) :
    LockTable × Verdict :=
  locks.evaluate tx page mode false false

def retry (locks : LockTable) (waiter : Waiter) : LockTable × Verdict :=
  evaluate { locks with parked := locks.parked.erase waiter } waiter.tx waiter.page waiter.mode true
    (waiter.state = .expired)

/-- Puts a request of a transaction that makes one request at a time: the one that is parked, or
else a new one. -/
def request (locks : LockTable) (tx : TxId) (page : PageId) (mode : LockMode) :
    LockTable × Verdict :=
  match locks.waiter? tx with
  | none => locks.acquire tx page mode
  | some waiter => (locks.unpark tx).evaluate tx page mode true (waiter.state = .expired)

/-- Takes a holder off a page and wakes those who wait for the page. -/
def releasePage (locks : LockTable) (tx : TxId) (page : PageId) : LockTable :=
  if locks.pages.contains page then
    { locks with pages := locks.pages.insert page ((locks.lockOn page).release tx) }.notify page
  else locks

/-- Gives up one page before the transaction ends. Giving up a page that is not held only wakes
those who wait for it. -/
def release (locks : LockTable) (tx : TxId) (page : PageId) : LockTable :=
  let left := (locks.heldPages tx).filter fun other => other ≠ page
  { locks with
    held := if left.isEmpty then locks.held.erase tx else locks.held.insert tx left }.releasePage
    tx page

/-- Gives up every page of a finished transaction, and then forgets it. -/
def releaseAll (locks : LockTable) (tx : TxId) : LockTable :=
  let pages := locks.heldPages tx
  let freed := pages.foldl (fun locks page => locks.releasePage tx page)
    { locks with held := locks.held.erase tx }
  { freed with waits := freed.waits.forget tx }

/-- Ends the wait that a transaction is in; if it waits for nothing but holds locks, its next
wait. -/
def interrupt (locks : LockTable) (tx : TxId) : LockTable :=
  let marked := { locks with waits := locks.waits.interrupt tx (locks.held.contains tx) }
  match locks.waits.waitingOn.get? tx with
  | some page => marked.notify page
  | none => marked

def resume (locks : LockTable) (tx : TxId) : LockTable × Option Verdict :=
  match locks.waiter? tx with
  | none => (locks, none)
  | some waiter =>
      let (locks, verdict) := locks.request waiter.tx waiter.page waiter.mode
      (locks, some verdict)

def resumeEach (locks : LockTable) : List TxId → LockTable × List (TxId × Verdict)
  | [] => (locks, [])
  | tx :: others =>
      let (locks, verdict) := locks.resume tx
      let (locks, verdicts) := locks.resumeEach others
      (locks, (verdict.map fun verdict => (tx, verdict)).toList ++ verdicts)

def settle (locks : LockTable) : LockTable × List (TxId × Verdict) := locks.resumeEach locks.awake

def expire (locks : LockTable) (overdue : Waiter → Bool) : LockTable :=
  { locks with
    parked := locks.parked.map fun waiter =>
      if overdue waiter then { waiter with state := .expired } else waiter }

/-- Lets time go by: the time of every request is over whose limit is not longer than that. -/
def elapse (locks : LockTable) (milliseconds : Nat) : LockTable :=
  if locks.timeout.any fun limit => limit ≤ milliseconds then locks.expire fun _ => true else locks

end LockTable

end RowStore
