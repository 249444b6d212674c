import RowStore.Lock.Table
import RowStore.TableFile

namespace RowStore

/-! The pages in memory, and the locks that guard them.

A page is handed to a transaction only after its lock was granted. Pages stay in
memory until they are dropped; a changed page is written when the transaction
that changed it commits, or when it is flushed.
-/

/-- How an operation that takes locks stands when it stops. A parked one is to be run again from
its stage once its request was woken. -/
inductive Outcome (σ α : Type) where
  | done (value : α)
  | failed (error : StoreError)
  | parked (stage : σ)
  deriving DecidableEq

structure Pool where
  config : Config
  disk : Disk
  tables : FinMap TableId TableFile
  cache : FinMap PageId Page
  locks : LockTable

namespace Pool

def empty (config : Config) (disk : Disk) : Pool :=
  ⟨config, disk, .empty, .empty, .empty config⟩

def table? (pool : Pool) (table : TableId) : Except StoreError TableFile :=
  match pool.tables.get? table with
  | some file => .ok file
  | none => .error (.noSuchTable table)

/-- Registers a table file; a file that is registered already stays as it is. -/
def addTable (pool : Pool) (file : TableFile) : Pool :=
  { pool with tables := pool.tables.insertIfNew file.id file }

def pageCount (pool : Pool) (table : TableId) : Nat :=
  ((pool.tables.get? table).map TableFile.pageCount).getD 0

/-- Makes the file of a table longer by the page just past its end. -/
def appendPage (pool : Pool) (page : PageId) : Except StoreError Pool :=
  match pool.table? page.table with
  | .error error => .error error
  | .ok file =>
      match file.appendPage pool.disk page.number with
      | .error error => .error error
      | .ok (disk, file) => .ok { pool with disk, tables := pool.tables.insert page.table file }

def putPage (pool : Pool) (page : Page) : Pool :=
  { pool with cache := pool.cache.insert page.id page }

/-- The page from memory, or else from its file. -/
def load (pool : Pool) (page : PageId) : Pool × Outcome Unit Page :=
  match pool.cache.get? page with
  | some cached => (pool, .done cached)
  | none =>
      match pool.table? page.table with
      | .error error => (pool, .failed error)
      | .ok file =>
          match file.readPage pool.disk page with
          | .error error => (pool, .failed error)
          | .ok read => (pool.putPage read, .done read)

/-- Locks a page and hands it out. The lock stays when the page cannot be had. -/
def fetch (pool : Pool) (tx : TxId) (page : PageId) (mode : LockMode) : Pool × Outcome Unit Page :=
  let (locks, verdict) := pool.locks.request tx page mode
  let pool := { pool with locks }
  match verdict with
  | .granted => pool.load page
  | .parked => (pool, .parked ())
  | .refused reason => (pool, .failed (.aborted tx reason))

def release (pool : Pool) (tx : TxId) (page : PageId) : Pool :=
  { pool with locks := pool.locks.release tx page }

def interrupt (pool : Pool) (tx : TxId) : Pool :=
  { pool with locks := pool.locks.interrupt tx }

def markDirty (pool : Pool) (tx : TxId) (page : PageId) : Pool :=
  match pool.cache.get? page with
  | some cached => pool.putPage (cached.markDirty (some tx))
  | none => pool

def discard (pool : Pool) (page : PageId) : Pool :=
  { pool with cache := pool.cache.erase page }

def dirtyPages (pool : Pool) (owner : Option TxId) : List Page :=
  pool.cache.values.filter fun page =>
    match page.dirty, owner with
    | none, _ => false
    | some _, none => true
    | some dirtier, some tx => dirtier = tx

def flushPage (pool : Pool) (page : Page) : Except StoreError Pool :=
  match pool.table? page.id.table with
  | .error error => .error error
  | .ok file =>
      match file.writePage pool.disk page with
      | .error error => .error error
      | .ok disk => .ok ({ pool with disk }.putPage (page.markDirty none).keepImage)

def flushEach (pool : Pool) : List Page → Pool × Except StoreError Unit
  | [] => (pool, .ok ())
  | page :: others =>
      match pool.flushPage page with
      | .error error => (pool, .error error)
      | .ok pool => pool.flushEach others

def flush (pool : Pool) (tx : TxId) : Pool × Except StoreError Unit :=
  pool.flushEach (pool.dirtyPages (some tx))

def flushAll (pool : Pool) : Pool × Except StoreError Unit :=
  pool.flushEach (pool.dirtyPages none)

def restoreEach (pool : Pool) : List Page → Pool × Except StoreError Unit
  | [] => (pool, .ok ())
  | page :: others =>
      match page.restored with
      | .error error => (pool, .error error)
      | .ok restored => (pool.putPage restored).restoreEach others

/-- Puts the pages that a transaction changed back to what was last read or written. -/
def restore (pool : Pool) (tx : TxId) : Pool × Except StoreError Unit :=
  pool.restoreEach (pool.dirtyPages (some tx))

def releaseAll (pool : Pool) (tx : TxId) : Pool :=
  { pool with locks := pool.locks.releaseAll tx }

/-- Commits a transaction. Pages that were not written when a write failed are put back; those
written before stay. -/
def commit (pool : Pool) (tx : TxId) : Pool × Except StoreError Unit :=
  match pool.flush tx with
  | (pool, .ok ()) => (pool.releaseAll tx, .ok ())
  | (pool, .error error) => ((pool.restore tx).1.releaseAll tx, .error error)

/-- Undoes what a transaction changed since its pages were last written. -/
def abort (pool : Pool) (tx : TxId) : Pool × Except StoreError Unit :=
  let (pool, result) := pool.restore tx
  (pool.releaseAll tx, result)

end Pool

end RowStore
