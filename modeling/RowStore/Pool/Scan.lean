import RowStore.Pool

namespace RowStore

/-! Reading every row of a table, in page order and then slot order.

Each page is locked to read once in a pass, when the rows of the pages before it
have been handed out. The number of pages is looked up again on the way, so a
pass comes by pages that were appended since it began.
-/

/-- Where a scan stands: the page to read next, and rows already read. -/
structure ScanPosition where
  nextPage : Nat
  queue : List Row
  deriving DecidableEq

def ScanPosition.start : ScanPosition := ⟨0, []⟩

namespace Pool

def pagesFrom (pool : Pool) (table : TableId) (nextPage : Nat) : List Nat :=
  List.range' nextPage (pool.pageCount table - nextPage)

/-- Reads pages until one has a row. -/
def scanAhead (tx : TxId) (table : TableId) :
    List Nat → ScanPosition → Pool → Pool × ScanPosition × Outcome Unit Bool
  | [], position, pool => (pool, position, .done false)
  | number :: rest, position, pool =>
      match pool.fetch tx ⟨table, number⟩ .shared with
      | (pool, .parked stage) => (pool, position, .parked stage)
      | (pool, .failed error) => (pool, position, .failed error)
      | (pool, .done page) =>
          let position : ScanPosition := ⟨number + 1, page.rows⟩
          if position.queue.isEmpty then scanAhead tx table rest position pool
          else (pool, position, .done true)

def scanHasNext (pool : Pool) (tx : TxId) (table : TableId) (position : ScanPosition) :
    Pool × ScanPosition × Outcome Unit Bool :=
  if position.queue.isEmpty then
    scanAhead tx table (pool.pagesFrom table position.nextPage) position pool
  else (pool, position, .done true)

def scanNext (pool : Pool) (tx : TxId) (table : TableId) (position : ScanPosition) :
    Pool × ScanPosition × Outcome Unit Row :=
  match pool.scanHasNext tx table position with
  | (pool, position, .parked stage) => (pool, position, .parked stage)
  | (pool, position, .failed error) => (pool, position, .failed error)
  | (pool, position, .done _) =>
      match position.queue with
      | [] => (pool, position, .failed .noMoreRows)
      | row :: queue => (pool, { position with queue }, .done row)

def scanPages (tx : TxId) (table : TableId) :
    List Nat → ScanPosition → Pool → Pool × ScanPosition × List Row × Outcome Unit Unit
  | [], position, pool => (pool, position, [], .done ())
  | number :: rest, position, pool =>
      match pool.fetch tx ⟨table, number⟩ .shared with
      | (pool, .parked stage) => (pool, position, [], .parked stage)
      | (pool, .failed error) => (pool, position, [], .failed error)
      | (pool, .done page) =>
          let (pool, position, rows, outcome) := scanPages tx table rest ⟨number + 1, []⟩ pool
          (pool, position, page.rows ++ rows, outcome)

/-- All rows that are left, up to a page that cannot be had. -/
def scanAll (pool : Pool) (tx : TxId) (table : TableId) (position : ScanPosition) :
    Pool × ScanPosition × List Row × Outcome Unit Unit :=
  let (pool, ended, rows, outcome) :=
    scanPages tx table (pool.pagesFrom table position.nextPage) ⟨position.nextPage, []⟩ pool
  (pool, ended, position.queue ++ rows, outcome)

end Pool

end RowStore
