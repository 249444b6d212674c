import RowStore.Pool

namespace RowStore

/-! Putting a row into the first page with a free slot.

The pages that a table has when the insert begins are looked at in order, each
under a shared lock. A full page is given up again at once, unless the
transaction held it before. A page with room is locked to write, and looked at
once more, since the wait for that lock may have filled it. When no page has
room, the page just past the end is locked to write and the file grows by it.
-/

/-- Where an insert stands while it waits for a lock. -/
inductive InsertStage where
  | start
  /-- Waits to read a page; `rest` are the pages to look at after it. -/
  | inspecting (page : Nat) (heldBefore : Bool) (rest : List Nat)
  /-- Waits to write a page that had room. -/
  | claiming (page : Nat) (rest : List Nat)
  /-- Waits to write the page just past the end. -/
  | appending (page : Nat)
  deriving DecidableEq

namespace Pool

abbrev InsertOutcome := Pool × Outcome InsertStage Nat

def storeIn (pool : Pool) (page : Page) (row : Row) : InsertOutcome :=
  match page.insert row with
  | .ok (changed, _) => (pool.putPage changed, .done changed.id.number)
  | .error error => (pool, .failed error)

/-- Puts the row into a page, which the file grows by if it is the one just past the end. -/
def grow (pool : Pool) (page : Page) (row : Row) : InsertOutcome :=
  match pool.appendPage page.id with
  | .error error => (pool, .failed error)
  | .ok pool => pool.storeIn page row

/-- Locks the page just past the end to write, and puts the row there. -/
def extend (pool : Pool) (tx : TxId) (table : TableId) (row : Row) : InsertOutcome :=
  let number := pool.pageCount table
  match pool.fetch tx ⟨table, number⟩ .exclusive with
  | (pool, .parked _) => (pool, .parked (.appending number))
  | (pool, .failed error) => (pool, .failed error)
  | (pool, .done page) => pool.grow page row

/-- Goes on after a wait for the page that was just past the end when the wait began. Others may
have grown the file by it since, and may have filled it; then the page that is now just past the
end is next. -/
def extendAt (pool : Pool) (tx : TxId) (table : TableId) (row : Row) (number : Nat) :
    InsertOutcome :=
  match pool.fetch tx ⟨table, number⟩ .exclusive with
  | (pool, .parked _) => (pool, .parked (.appending number))
  | (pool, .failed error) => (pool, .failed error)
  | (pool, .done page) =>
      if page.isFull ∧ number < pool.pageCount table then pool.extend tx table row
      else pool.grow page row

/-- Locks a page that had room to write, and puts the row there if there still is room; `next`
goes on with the pages after it. -/
def claim (pool : Pool) (tx : TxId) (table : TableId) (row : Row) (number : Nat) (rest : List Nat)
    (next : Pool → InsertOutcome) : InsertOutcome :=
  match pool.fetch tx ⟨table, number⟩ .exclusive with
  | (pool, .parked _) => (pool, .parked (.claiming number rest))
  | (pool, .failed error) => (pool, .failed error)
  | (pool, .done page) => if page.isFull then next pool else pool.storeIn page row

def inspect (pool : Pool) (tx : TxId) (table : TableId) (row : Row) (number : Nat)
    (heldBefore : Bool) (rest : List Nat) (next : Pool → InsertOutcome) : InsertOutcome :=
  match pool.fetch tx ⟨table, number⟩ .shared with
  | (pool, .parked _) => (pool, .parked (.inspecting number heldBefore rest))
  | (pool, .failed error) => (pool, .failed error)
  | (pool, .done page) =>
      if page.isFull then next (if heldBefore then pool else pool.release tx ⟨table, number⟩)
      else pool.claim tx table row number rest next

def inspectEach (tx : TxId) (table : TableId) (row : Row) : List Nat → Pool → InsertOutcome
  | [], pool => pool.extend tx table row
  | number :: rest, pool =>
      pool.inspect tx table row number (pool.locks.holds tx ⟨table, number⟩) rest
        (inspectEach tx table row rest)

/-- Finds a place for a row and puts it there. The page is not marked as changed. -/
def place (pool : Pool) (tx : TxId) (table : TableId) (row : Row) : InsertStage → InsertOutcome
  | .start =>
      match pool.table? table with
      | .error error => (pool, .failed error)
      | .ok file =>
          if row.types = file.schema.types then
            inspectEach tx table row (List.range file.pageCount) pool
          else (pool, .failed (.schemaMismatch table))
  | .inspecting number heldBefore rest =>
      pool.inspect tx table row number heldBefore rest (inspectEach tx table row rest)
  | .claiming number rest => pool.claim tx table row number rest (inspectEach tx table row rest)
  | .appending number => pool.extendAt tx table row number

def insert (pool : Pool) (tx : TxId) (table : TableId) (row : Row) (stage : InsertStage) :
    InsertOutcome :=
  match pool.place tx table row stage with
  | (pool, .done number) => (pool.markDirty tx ⟨table, number⟩, .done number)
  | stopped => stopped

end Pool

end RowStore
