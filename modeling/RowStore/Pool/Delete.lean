import RowStore.Pool

namespace RowStore.Pool

/-! Taking a stored row away. -/

def remove (pool : Pool) (tx : TxId) (file : TableFile) (location : Option RecordId) :
    Pool × Outcome Unit Nat :=
  match location with
  | none => (pool, .failed .notStored)
  | some record =>
      if record.page.table = file.id then
        if record.page.number < file.pageCount then
          match pool.fetch tx record.page .exclusive with
          | (pool, .parked stage) => (pool, .parked stage)
          | (pool, .failed error) => (pool, .failed error)
          | (pool, .done page) =>
              match page.delete location with
              | (changed, .ok ()) => (pool.putPage changed, .done record.page.number)
              | (changed, .error error) => (pool.putPage changed, .failed error)
        else (pool, .failed (.pageOutOfBounds record.page file.pageCount))
      else (pool, .failed (.foreignPage record.page))

def delete (pool : Pool) (tx : TxId) (location : Option RecordId) : Pool × Outcome Unit Nat :=
  match location with
  | none => (pool, .failed .notStored)
  | some record =>
      match pool.table? record.page.table with
      | .error error => (pool, .failed error)
      | .ok file =>
          match pool.remove tx file location with
          | (pool, .done number) => (pool.markDirty tx record.page, .done number)
          | stopped => stopped

end RowStore.Pool
