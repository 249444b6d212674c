import RowStore.Pool.Insert

namespace RowStore

/-! Copying the rows of a source into a table, one at a time.

The source is given by how it tells and hands out its rows. The rows are counted
in 32 bits, which bounds how many are copied.
-/

/-- Where a copy stands while it waits for a lock, with the rows copied so far. -/
inductive CopyStage where
  | asking (count : Nat)
  | taking (count : Nat)
  | storing (count : Nat) (row : Row) (stage : InsertStage)
  deriving DecidableEq

abbrev Ran (σ α : Type) := Pool × σ × Outcome Unit α

abbrev Copied (σ : Type) := Pool × σ × Outcome CopyStage Nat

/-- The most rows that a copy counts. -/
def copyLimit : Nat := 2147483647

namespace Copy

variable {σ : Type} (hasNext : σ → Pool → Ran σ Bool) (next : σ → Pool → Ran σ Row)
variable (tx : TxId) (table : TableId)

def store (count : Nat) (row : Row) (stage : InsertStage) (source : σ) (pool : Pool)
    (proceed : σ → Pool → Copied σ) : Copied σ :=
  match pool.insert tx table row stage with
  | (pool, .parked stage) => (pool, source, .parked (.storing count row stage))
  | (pool, .failed error) => (pool, source, .failed error)
  | (pool, .done _) => proceed source pool

def take (count : Nat) (source : σ) (pool : Pool) (proceed : σ → Pool → Copied σ) : Copied σ :=
  match next source pool with
  | (pool, source, .parked _) => (pool, source, .parked (.taking count))
  | (pool, source, .failed error) => (pool, source, .failed error)
  | (pool, source, .done row) => store tx table count row.unstored .start source pool proceed

def ask (count : Nat) (source : σ) (pool : Pool) (proceed : σ → Pool → Copied σ) : Copied σ :=
  match hasNext source pool with
  | (pool, source, .parked _) => (pool, source, .parked (.asking count))
  | (pool, source, .failed error) => (pool, source, .failed error)
  | (pool, source, .done false) => (pool, source, .done count)
  | (pool, source, .done true) => take next tx table count source pool proceed

/-- Goes on after row `count + 1` was stored, when `room` more than `count` rows can be counted. -/
def proceed : (room count : Nat) → σ → Pool → Copied σ
  | 0, _, source, pool => (pool, source, .failed (.overflow .inserted))
  | room + 1, count, source, pool =>
      ask hasNext next tx table (count + 1) source pool (proceed room (count + 1))

def run (stage : CopyStage) (source : σ) (pool : Pool) : Copied σ :=
  match stage with
  | .asking count =>
      ask hasNext next tx table count source pool
        (proceed hasNext next tx table (copyLimit - count) count)
  | .taking count =>
      take next tx table count source pool
        (proceed hasNext next tx table (copyLimit - count) count)
  | .storing count row stage =>
      store tx table count row stage source pool
        (proceed hasNext next tx table (copyLimit - count) count)

end Copy

end RowStore
