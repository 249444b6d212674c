import Mathlib.Data.List.Forall2
import RowStore.Proofs.Pool.Alone
import RowStore.Query.Copy

namespace RowStore

/-! Copying all rows of a source into a table.

The source is asked and read between the inserts, so what it hands out must not depend on
the rows that were stored meanwhile. Then each of its rows is stored once, in a slot that
was free, and they are counted.
-/

namespace Pool

variable {pool middle after : Pool} {tx : TxId} {table : TableId} {file : TableFile} {row : Row}
variable {rows : List Row} {record : RecordId} {records : List RecordId}

/-- A table has got these rows in these slots, which were free, and nothing else shows a change. -/
structure Gains (table : TableId) (rows : List Row) (records : List RecordId) (pool after : Pool) : Prop where
  distinct : records.Nodup
  free : ∀ record ∈ records, record.page.table = table ∧ pool.row? record = none
  inside : ∀ record ∈ records, record.page.number < after.pageCount table
  copies : List.Forall₂ (fun row record => after.row? record = some ⟨row.values, some record⟩) rows records
  others : ∀ other, other ∉ records → after.row? other = pool.row? other
  longer : pool.pageCount table ≤ after.pageCount table
  counts : ∀ other, other ≠ table → after.pageCount other = pool.pageCount other

theorem Reads.gains (reads : Reads pool after) (table : TableId) : Gains table [] [] pool after :=
  ⟨.nil, by simp, by simp, .nil, fun _ _ => row?_congr (reads.load _), Nat.le_of_eq (reads.pageCount table).symm,
    fun other _ => reads.pageCount other⟩

theorem Gains.after_reads (reads : Reads pool middle) (gains : Gains table rows records middle after) :
    Gains table rows records pool after := by
  have same : ∀ record, middle.row? record = pool.row? record := fun _ => row?_congr (reads.load _)
  refine ⟨gains.distinct, fun record listed => ?_, gains.inside, gains.copies, fun other absent => ?_,
    reads.pageCount table ▸ gains.longer, fun other apart => (gains.counts other apart).trans (reads.pageCount other)⟩
  · rw [← same]
    exact gains.free record listed
  · rw [gains.others other absent, same]

theorem Gains.cons (stores : Stores tx table file row.unstored record pool middle) (alone : Alone tx table pool)
    (serves : Serves table file pool) (gains : Gains table rows records middle after) :
    Gains table (row :: rows) (record :: records) pool after := by
  -- The slot of the first row is not free for the others.
  have fresh : record ∉ records := by
    intro listed
    have free := (gains.free record listed).2
    rw [stores.stored] at free
    contradiction
  have apart : ∀ other ∈ records, other ≠ record := fun other listed same => fresh (same ▸ listed)
  refine ⟨List.nodup_cons.mpr ⟨fresh, gains.distinct⟩, ?_, ?_, .cons ?_ gains.copies, fun other absent => ?_,
    Nat.le_trans stores.longer gains.longer,
    fun other differs => (gains.counts other differs).trans (stores.spares other differs).pageCount⟩
  · refine List.forall_mem_cons.mpr ⟨⟨stores.home, stores.free⟩, fun other listed => ?_⟩
    rw [← stores.row?_of_ne alone serves (apart other listed)]
    exact gains.free other listed
  · exact List.forall_mem_cons.mpr ⟨Nat.lt_of_lt_of_le stores.inside gains.longer, gains.inside⟩
  · rw [gains.others record fresh, stores.stored]
    rfl
  · obtain ⟨first, others⟩ := not_or.mp (mt List.mem_cons.mpr absent)
    rw [gains.others other others, stores.row?_of_ne alone serves first]

end Pool

namespace Copy

variable {σ : Type} {hasNext : σ → Pool → Ran σ Bool} {next : σ → Pool → Ran σ Row}
variable {tx : TxId} {table : TableId} {file : TableFile} {left : List Row → σ → Pool → Prop}
variable {source : σ} {pool : Pool} {rows : List Row}

/-- The source has these rows left, and still has them after pages were read and rows that it handed out
were stored. -/
structure Feeds (hasNext : σ → Pool → Ran σ Bool) (next : σ → Pool → Ran σ Row) (tx : TxId) (table : TableId)
    (file : TableFile) (left : List Row → σ → Pool → Prop) : Prop where
  ended : ∀ source pool, left [] source pool → Pool.Alone tx table pool →
    ∃ after reached, hasNext source pool = (after, reached, .done false) ∧ Pool.Looks tx pool after
  more : ∀ row rows source pool, left (row :: rows) source pool → Pool.Alone tx table pool →
    Pool.Serves table file pool → ∃ middle asked after taken, hasNext source pool = (middle, asked, .done true) ∧
      next asked middle = (after, taken, .done row) ∧ Pool.Looks tx pool after ∧
      ∀ record stored, Pool.Stores tx table file row.unstored record after stored → left rows taken stored

/-- Each row is stored and counted, and then the source says that it has no other one. -/
theorem Feeds.copies (feeds : Feeds hasNext next tx table file left) (has : left rows source pool)
    (alone : Pool.Alone tx table pool) (serves : Pool.Serves table file pool)
    (conforms : ∀ row ∈ rows, row.Conforms file.schema) (room count : Nat) (enough : rows.length ≤ room) :
    ∃ after reached records, ask hasNext next tx table count source pool
        (proceed hasNext next tx table room count) = (after, reached, .done (count + rows.length)) ∧
      Pool.Gains table rows records pool after := by
  induction rows generalizing source pool room count with
  | nil =>
      obtain ⟨after, reached, asked, looks⟩ := feeds.ended source pool has alone
      exact ⟨after, reached, [], by simp only [ask, asked]; rfl, looks.toReads.gains table⟩
  | cons row rows ih =>
      obtain ⟨middle, asked, read, taken, asks, takes, looks, proceeds⟩ := feeds.more row rows source pool has alone
        serves
      obtain ⟨first, others⟩ := List.forall_mem_cons.mp conforms
      obtain ⟨room, rfl⟩ := Nat.exists_eq_succ_of_ne_zero (Nat.ne_of_gt (Nat.lt_of_lt_of_le (Nat.succ_pos _) enough))
      have alone := alone.looks looks
      have serves := serves.reads looks.toReads
      obtain ⟨number, record, stored, inserted, stores⟩ := alone.stores serves first.unstored
      obtain ⟨after, reached, records, copied, gains⟩ := ih (proceeds record stored stores) stores.alone stores.serves
        others room (count + 1) (Nat.le_of_succ_le_succ enough)
      refine ⟨after, reached, record :: records, ?_, .after_reads looks.toReads (.cons stores alone serves gains)⟩
      rw [List.length_cons, Nat.add_comm rows.length, ← Nat.add_assoc, ← copied, ask, asks]
      simp only [take, takes, store, inserted, proceed]

end Copy

end RowStore
