import RowStore.Proofs.Query.Sources

namespace RowStore

/-! Copying a table into itself.

A row that is stored on a page that the scan did not read yet is copied as well. So the
copies are as many as the rows that the scan began with just if all of them go behind it.
-/

namespace Pool

variable {pool : Pool} {tx : TxId} {table : TableId} {file : TableFile} {first : Nat} {row : Row}

theorem Alone.conforms_rowsFrom (alone : Alone tx table pool) (serves : Serves table file pool)
    (listed : row ∈ pool.rowsFrom table first) : row.Conforms file.schema := by
  obtain ⟨count, known⟩ := serves.known
  obtain ⟨number, _, listed⟩ := List.mem_flatMap.mp listed
  obtain ⟨slot, held⟩ := mem_rowsOf_iff.mp listed
  have conforms := alone.typed.conforms alone.inFiles known rfl held
  exact conforms

end Pool

namespace Plan

variable {pool after : Pool} {tx : TxId} {table : TableId} {file : TableFile} {label : String} {schema : Schema}
variable {position : ScanPosition} {row : Row} {rows : List Row} {reached : Option ScanPosition} {count total : Nat}
variable {proceed : Option ScanPosition → Pool → Copied (Option ScanPosition)}

theorem copied_of_nil (ahead : Pool.Ahead table pool position []) (alone : Pool.Alone tx table pool)
    (copied : Copy.ask ((scan table label schema).hasNext tx) ((scan table label schema).next tx) tx table count
      (some position : Option ScanPosition) pool proceed = (after, reached, .done total)) : total = count := by
  obtain ⟨middle, asked, asks, _⟩ := ahead.asks alone.inFiles alone.unlocked
  simp only [Copy.ask, hasNext, asks] at copied
  cases copied
  rfl

/-- A row is taken and stored before the copy goes on. -/
theorem copied_of_cons (ahead : Pool.Ahead table pool position (row :: rows)) (alone : Pool.Alone tx table pool)
    (serves : Pool.Serves table file pool) (conforms : row.Conforms file.schema)
    (copied : Copy.ask ((scan table label schema).hasNext tx) ((scan table label schema).next tx) tx table count
      (some position : Option ScanPosition) pool proceed = (after, reached, .done total)) :
    ∃ middle first queue record stored, Pool.Asked tx table pool position (row :: rows) middle ⟨first, row :: queue⟩ ∧
      Pool.Stores tx table file row.unstored record middle stored ∧
      proceed (some ⟨first, queue⟩) stored = (after, reached, .done total) := by
  obtain ⟨middle, ⟨first, queue⟩, asks, asked⟩ := ahead.asks alone.inFiles alone.unlocked
  obtain ⟨taken, queue, rfl⟩ := List.exists_cons_of_ne_nil (asked.queued (List.cons_ne_nil row rows))
  obtain rfl : taken = row := (List.cons.inj asked.ahead.rows).1.symm
  obtain ⟨number, record, stored, inserted, stores⟩ := (alone.looks asked.looks).stores
    (serves.reads asked.looks.toReads) conforms.unstored
  have takes : middle.scanNext tx table ⟨first, taken :: queue⟩ = (middle, ⟨first, queue⟩, .done taken) := rfl
  simp only [Copy.ask, hasNext, asks, List.isEmpty_cons, Bool.not_false, Copy.take, next, takes, Copy.store,
    inserted] at copied
  exact ⟨middle, first, queue, record, stored, asked, stores, copied⟩

/-- No row is lost, and if none is added then each one had room behind the scan. -/
theorem ample_of_copied (room : Nat) (ahead : Pool.Ahead table pool position rows)
    (alone : Pool.Alone tx table pool) (serves : Pool.Serves table file pool)
    (conforms : ∀ row ∈ rows, row.Conforms file.schema)
    (copied : Copy.ask ((scan table label schema).hasNext tx) ((scan table label schema).next tx) tx table count
      (some position : Option ScanPosition) pool
      (Copy.proceed ((scan table label schema).hasNext tx) ((scan table label schema).next tx) tx table room count) =
        (after, reached, .done total)) :
    count + rows.length ≤ total ∧ total ≤ count + room ∧
      (total = count + rows.length → Pool.Ample table file pool position) := by
  induction room generalizing pool position rows count with
  | zero =>
      cases rows with
      | nil =>
          obtain rfl := copied_of_nil ahead alone copied
          exact ⟨Nat.le_refl _, Nat.le_refl _, fun _ => ahead.ample_of_nil (alone.length_rowsBefore_le serves _)⟩
      | cons row rows =>
          obtain ⟨_, _, _, _, _, _, _, full⟩ := copied_of_cons ahead alone serves
            (conforms row List.mem_cons_self) copied
          cases full
  | succ room ih =>
      cases rows with
      | nil =>
          obtain rfl := copied_of_nil ahead alone copied
          exact ⟨Nat.le_refl _, Nat.le_add_right _ _,
            fun _ => ahead.ample_of_nil (alone.length_rowsBefore_le serves _)⟩
      | cons row rows =>
          obtain ⟨this, others⟩ := List.forall_mem_cons.mp conforms
          obtain ⟨middle, first, queue, record, stored, asked, stores, onward⟩ := copied_of_cons ahead alone serves
            this copied
          have same := asked.ample_iff (alone.length_rowsBefore_le serves _)
          have alone := alone.looks asked.looks
          have serves := serves.reads asked.looks.toReads
          by_cases low : record.page.number < first
          · obtain ⟨left, still⟩ := asked.ahead.stored_below alone serves stores low
            obtain ⟨least, most, ample⟩ := ih left stores.alone stores.serves others onward
            rw [List.length_cons]
            exact ⟨by omega, by omega, fun exact_count => same.mp (still.mp (ample (by omega)))⟩
          · obtain ⟨left, longer⟩ := asked.ahead.stored_above alone serves stores (Nat.not_lt.mp low)
            have kept : ∀ row ∈ queue ++ stored.rowsFrom table first, row.Conforms file.schema := by
              intro row listed
              rcases List.mem_append.mp listed with queued | listed
              · refine others row ?_
                rw [(List.cons.inj asked.ahead.rows).2]
                exact List.mem_append_left _ queued
              · exact stores.alone.conforms_rowsFrom stores.serves listed
            obtain ⟨least, most, _⟩ := ih left stores.alone stores.serves kept onward
            rw [List.length_cons]
            exact ⟨by omega, by omega, fun exact_count => by omega⟩

end Plan

end RowStore
