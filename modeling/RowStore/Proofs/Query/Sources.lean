import RowStore.Proofs.Pool.Ample
import RowStore.Proofs.Query.Copies
import RowStore.Proofs.Query.Moves

namespace RowStore

/-! What plans hand out that were just started.

The rows of a plan that was built by its checks are those of its schema, whatever it reads.
Given rows and groups are handed out from memory; a scan reads its table on the way, and
finds the rows that the table had at the start if the new rows stay behind it.
-/

theorem map_ok_of_readOut {results : List (Except StoreError Row)} {rows : List Row}
    (read : readOut results = (rows, .ok ())) : results = rows.map .ok := by
  induction results generalizing rows with
  | nil =>
      cases read
      rfl
  | cons result results ih =>
      cases result with
      | error => cases read
      | ok row =>
          simp only [readOut, Prod.mk.injEq] at read
          obtain ⟨rfl, ended⟩ := read
          rw [List.map_cons, ← ih (Prod.ext rfl ended)]

namespace Pool

variable {pool last : Pool} {tx : TxId} {table : TableId} {position : ScanPosition} {rows : List Row} {row : Row}

theorem of_readRows {numbers : List Nat} (read : pool.readRows table numbers = (rows, .done ())) :
    rows = numbers.flatMap (fun number => pool.rowsOf ⟨table, number⟩) ∧
      ∀ number ∈ numbers, ∃ page, (pool.load ⟨table, number⟩).2 = .done page := by
  induction numbers generalizing rows with
  | nil =>
      cases read
      exact ⟨rfl, by simp⟩
  | cons number numbers ih =>
      unfold readRows at read
      split at read
      · next page loaded =>
        simp only [Prod.mk.injEq] at read
        obtain ⟨rfl, ended⟩ := read
        obtain ⟨same, had⟩ := ih (Prod.ext rfl ended)
        refine ⟨?_, List.forall_mem_cons.mpr ⟨⟨page, loaded⟩, had⟩⟩
        rw [List.flatMap_cons, rowsOf_eq loaded, ← same]
      · cases read
      · cases read

/-- A scan that came to its end has all rows of the table before it when it begins. -/
theorem ahead_of_scanAll (scanned : pool.scanAll tx table .start = (last, position, rows, .done ())) :
    Ahead table pool .start rows ∧ rows = pool.rowsBefore table (pool.pageCount table) := by
  have read := pool.scanAll_eq tx table (by rw [scanned]; exact id)
  rw [scanned, pagesFrom, Nat.sub_zero, ← List.range_eq_range'] at read
  obtain ⟨rfl, had⟩ := of_readRows read.symm
  refine ⟨⟨Nat.zero_le _, ?_, fun number below _ => had number (List.mem_range.mpr below)⟩, rfl⟩
  simp [ScanPosition.start, rowsFrom]

/-- A row of a table has the columns of the table. -/
theorem Typed.conforms (typed : pool.Typed) (inFiles : pool.WithinFiles) {file : TableFile}
    (known : pool.tables.get? table = some file) {record : RecordId} (home : record.page.table = table)
    (held : pool.row? record = some row) : row.Conforms file.schema := by
  unfold row? at held
  split at held
  · next page loaded =>
    have inFile := inFiles.pageInFile_of_load loaded
    have schema := typed.of_load loaded file (by rw [inFile.restorable.named, home, known])
    obtain ⟨values, found, rfl⟩ := Option.map_eq_some_iff.mp held
    have listed : some values ∈ page.slots := List.mem_of_getElem? (Option.join_eq_some_iff.mp found)
    obtain ⟨types, kept⟩ := inFile.restorable.wellFormed.fits _ listed values rfl
    exact ⟨schema ▸ types, kept⟩
  · contradiction

end Pool

namespace Plan

variable {pool after last : Pool} {tx : TxId} {plan child : Plan} {table : TableId} {file : TableFile}
variable {schema : Schema} {rows : List Row} {row : Row} {column : Nat} {group : Option Nat} {fn : AggregateFn}
variable {aggregator final : Aggregator}

/-- Plans that were built by their checks, over given rows and over tables. -/
inductive Made (pool : Pool) : Plan → Prop
  | values {schema : Schema} {rows : List Row} {plan : Plan} (given : ∀ row ∈ rows, row.Built)
      (made : ofRows schema rows = .ok plan) : Made pool plan
  | scan {table : TableId} {file : TableFile} (label : String) (known : pool.tables.get? table = some file) :
      Made pool (scanOf file label)
  | aggregate {child plan : Plan} {column : Nat} {group : Option Nat} {fn : AggregateFn}
      (below : Made pool child) (made : aggregateOf child column group fn = .ok plan) : Made pool plan
  | insert {child plan : Plan} {file : TableFile} (below : Made pool child)
      (made : insertOf child file = .ok plan) : Made pool plan

/-- No call waits in the plan. -/
def Idle : (plan : Plan) → plan.State → Prop
  | .values _ _, _ | .scan _ _ _, _ => True
  | .aggregate child _ _ _, (state : AggregateState child.State) => state.reading = none ∧ child.Idle state.child
  | .insert child _, (state : InsertState child.State) => state.copying = none ∧ child.Idle state.child

theorem idle_fresh (plan : Plan) : plan.Idle plan.fresh := by
  induction plan with
  | values | scan => trivial
  | aggregate _ _ _ _ ih | insert _ _ ih => exact ⟨rfl, ih⟩

/-! ## Starts that are done -/

theorem of_readAll {σ : Type} {rest : σ → Pool → Pool × σ × List Row × Outcome Unit Unit}
    {state reached : AggregateState σ}
    (done : readAll rest aggregator state pool = (after, reached, .done ())) :
    ∃ drained rows final, rest state.child pool = (after, drained, rows, .done ()) ∧
      aggregator.mergeEach rows = .ok final ∧ reached = ⟨drained, none, some (.standing final 0)⟩ := by
  unfold readAll at done
  split at done
  next after drained rows outcome read =>
  split at done
  · cases done
  · next final merged =>
    split at done
    · cases done
    · cases done
    · cases done
      exact ⟨_, rows, final, read, merged, rfl⟩

theorem of_start_aggregate {state reached : AggregateState child.State} (idle : state.reading = none)
    (done : (aggregate child column group fn).start tx state pool = (after, reached, .done ())) :
    ∃ middle source aggregator, child.start tx state.child pool = (middle, source, .done ()) ∧
      aggregator? child.schema column group fn = .ok aggregator ∧
      ∃ drained rows final, child.rest tx source middle = (after, drained, rows, .done ()) ∧
        aggregator.mergeEach rows = .ok final ∧ reached = ⟨drained, none, some (.standing final 0)⟩ := by
  simp only [start, idle] at done
  split at done
  · cases done
  · cases done
  · next middle source started =>
    split at done
    · cases done
    · next aggregator found => exact ⟨middle, source, aggregator, started, found, of_readAll done⟩

theorem of_start_insert {state reached : InsertState child.State}
    (done : (insert child table).start tx state pool = (after, reached, .done ())) :
    ∃ source, child.start tx state.child pool = (after, source, .done ()) ∧
      reached = { state with child := source, opened := true, finished := false } := by
  simp only [start] at done
  split at done
  · cases done
  · cases done
  · next source started =>
    cases done
    exact ⟨source, started, rfl⟩

/-- An insert that was just started tells how many rows the copy stored. -/
theorem next_insert_iff {source : child.State} {reached : InsertState child.State} :
    (insert child table).next tx (InsertState.mk source true false none) pool = (after, reached, .done row) ↔
      ∃ drained total, Copy.ask (child.hasNext tx) (child.next tx) tx table 0 source pool
          (Copy.proceed (child.hasNext tx) (child.next tx) tx table copyLimit 0) = (after, drained, .done total) ∧
        reached = InsertState.mk drained true true none ∧ row = countRow total := by
  simp only [next, Bool.not_false, Bool.and_true, if_true, Option.getD_none, Copy.run, Nat.sub_zero]
  constructor
  · intro counted
    split at counted
    · cases counted
    · cases counted
    · next drained total copied =>
      cases counted
      exact ⟨drained, total, copied, rfl, rfl⟩
  · rintro ⟨drained, total, copied, rfl, rfl⟩
    simp only [copied]
    rfl

/-! ## The types of rows -/

/-- Once it was started, the plan hands out rows of its schema. -/
def Conforming (tx : TxId) (pool : Pool) (plan : Plan) : Prop :=
  ∀ state after reached last drained rows, plan.Idle state →
    plan.start tx state pool = (after, reached, .done ()) →
    plan.rest tx reached after = (last, drained, rows, .done ()) → ∀ row ∈ rows, row.Conforms plan.schema

theorem kept_countRow (count : Nat) : (countRow count).Kept := by
  intro value listed
  cases List.mem_singleton.mp listed
  rfl

/-- An aggregate has groups of the declared types when it was started. -/
theorem Conforming.groups (conforming : child.Conforming tx pool)
    {state reached : AggregateState child.State} (idle : (aggregate child column group fn).Idle state)
    (done : (aggregate child column group fn).start tx state pool = (after, reached, .done ())) :
    ∃ source final, reached = ⟨source, none, some (.standing final 0)⟩ ∧ final.Keyed ∧
      final.schema.types = (aggregate child column group fn).schema.types := by
  obtain ⟨middle, source, aggregator, started, found, drained, rows, final, read, merged, rfl⟩ :=
    of_start_aggregate idle.1 done
  obtain ⟨reads, empty, declared⟩ := of_aggregator? found
  have keyed : aggregator.Keyed := by simp [Aggregator.Keyed, empty]
  obtain ⟨groups, again, keyed⟩ := Aggregator.mergeEach_ok reads keyed
    (conforming _ _ _ _ _ _ idle.2 started read)
  cases again.symm.trans merged
  exact ⟨_, _, rfl, keyed, declared⟩

theorem rest_standing {source : child.State} (keyed : final.Keyed) {drained : AggregateState child.State}
    (read : (aggregate child column group fn).rest tx (AggregateState.mk source none (some (.standing final 0))) pool =
      (after, drained, rows, .done ())) : final.results = rows.map .ok := by
  obtain ⟨_, rest⟩ := GroupCursor.rest_standing keyed 0
  simp only [Plan.rest, rest] at read
  split at read
  · cases read
  · next same =>
    cases read
    simp only [Prod.mk.injEq, List.drop_zero] at same
    exact map_ok_of_readOut same.2

theorem of_rest_scan {source : Schema} {label : String} {state reached drained : (scan table label source).State}
    (done : (scan table label source).start tx state pool = (after, reached, .done ()))
    (read : (scan table label source).rest tx reached after = (last, drained, rows, .done ())) :
    after = pool ∧ reached = (some .start : Option ScanPosition) ∧
      ∃ position, pool.scanAll tx table .start = (last, position, rows, .done ()) := by
  cases done
  generalize scanned : pool.scanAll tx table .start = result at read
  obtain ⟨_, position, _, _⟩ := result
  simp only [Plan.rest, scanned] at read
  cases read
  exact ⟨rfl, rfl, position, rfl⟩

theorem of_insertOf (made : insertOf child file = .ok plan) :
    plan = .insert child file.id ∧ child.schema.types = file.schema.types := by
  unfold insertOf at made
  split at made
  · next types =>
    cases made
    exact ⟨rfl, types⟩
  · contradiction

theorem countRow_of_rest_insert {reached drained : (insert child table).State}
    (read : (insert child table).rest tx reached pool = (last, drained, rows, .done ())) (listed : row ∈ rows) :
    ∃ count, row = countRow count := by
  simp only [Plan.rest] at read
  split at read
  · next going =>
    simp only [next, going, if_true] at read
    split at read
    · cases read
    · cases read
    · next taken =>
      split at taken <;> cases taken
      cases read
      exact ⟨_, List.mem_singleton.mp listed⟩
  · cases read
    contradiction

theorem Made.conforming (made : plan.Made pool) (inFiles : pool.WithinFiles) (typed : pool.Typed) :
    plan.Conforming tx pool := by
  -- By how the plan was built. A scan is started where it is read, so its rows are those of the pool.
  induction made with
  | values given made =>
      obtain ⟨rfl, types⟩ := of_ofRows made
      intro state after reached last drained rows _ done read row listed
      cases done
      cases read
      exact ⟨types row listed, (given row listed).kept⟩
  | @scan table file label known =>
      intro state after reached last drained rows _ done read row listed
      obtain ⟨_, _, _, scanned⟩ := of_rest_scan done read
      obtain ⟨_, all⟩ := Pool.ahead_of_scanAll scanned
      have id := (inFiles.files table file known).named
      rw [all, (inFiles.lists_rowsBefore file.id _).mem_iff] at listed
      obtain ⟨number, _, slot, held⟩ := listed
      have conforms := typed.conforms inFiles (id.symm ▸ known) rfl held
      exact ⟨conforms.types.trans (Schema.types_aliased _ _).symm, conforms.kept⟩
  | @aggregate child _ column group fn below made ih =>
      obtain ⟨rfl, _⟩ := of_aggregateOf made
      intro state after reached last drained rows idle done read row listed
      obtain ⟨source, final, rfl, keyed, types⟩ := ih.groups idle done
      have results := rest_standing keyed read
      exact handed_results keyed types (.ok row) (results ▸ List.mem_map_of_mem listed)
  | @insert child _ file below made ih =>
      obtain ⟨rfl, _⟩ := of_insertOf made
      intro state after reached last drained rows _ done read row listed
      obtain ⟨count, rfl⟩ := countRow_of_rest_insert read listed
      exact ⟨rfl, kept_countRow count⟩

/-! ## Handing out rows while rows are stored -/

/-- The plan has these rows left, and keeps them while rows are stored in a table. -/
inductive Offers (table : TableId) (file : TableFile) : (plan : Plan) → List Row → plan.State → Pool → Prop
  | values {schema : Schema} {given rows : List Row} {index : Nat} {pool : Pool} (left : given.drop index = rows) :
      Offers table file (.values schema given) rows (some index : Option Nat) pool
  | aggregate {child : Plan} {column : Nat} {group : Option Nat} {fn : AggregateFn} {source : child.State}
      {final : Aggregator} {index : Nat} {rows : List Row} {pool : Pool}
      (left : final.results.drop index = rows.map .ok) :
      Offers table file (.aggregate child column group fn) rows
        (AggregateState.mk source none (some (.standing final index))) pool
  | scan {place : TableId} {label : String} {schema : Schema} {position : ScanPosition} {rows : List Row} {pool : Pool}
      (ahead : Pool.Ahead place pool position rows) (ample : place = table → Pool.Ample table file pool position) :
      Offers table file (.scan place label schema) rows (some position : Option ScanPosition) pool

theorem Offers.ended {source : plan.State} (left : Offers table file plan [] source pool)
    (alone : Pool.Alone tx table pool) :
    ∃ after reached, plan.hasNext tx source pool = (after, reached, .done false) ∧ Pool.Looks tx pool after := by
  have looks := alone.inFiles.looks_refl tx
  cases left with
  | @values _ _ _ index _ left =>
      refine ⟨pool, (some index : Option Nat), ?_, looks⟩
      simp only [hasNext, Option.any_some, decide_lt_length, getElem?_of_drop_nil left]
      rfl
  | @aggregate child _ _ _ source final index _ _ left =>
      refine ⟨pool, AggregateState.mk source none (some (.standing final index)), ?_, looks⟩
      simp only [hasNext, Option.any_some, GroupCursor.hasNext_standing, getElem?_of_drop_nil left]
      rfl
  | scan ahead _ =>
      obtain ⟨after, reached, asks, asked⟩ := ahead.asks alone.inFiles alone.unlocked
      exact ⟨after, (some reached : Option ScanPosition), by simp only [hasNext, asks]; rfl, asked.looks⟩

theorem Offers.more {source : plan.State} (left : Offers table file plan (row :: rows) source pool)
    (alone : Pool.Alone tx table pool) (serves : Pool.Serves table file pool) :
    ∃ middle asked after taken, plan.hasNext tx source pool = (middle, asked, .done true) ∧
      plan.next tx asked middle = (after, taken, .done row) ∧ Pool.Looks tx pool after ∧
      ∀ record stored, Pool.Stores tx table file row.unstored record after stored →
        Offers table file plan rows taken stored := by
  have looks := alone.inFiles.looks_refl tx
  cases left with
  | @values _ _ _ index _ left =>
      obtain ⟨found, rest⟩ := getElem?_of_drop_cons left
      refine ⟨pool, (some index : Option Nat), pool, (some (index + 1) : Option Nat), ?_, ?_, looks,
        fun _ _ _ => .values rest⟩
      · simp only [hasNext, Option.any_some, decide_lt_length, found]
        rfl
      · simp only [next, found]
  | @aggregate child _ _ _ source final index _ _ left =>
      obtain ⟨found, rest⟩ := getElem?_of_drop_cons left
      refine ⟨pool, AggregateState.mk source none (some (.standing final index)), pool,
        AggregateState.mk source none (some (.standing final (index + 1))), ?_, ?_, looks, fun _ _ _ => .aggregate rest⟩
      · simp only [hasNext, Option.any_some, GroupCursor.hasNext_standing, found]
        rfl
      · simp only [next, GroupCursor.next_of_row found]
  | @scan place label schema position _ _ ahead ample =>
      obtain ⟨after, ⟨first, queue⟩, asks, asked⟩ := ahead.asks alone.inFiles alone.unlocked
      obtain ⟨taken, queue, rfl⟩ := List.exists_cons_of_ne_nil (asked.queued (List.cons_ne_nil row rows))
      have now := asked.ahead
      have first_row : taken = row := (List.cons.inj now.rows).1.symm
      subst first_row
      refine ⟨after, (some ⟨first, taken :: queue⟩ : Option ScanPosition), after,
        (some ⟨first, queue⟩ : Option ScanPosition), by simp only [hasNext, asks]; rfl, rfl, asked.looks,
        fun record stored stores => ?_⟩
      by_cases own : place = table
      · subst own
        have enough := (asked.ample_iff (alone.length_rowsBefore_le serves _)).mpr (ample rfl)
        have alone := alone.looks asked.looks
        have serves := serves.reads asked.looks.toReads
        have low := enough.lands alone serves stores now.inside
        obtain ⟨left, same⟩ := now.stored_below alone serves stores low
        exact .scan left fun _ => same.mpr enough
      · have spares := stores.spares place own
        exact .scan (now.stored (fun number _ _ => spares.load number) spares.pageCount) fun same => absurd same own

theorem feeds_offers (tx : TxId) (table : TableId) (file : TableFile) (plan : Plan) :
    Copy.Feeds (plan.hasNext tx) (plan.next tx) tx table file (Offers table file plan) :=
  ⟨fun _ _ left alone => left.ended alone, fun _ _ _ _ left alone serves => left.more alone serves⟩

/-- What a plan offers that was just started: what it would hand out if nothing was stored. -/
theorem Made.offers {start : Pool} (made : plan.Made start) (inFiles : start.WithinFiles) (typed : start.Typed)
    (table : TableId) (file : TableFile) (direct : ∀ child place, plan ≠ .insert child place)
    (ample : ∀ label schema, plan = .scan table label schema → Pool.Ample table file pool .start)
    {state reached drained : plan.State} (idle : plan.Idle state)
    (opened : plan.start tx state start = (pool, reached, .done ()))
    (read : plan.rest tx reached pool = (last, drained, rows, .done ())) :
    Offers table file plan rows reached pool := by
  cases made with
  | values given made =>
      obtain ⟨rfl, _⟩ := of_ofRows made
      cases opened
      cases read
      exact .values rfl
  | @scan _ other label known =>
      obtain ⟨rfl, rfl, _, scanned⟩ := of_rest_scan opened read
      exact .scan (Pool.ahead_of_scanAll scanned).1 fun own => ample label other.schema (by rw [scanOf, own])
  | aggregate below made =>
      obtain ⟨rfl, _⟩ := of_aggregateOf made
      obtain ⟨_, _, rfl, keyed, _⟩ := (below.conforming inFiles typed).groups idle opened
      exact .aggregate (rest_standing keyed read)
  | insert below made =>
      obtain ⟨rfl, _⟩ := of_insertOf made
      exact absurd rfl (direct _ _)

end Plan

end RowStore
