import RowStore.Proofs.Query.Results
import RowStore.Query.Cursor

namespace RowStore

/-! How a query over given rows and aggregates moves.

It is at each time closed, or at a position of the list that its plan hands out. Each
call tells or moves the position, on whatever pool it is made. What an aggregate hands
out depends on its groups alone, so it does not matter where its child stands.
-/

def Outcome.ofResult {σ α : Type} : Except StoreError α → Outcome σ α
  | .ok value => .done value
  | .error error => .failed error

theorem readOut_map_ok (rows : List Row) : readOut (rows.map .ok) = (rows, .ok ()) := by
  induction rows with
  | nil => rfl
  | cons row rows ih => simp only [List.map_cons, readOut, ih]

namespace Plan

variable {plan child : Plan} {position : Option Nat} {index column : Nat} {group : Option Nat}
variable {fn : AggregateFn} {aggregator : Aggregator} {row : Row} {error : StoreError}
variable {tx : TxId} {pool : Pool}

/-- What is handed out once the plan was started. -/
def listing (plan : Plan) : List (Except StoreError Row) :=
  match plan.results with
  | .ok results => results
  | .error _ => []

/-- What is handed out next at a position. -/
def upcoming (plan : Plan) (position : Option Nat) : Option (Except StoreError Row) :=
  position.bind (plan.listing[·]?)

/-- The plan stands at a position of its list, or is closed. Where its child stands does not
matter. -/
inductive At : Option Nat → (plan : Plan) → plan.State → Prop where
  | values {schema : Schema} {rows : List Row} (position : Option Nat) :
      At position (.values schema rows) position
  | closed {child : Plan} {source : child.State} {position : Option Nat} {column : Nat}
      {group : Option Nat} {fn : AggregateFn} (below : At position child source) :
      At none (.aggregate child column group fn) (AggregateState.mk source none none)
  | standing {child : Plan} {source : child.State} {position : Option Nat} {column : Nat}
      {group : Option Nat} {fn : AggregateFn} {aggregator : Aggregator} {index : Nat}
      (below : At position child source) (keyed : aggregator.Keyed)
      (folds : child.results.bind (folded child.schema column group fn) = .ok aggregator) :
      At (some index) (.aggregate child column group fn)
        (AggregateState.mk source none (some (.standing aggregator index)))

theorem listing_aggregate
    (folds : child.results.bind (folded child.schema column group fn) = .ok aggregator) :
    (aggregate child column group fn).listing = aggregator.results := by
  simp only [listing, results, folds, Except.map]

theorem getElem?_listing_values {schema : Schema} {rows : List Row} :
    (values schema rows).listing[index]? = rows[index]?.map .ok :=
  List.getElem?_map

theorem Built.at_fresh (built : plan.Built) : plan.At none plan.fresh := by
  induction built with
  | values given made =>
      obtain ⟨rfl, _⟩ := of_ofRows made
      exact .values none
  | aggregate below made ih =>
      obtain ⟨rfl, _⟩ := of_aggregateOf made
      exact .closed ih

/-! ## Moves -/

section Moves

variable {state : plan.State}

theorem At.close (stands : At position plan state) : At none plan (plan.close state) := by
  induction stands with
  | values => exact .values none
  | closed _ ih => exact .closed ih
  | standing _ _ _ ih => exact .closed ih

/-- Given rows are opened when they are rewound. An aggregate that is closed stays closed. -/
def rewound : Plan → Option Nat → Option Nat
  | .values _ _, _ => some 0
  | _, position => position.map fun _ => 0

theorem At.rewind (stands : At position plan state) :
    At (plan.rewound position) plan (plan.rewind state) := by
  cases stands with
  | values => exact .values (some 0)
  | closed below => exact .closed below
  | standing below keyed folds => exact .standing below keyed folds

theorem At.hasNext (stands : At position plan state) :
    Cursor.hasNext ⟨tx, plan, state⟩ pool =
      (pool, ⟨tx, plan, state⟩, .done (plan.upcoming position).isSome) := by
  unfold Cursor.hasNext
  cases stands with
  | values =>
      cases position with
      | none => rfl
      | some index =>
          simp only [Plan.hasNext, Option.any_some, decide_lt_length, upcoming, Option.bind_some,
            getElem?_listing_values, Option.isSome_map]
  | closed below => rfl
  | standing below keyed folds =>
      simp only [Plan.hasNext, Option.any_some, GroupCursor.hasNext_standing, upcoming, Option.bind_some,
        listing_aggregate folds]

theorem At.next_of_end (stands : At position plan state)
    (ended : plan.upcoming position = none) :
    Cursor.next ⟨tx, plan, state⟩ pool = (pool, ⟨tx, plan, state⟩, .failed .noMoreRows) := by
  unfold Cursor.next
  cases stands with
  | values =>
      cases position with
      | none => rfl
      | some index =>
          rw [upcoming, Option.bind_some, getElem?_listing_values, Option.map_eq_none_iff] at ended
          simp only [Plan.next, ended]
  | closed below => rfl
  | standing below keyed folds =>
      rw [upcoming, Option.bind_some, listing_aggregate folds] at ended
      simp only [Plan.next, GroupCursor.next_of_end ended]

theorem At.next_of_row (stands : At position plan state) (found : plan.upcoming position = some (.ok row))
    (tx : TxId) (pool : Pool) :
    ∃ after, Cursor.next ⟨tx, plan, state⟩ pool = (pool, ⟨tx, plan, after⟩, .done row) ∧
      At (position.map (· + 1)) plan after := by
  unfold Cursor.next
  obtain ⟨index, rfl, listed⟩ := Option.bind_eq_some_iff.mp found
  cases stands with
  | values =>
      rw [getElem?_listing_values, Option.map_eq_some_iff] at listed
      obtain ⟨_, given, same⟩ := listed
      cases same
      exact ⟨_, by simp only [Plan.next, given], .values (some (index + 1))⟩
  | standing below keyed folds =>
      rw [listing_aggregate folds] at listed
      refine ⟨_, ?_, .standing below keyed folds⟩
      simp only [Plan.next, GroupCursor.next_of_row listed]

theorem At.next_of_error (stands : At position plan state)
    (found : plan.upcoming position = some (.error error)) :
    Cursor.next ⟨tx, plan, state⟩ pool = (pool, ⟨tx, plan, state⟩, .failed error) := by
  unfold Cursor.next
  obtain ⟨index, rfl, listed⟩ := Option.bind_eq_some_iff.mp found
  cases stands with
  | values =>
      rw [getElem?_listing_values, Option.map_eq_some_iff] at listed
      obtain ⟨_, _, same⟩ := listed
      contradiction
  | standing below keyed folds =>
      rw [listing_aggregate folds] at listed
      simp only [Plan.next, GroupCursor.next_of_error keyed listed]

theorem At.rest (stands : At (some index) plan state) (tx : TxId) (pool : Pool) :
    ∃ reached after, At reached plan after ∧ plan.rest tx state pool =
      (pool, after, (readOut (plan.listing.drop index)).1, .ofResult (readOut (plan.listing.drop index)).2) := by
  cases stands with
  | @values schema rows _ =>
      refine ⟨_, _, .values (some (max index rows.length)), ?_⟩
      simp only [Plan.rest, listing, results, ← List.map_drop, readOut_map_ok, Outcome.ofResult]
  | standing below keyed folds =>
      obtain ⟨reached, rest⟩ := GroupCursor.rest_standing keyed index
      rw [listing_aggregate folds]
      refine ⟨some reached, _, .standing below keyed folds, ?_⟩
      simp only [Plan.rest, rest]
      generalize readOut (List.drop index _) = read
      rcases read with ⟨rows, error | done⟩ <;> rfl

theorem At.of_aggregate {state : AggregateState child.State}
    (stands : At position (.aggregate child column group fn) state) :
    ∃ source shown, state = ⟨source, none, shown⟩ ∧ (∃ below, At below child source) ∧
      ∀ below source, At below child source →
        At position (.aggregate child column group fn) (AggregateState.mk source none shown) := by
  cases stands with
  | closed below => exact ⟨_, _, rfl, ⟨_, below⟩, fun _ _ below => .closed below⟩
  | standing below keyed folds =>
      exact ⟨_, _, rfl, ⟨_, below⟩, fun _ _ below => .standing below keyed folds⟩

/-- A start that fails leaves the plan where it was. -/
def started (plan : Plan) (position : Option Nat) : Option Nat :=
  match plan.results with
  | .ok _ => some 0
  | .error _ => position

section ReadAll

variable {σ : Type} {rest : σ → Pool → Pool × σ × List Row × Outcome Unit Unit} {source drained : σ}
variable {shown : Option GroupCursor} {rows : List Row} {final : Aggregator}

theorem readAll_of_done (read : rest source pool = (pool, drained, rows, .done ()))
    (merged : aggregator.mergeEach rows = .ok final) :
    readAll rest aggregator ⟨source, none, shown⟩ pool =
      (pool, ⟨drained, none, some (.standing final 0)⟩, .done ()) := by
  simp only [readAll, read, merged]
  rfl

theorem readAll_of_failed (read : rest source pool = (pool, drained, rows, .failed error))
    (merged : aggregator.mergeEach rows = .ok final) :
    readAll rest aggregator ⟨source, none, shown⟩ pool =
      (pool, ⟨drained, none, shown⟩, .failed error) := by
  simp only [readAll, read, merged]

end ReadAll

theorem At.start (built : plan.Built) (stands : At position plan state) (tx : TxId) (pool : Pool) :
    ∃ after, plan.start tx state pool = (pool, after, .ofResult (plan.results.map fun _ => ())) ∧
      At (plan.started position) plan after := by
  -- By how the plan was built: that its aggregators can fold all rows of their children comes from there.
  induction built generalizing position with
  | values given made =>
      obtain ⟨rfl, _⟩ := of_ofRows made
      exact ⟨_, rfl, .values (some 0)⟩
  | @aggregate child _ column group fn built made ih =>
      obtain ⟨rfl, aggregator, found⟩ := of_aggregateOf made
      obtain ⟨source, shown, rfl, ⟨_, below⟩, replaced⟩ := stands.of_aggregate
      obtain ⟨source, opened, reached⟩ := ih below
      have handed := built.handed
      simp only [started] at reached
      simp only [Plan.start, opened, started, results]
      cases listed : child.results with
      | error error =>
          rw [listed] at reached
          exact ⟨_, rfl, replaced _ _ reached⟩
      | ok entries =>
          simp only [listed] at reached handed
          obtain ⟨final, merged, keyed, _, folds⟩ := folded_eq found handed
          obtain ⟨_, drained, below, rest⟩ := reached.rest tx pool
          simp only [listing, listed, List.drop_zero] at rest
          simp only [Except.map, Outcome.ofResult, found, Except.bind, folds]
          -- The child is read to its end, or to a number without room; nothing else can stop it.
          cases ended : (readOut entries).2 with
          | error error =>
              rw [ended, Outcome.ofResult] at rest
              exact ⟨_, readAll_of_failed rest merged, replaced _ _ below⟩
          | ok =>
              rw [ended, Outcome.ofResult] at rest
              refine ⟨_, readAll_of_done rest merged, .standing below keyed ?_⟩
              rw [listed, Except.bind, folds, ended, Except.map]

end Moves

theorem Built.handed_listing (built : plan.Built) : ∀ entry ∈ plan.listing, Handed plan.schema entry := by
  have handed := built.handed
  unfold listing
  cases listed : plan.results with
  | ok results =>
      rw [listed] at handed
      exact handed
  | error => simp

theorem Built.handed_upcoming (built : plan.Built) {entry : Except StoreError Row}
    (found : plan.upcoming position = some entry) : Handed plan.schema entry := by
  obtain ⟨index, rfl, listed⟩ := Option.bind_eq_some_iff.mp found
  exact built.handed_listing entry (List.mem_of_getElem? listed)

theorem Built.isOverflow_of_results (built : plan.Built) (failed : plan.results = .error error) :
    error.IsOverflow := by
  have handed := built.handed
  rw [failed] at handed
  exact handed

end Plan

end RowStore
