import RowStore.Proofs.Query.Moves
import RowStore.Session

namespace RowStore

/-! Histories of a query over given rows and aggregates.

Whatever calls were made on it, the query is a position over the list of its plan. It
only fails at the end of the rows and for numbers that have no room, and the rows that
it hands out have the types of the plan.
-/

def Outcome.map {σ α β : Type} (write : α → β) : Outcome σ α → Outcome σ β
  | .done value => .done (write value)
  | .failed error => .failed error
  | .parked stage => .parked stage

inductive CursorAction where
  | start
  | hasNext
  | next
  | rewind
  | close

structure CursorEvent where
  action : CursorAction
  outcome : Outcome Unit Answer

namespace Cursor

def act (cursor : Cursor) (pool : Pool) : CursorAction → Ran Cursor Answer
  | .start =>
      let (pool, cursor, outcome) := cursor.start pool
      (pool, cursor, outcome.map fun _ => .nothing)
  | .hasNext =>
      let (pool, cursor, outcome) := cursor.hasNext pool
      (pool, cursor, outcome.map .flag)
  | .next =>
      let (pool, cursor, outcome) := cursor.next pool
      (pool, cursor, outcome.map .row)
  | .rewind => (pool, cursor.rewind, .done .nothing)
  | .close => (pool, cursor.close, .done .nothing)

/-- The histories of a query, with the cursor that each leads to. Each call is made on some pool.
The newest event comes first. -/
inductive Run (start : Cursor) : List CursorEvent → Cursor → Prop where
  | start : Run start [] start
  | step {history : List CursorEvent} {cursor : Cursor} (before : Run start history cursor)
      (action : CursorAction) (pool : Pool) :
      Run start (⟨action, (cursor.act pool action).2.2⟩ :: history) (cursor.act pool action).2.1

/-- The query that an aggregate reads. -/
def source? : Cursor → Option Cursor
  | ⟨tx, .aggregate child _ _ _, (state : AggregateState child.State)⟩ => some ⟨tx, child, state.child⟩
  | _ => none

end Cursor

namespace Plan

variable {plan : Plan} {position : Option Nat} {state : plan.State}

/-- Where the plan stands after an event. -/
def move (plan : Plan) (position : Option Nat) : CursorEvent → Option Nat
  | ⟨.start, .done _⟩ => some 0
  | ⟨.next, .done _⟩ => position.map (· + 1)
  | ⟨.rewind, _⟩ => plan.rewound position
  | ⟨.close, _⟩ => none
  | _ => position

/-- Where the plan stands after a history; it is closed at first. -/
def positionAfter (plan : Plan) : List CursorEvent → Option Nat
  | [] => none
  | event :: history => plan.move (plan.positionAfter history) event

/-- The answer to a call, as a query of this plan may give it: a row has the types of the plan, and
none of its texts is too long. -/
def Answers (plan : Plan) : Outcome Unit Answer → Prop
  | .done (.row row) => row.types = plan.schema.types ∧
      ∀ text, .text text ∈ row.values → text.utf8ByteSize ≤ textCapacity
  | .done _ => True
  | .failed error => error = .noMoreRows ∨ error.IsOverflow
  | .parked _ => False

theorem answers_of_conforms {row : Row} (conforms : row.Conforms plan.schema) :
    plan.Answers (.done (.row row)) := by
  refine ⟨conforms.types, fun text listed => ?_⟩
  have short := Value.kept_text_iff.mp (conforms.kept _ listed)
  rwa [← Text.utf8ByteSize_ofList, String.ofList_toList] at short

theorem At.act (built : plan.Built) (stands : At position plan state) (tx : TxId) (pool : Pool)
    (action : CursorAction) :
    ∃ after outcome, Cursor.act ⟨tx, plan, state⟩ pool action = (pool, ⟨tx, plan, after⟩, outcome) ∧
      At (plan.move position ⟨action, outcome⟩) plan after ∧ plan.Answers outcome := by
  cases action with
  | start =>
      obtain ⟨after, opened, reached⟩ := stands.start built tx pool
      refine ⟨after, (Outcome.ofResult (plan.results.map fun _ => ())).map fun _ => .nothing,
        by simp only [Cursor.act, Cursor.start, opened], ?_⟩
      cases listed : plan.results with
      | ok results =>
          rw [started, listed] at reached
          exact ⟨reached, trivial⟩
      | error error =>
          rw [started, listed] at reached
          exact ⟨reached, .inr (built.isOverflow_of_results listed)⟩
  | hasNext =>
      refine ⟨state, .done (.flag (plan.upcoming position).isSome), ?_, stands, trivial⟩
      unfold Cursor.act
      simp only [stands.hasNext, Outcome.map]
  | next =>
      unfold Cursor.act
      -- The entry at the position alone tells what is answered and whether the plan moves.
      cases found : plan.upcoming position with
      | none =>
          refine ⟨state, .failed .noMoreRows, ?_, stands, .inl rfl⟩
          simp only [stands.next_of_end found, Outcome.map]
      | some entry =>
          have handed := built.handed_upcoming found
          cases entry with
          | ok row =>
              obtain ⟨after, taken, reached⟩ := stands.next_of_row found tx pool
              refine ⟨after, .done (.row row), ?_, reached, answers_of_conforms handed⟩
              simp only [taken, Outcome.map]
          | error error =>
              refine ⟨state, .failed error, ?_, stands, .inr handed⟩
              simp only [stands.next_of_error found, Outcome.map]
  | rewind => exact ⟨_, _, rfl, stands.rewind, trivial⟩
  | close => exact ⟨_, _, rfl, stands.close, trivial⟩

end Plan

namespace Cursor

variable {plan : Plan} {position : Option Nat} {state : plan.State} {history : List CursorEvent}
variable {tx : TxId} {cursor : Cursor}

theorem Run.answered {start : Cursor} (before : Run start history cursor) (action : CursorAction) (pool : Pool)
    {outcome : Outcome Unit Answer} (same : (cursor.act pool action).2.2 = outcome) :
    Run start (⟨action, outcome⟩ :: history) (cursor.act pool action).2.1 := by
  subst same
  exact before.step action pool

/-- A run is at the position that its history tells. -/
theorem Run.stands (built : plan.Built) (run : Run (ofPlan tx plan) history cursor) :
    (∃ state, cursor = ⟨tx, plan, state⟩ ∧ Plan.At (plan.positionAfter history) plan state) ∧
      ∀ event ∈ history, plan.Answers event.outcome := by
  -- On the calls, with the state of the plan kept at the position; the pools need not be related.
  induction run with
  | start => exact ⟨⟨_, rfl, built.at_fresh⟩, by simp⟩
  | step before action pool ih =>
      obtain ⟨⟨state, rfl, stands⟩, answered⟩ := ih
      obtain ⟨after, outcome, moved, reached, answers⟩ := stands.act built tx pool action
      rw [moved]
      exact ⟨⟨after, rfl, reached⟩, List.forall_mem_cons.mpr ⟨answers, answered⟩⟩

/-- The query is a position over the list of the plan. -/
structure Replays (plan : Plan) (position : Option Nat) (cursor : Cursor) : Prop where
  /-- The plan alone tells whether it can be started. -/
  start : ∀ pool, ∃ after, cursor.start pool = (pool, after, .ofResult (plan.results.map fun _ => ()))
  hasNext : ∀ pool, cursor.hasNext pool = (pool, cursor, .done (plan.upcoming position).isSome)
  more : ∀ pool, (cursor.hasNext pool).2.2 = .done true ↔ (cursor.next pool).2.2 ≠ .failed .noMoreRows
  ended : plan.upcoming position = none → ∀ pool, cursor.next pool = (pool, cursor, .failed .noMoreRows)
  row : ∀ row, plan.upcoming position = some (.ok row) →
    ∀ pool, ∃ after, cursor.next pool = (pool, after, .done row)
  overflow : ∀ error, plan.upcoming position = some (.error error) →
    error.IsOverflow ∧ ∀ pool, cursor.next pool = (pool, cursor, .failed error)
  /-- A rewind leaves the query that an aggregate reads where it is. -/
  rewind : cursor.rewind.source? = cursor.source?

theorem Replays.of_at (built : plan.Built) (stands : Plan.At position plan state) :
    Replays plan position ⟨tx, plan, state⟩ where
  start := fun pool => by
    obtain ⟨after, opened, _⟩ := stands.start built tx pool
    exact ⟨⟨tx, plan, after⟩, by simp only [Cursor.start, opened]⟩
  hasNext := fun _ => stands.hasNext
  more := fun pool => by
    rw [stands.hasNext]
    cases found : plan.upcoming position with
    | none => simp [stands.next_of_end found]
    | some entry =>
        cases entry with
        | ok row =>
            obtain ⟨after, taken, _⟩ := stands.next_of_row found tx pool
            simp [taken]
        | error error =>
            obtain ⟨fn, rfl⟩ := built.handed_upcoming found
            simp [stands.next_of_error found]
  ended := fun found _ => stands.next_of_end found
  row := fun row found pool => by
    obtain ⟨after, taken, _⟩ := stands.next_of_row found tx pool
    exact ⟨_, taken⟩
  overflow := fun error found => ⟨built.handed_upcoming found, fun _ => stands.next_of_error found⟩
  rewind := by cases stands <;> rfl

end Cursor

/-! ## Sums of labels -/

def labelled (label : String) (value : Int32) : Row := ⟨[.text label, .int value], none⟩

namespace Plan

def labelledRows : List Row :=
  [labelled "a" 2000000000, labelled "b" 1999999999, labelled "c" 5, labelled "b" 1]

def labels : Plan := .values (.ofTypes [.text, .int]) labelledRows

/-- The sum of each label. -/
def sums : Plan := .aggregate labels 1 (some 0) .sum

/-- Equal sums, added. Those of two of the labels have no room. -/
def equalSums : Plan := .aggregate sums 1 (some 1) .sum

/-- How many sums each label has. -/
def sumCounts : Plan := .aggregate sums 1 (some 0) .count

theorem built_labels : labels.Built := by
  refine .values (fun row listed => ?_) (show ofRows (.ofTypes [.text, .int]) labelledRows = .ok labels by rfl)
  refine ⟨.ofTypes [.text, .int], row.values, ?_⟩
  simp only [labelledRows, List.mem_cons, List.not_mem_nil, or_false] at listed
  rcases listed with rfl | rfl | rfl | rfl <;> rfl

theorem built_sums : sums.Built :=
  .aggregate built_labels (show aggregateOf labels 1 (some 0) .sum = .ok sums by rfl)

theorem built_equalSums : equalSums.Built :=
  .aggregate built_sums (show aggregateOf sums 1 (some 1) .sum = .ok equalSums by rfl)

theorem built_sumCounts : sumCounts.Built :=
  .aggregate built_sums (show aggregateOf sums 1 (some 0) .count = .ok sumCounts by rfl)

end Plan

/-! ## Runs -/

namespace Cursor

variable {plan : Plan} {history : List CursorEvent} {tx : TxId} {cursor : Cursor}

def idlePool : Pool := .empty .default .empty

/-- Whatever calls were made on a query, it goes on as a position over the list of its plan. The entries
of the list are rows, and refusals of numbers that have no room. -/
theorem replays_of_run (built : plan.Built) (run : Run (ofPlan tx plan) history cursor) :
    (∀ error, .error error ∈ plan.listing → error.IsOverflow) ∧
      cursor.Replays plan (plan.positionAfter history) := by
  obtain ⟨⟨state, rfl, stands⟩, _⟩ := run.stands built
  exact ⟨fun error listed => built.handed_listing _ listed, .of_at built stands⟩

theorem replays_of_equalSums :
    Plan.equalSums.Built ∧ ∃ cursor, Run (ofPlan ⟨0⟩ .equalSums)
        [⟨.rewind, .done .nothing⟩, ⟨.next, .failed (.overflow (.aggregate .sum))⟩,
          ⟨.next, .done (.row ⟨[.int 5, .int 5], none⟩)⟩, ⟨.start, .done .nothing⟩] cursor ∧
      (∀ error, .error error ∈ Plan.equalSums.listing → error.IsOverflow) ∧
      cursor.Replays .equalSums (some 0) := by
  have run := ((((@Run.start (ofPlan ⟨0⟩ .equalSums)).answered .start idlePool
    (show _ = .done .nothing by rfl)).answered .next idlePool
    (show _ = .done (.row ⟨[.int 5, .int 5], none⟩) by rfl)).answered .next idlePool
    (show _ = .failed (.overflow (.aggregate .sum)) by rfl)).answered .rewind idlePool
    (show _ = .done .nothing by rfl)
  exact ⟨Plan.built_equalSums, _, run, replays_of_run Plan.built_equalSums run⟩

/-- A query that was closed has rows again when it is rewound, if it is over given rows. If it is over
an aggregate that has rows, it has none. -/
theorem rewind_of_closed :
    Plan.labels.Built ∧ Plan.sums.Built ∧
      (∃ cursor, Run (ofPlan ⟨0⟩ .labels)
          [⟨.rewind, .done .nothing⟩, ⟨.close, .done .nothing⟩, ⟨.start, .done .nothing⟩] cursor ∧
        (cursor.hasNext idlePool).2.2 = .done true) ∧
      ∃ cursor, Run (ofPlan ⟨0⟩ .sums)
          [⟨.rewind, .done .nothing⟩, ⟨.close, .done .nothing⟩, ⟨.start, .done .nothing⟩] cursor ∧
        Plan.sums.listing.length = 3 ∧ (cursor.hasNext idlePool).2.2 = .done false := by
  have labels := (((@Run.start (ofPlan ⟨0⟩ .labels)).answered .start idlePool
    (show _ = .done .nothing by rfl)).answered .close idlePool
    (show _ = .done .nothing by rfl)).answered .rewind idlePool
    (show _ = .done .nothing by rfl)
  have sums := (((@Run.start (ofPlan ⟨0⟩ .sums)).answered .start idlePool
    (show _ = .done .nothing by rfl)).answered .close idlePool
    (show _ = .done .nothing by rfl)).answered .rewind idlePool
    (show _ = .done .nothing by rfl)
  exact ⟨Plan.built_labels, Plan.built_sums, ⟨_, labels, rfl⟩, _, sums, rfl, rfl⟩

/-- Whatever calls are made on a query, none fails but for the end of the rows and for numbers that have
no room, and each row that is handed out has the types of the plan. -/
theorem answers_of_run (built : plan.Built) (run : Run (ofPlan tx plan) history cursor) :
    ∀ event ∈ history, plan.Answers event.outcome := (run.stands built).2

theorem answers_of_sumCounts :
    Plan.sumCounts.Built ∧ ∃ cursor history, Run (ofPlan ⟨0⟩ .sumCounts) history cursor ∧
      history = [⟨.next, .failed .noMoreRows⟩, ⟨.next, .done (.row (labelled "c" 1))⟩,
        ⟨.next, .done (.row (labelled "b" 1))⟩, ⟨.next, .done (.row (labelled "a" 1))⟩,
        ⟨.start, .done .nothing⟩] ∧
      ∀ event ∈ history, Plan.sumCounts.Answers event.outcome := by
  have run := (((((@Run.start (ofPlan ⟨0⟩ .sumCounts)).answered .start idlePool
    (show _ = .done .nothing by rfl)).answered .next idlePool
    (show _ = .done (.row (labelled "a" 1)) by rfl)).answered .next idlePool
    (show _ = .done (.row (labelled "b" 1)) by rfl)).answered .next idlePool
    (show _ = .done (.row (labelled "c" 1)) by rfl)).answered .next idlePool
    (show _ = .failed .noMoreRows by rfl)
  exact ⟨Plan.built_sumCounts, _, _, run, rfl, answers_of_run Plan.built_sumCounts run⟩

end Cursor

end RowStore
