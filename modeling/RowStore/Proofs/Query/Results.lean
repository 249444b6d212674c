import RowStore.Proofs.Query.Fold

namespace RowStore

/-! What a plan over given rows hands out.

A plan that was built by its checks, from given rows and aggregates one above the
other, hands out a fixed list. Each entry is a row of the plan's schema, or the
refusal of a number that has no room.
-/

theorem mem_of_readOut {results : List (Except StoreError Row)} {row : Row}
    (listed : row ∈ (readOut results).1) : .ok row ∈ results := by
  induction results with
  | nil => contradiction
  | cons result results ih =>
      cases result with
      | error => contradiction
      | ok first =>
          rcases List.mem_cons.mp listed with rfl | later
          · exact List.mem_cons_self
          · exact List.mem_cons_of_mem _ (ih later)

theorem error_of_readOut {results : List (Except StoreError Row)} {error : StoreError}
    (stopped : (readOut results).2 = .error error) : .error error ∈ results := by
  induction results with
  | nil => contradiction
  | cons result results ih =>
      cases result with
      | error =>
          cases stopped
          exact List.mem_cons_self
      | ok first => exact List.mem_cons_of_mem _ (ih stopped)

/-- A number had no room. -/
def StoreError.IsOverflow (error : StoreError) : Prop := ∃ fn, error = .overflow (.aggregate fn)

/-- A row of the schema, or the refusal of a number. -/
def Handed (schema : Schema) : Except StoreError Row → Prop
  | .ok row => row.Conforms schema
  | .error error => error.IsOverflow

namespace Plan

variable {schema : Schema} {rows : List Row} {plan child : Plan} {column : Nat} {group : Option Nat}
variable {fn : AggregateFn} {aggregator : Aggregator} {source : List (Except StoreError Row)}

/-- Plans that were built from given rows, and from aggregates of such plans. -/
inductive Built : Plan → Prop where
  | values {schema : Schema} {rows : List Row} {plan : Plan} (given : ∀ row ∈ rows, row.Built)
      (made : ofRows schema rows = .ok plan) : Built plan
  | aggregate {child plan : Plan} {column : Nat} {group : Option Nat} {fn : AggregateFn}
      (below : Built child) (made : aggregateOf child column group fn = .ok plan) : Built plan

/-- The groups of all rows that the child hands out. -/
def folded (schema : Schema) (column : Nat) (group : Option Nat) (fn : AggregateFn)
    (source : List (Except StoreError Row)) : Except StoreError Aggregator :=
  match aggregator? schema column group fn with
  | .error error => .error error
  | .ok aggregator =>
      match aggregator.mergeEach (readOut source).1, (readOut source).2 with
      | .error error, _ => .error error
      | .ok _, .error error => .error error
      | .ok aggregator, .ok () => .ok aggregator

/-- What the plan hands out from its start to its end, or the failure that it starts with. Of plans
that use tables nothing is said. -/
def results : Plan → Except StoreError (List (Except StoreError Row))
  | .values _ rows => .ok (rows.map .ok)
  | .aggregate child column group fn =>
      (child.results.bind (folded child.schema column group fn)).map Aggregator.results
  | .scan _ _ _ | .insert _ _ => .ok []

/-! ## Checks -/

theorem of_ofRows (made : ofRows schema rows = .ok plan) :
    plan = .values schema rows ∧ ∀ row ∈ rows, row.types = schema.types := by
  unfold ofRows at made
  split at made
  · contradiction
  · next agree =>
    cases made
    exact ⟨rfl, by simpa using agree⟩

theorem of_aggregateOf (made : aggregateOf child column group fn = .ok plan) :
    plan = .aggregate child column group fn ∧
      ∃ aggregator, aggregator? child.schema column group fn = .ok aggregator := by
  unfold aggregateOf at made
  split at made
  · contradiction
  · next aggregator found =>
    cases made
    exact ⟨rfl, aggregator, found⟩

theorem of_groupBy? {groupBy : Option (Nat × ColumnType)} (found : groupBy? schema group = .ok groupBy) :
    (∀ column type, groupBy = some (column, type) → schema.types[column]? = some type) ∧
      groupBy.map Prod.snd = (group.bind schema.column?).map Column.type := by
  cases group with
  | none =>
      cases found
      exact ⟨by simp, rfl⟩
  | some index =>
      simp only [groupBy?] at found
      split at found
      · next entry known =>
        cases found
        refine ⟨fun column type same => ?_, by simp [known]⟩
        cases same
        rw [Schema.types, List.getElem?_map, show schema.columns[index]? = some entry from known]
        rfl
      · contradiction

theorem types_aggregateSchema (schema : Schema) (column : Nat) (group : Option Nat) (fn : AggregateFn) :
    (aggregateSchema schema column group fn).types =
      ((group.bind schema.column?).map Column.type).toList ++ [.int] := by
  unfold aggregateSchema Schema.types
  cases group.bind schema.column? <;> rfl

/-- An aggregator reads columns of the types that they have, and declares the types of the
plan. -/
theorem of_aggregator? (made : aggregator? schema column group fn = .ok aggregator) :
    aggregator.Reads schema ∧ aggregator.groups = [] ∧
      aggregator.schema.types = (aggregateSchema schema column group fn).types := by
  unfold aggregator? at made
  split at made
  · contradiction
  · next entry known =>
    have typed : schema.types[column]? = some entry.type := by
      rw [Schema.types, List.getElem?_map, show schema.columns[column]? = some entry from known]
      rfl
    split at made
    · contradiction
    · next groupBy found =>
      obtain ⟨keys, types⟩ := of_groupBy? found
      have declared : (groupBy.map Prod.snd).toList ++ [ColumnType.int] =
          (aggregateSchema schema column group fn).types := by
        rw [types, types_aggregateSchema]
      split at made
      · next int =>
        cases made
        refine ⟨⟨fun other same => ?_, keys⟩, rfl, (Aggregator.types_schema _).trans declared⟩
        cases same
        rw [typed, int]
      · unfold Aggregator.ofTexts at made
        split at made
        · cases made
          exact ⟨⟨by simp, keys⟩, rfl, (Aggregator.types_schema _).trans declared⟩
        · contradiction

/-- A plan that is started again folds into the aggregator it had, cleared: it builds the same one. -/
theorem aggregator?_eq_clear_feed (made : aggregator? schema column group fn = .ok aggregator)
    (rows : List Row) : aggregator? schema column group fn = .ok (aggregator.feed rows).clear := by
  obtain ⟨_, fresh, _⟩ := of_aggregator? made
  rw [made, Aggregator.clear_feed fresh]

/-! ## The list -/

/-- Rows that agree with the schema of the child are all folded, so only a refusal of the child
stands in the way of the groups. -/
theorem folded_eq (made : aggregator? schema column group fn = .ok aggregator)
    (handed : ∀ result ∈ source, Handed schema result) :
    ∃ after, aggregator.mergeEach (readOut source).1 = .ok after ∧ after.Keyed ∧
      after.schema = aggregator.schema ∧
      folded schema column group fn source = (readOut source).2.map fun _ => after := by
  obtain ⟨reads, empty, _⟩ := of_aggregator? made
  have keyed : aggregator.Keyed := by simp [Aggregator.Keyed, empty]
  obtain ⟨groups, merged, keyed⟩ := Aggregator.mergeEach_ok reads keyed
    fun row listed => handed _ (mem_of_readOut listed)
  refine ⟨_, merged, keyed, rfl, ?_⟩
  simp only [folded, made, merged]
  cases (readOut source).2 <;> rfl

theorem handed_results (keyed : aggregator.Keyed) (types : aggregator.schema.types = schema.types) :
    ∀ result ∈ aggregator.results, Handed schema result := by
  intro result listed
  obtain ⟨group, member, rfl⟩ := List.mem_map.mp listed
  cases done : aggregator.result group with
  | ok row =>
      have conforms := Aggregator.conforms_of_result done
      exact ⟨conforms.types.trans types, conforms.kept⟩
  | error error => exact ⟨_, (keyed.error_of_result member done).2⟩

theorem Built.handed (built : plan.Built) :
    match plan.results with
    | .ok results => ∀ result ∈ results, Handed plan.schema result
    | .error error => error.IsOverflow := by
  induction built with
  | values given made =>
      obtain ⟨rfl, types⟩ := of_ofRows made
      intro result listed
      obtain ⟨row, member, rfl⟩ := List.mem_map.mp listed
      exact ⟨types row member, (given row member).kept⟩
  | @aggregate child plan column group fn below made ih =>
      obtain ⟨rfl, aggregator, found⟩ := of_aggregateOf made
      simp only [results]
      cases listed : child.results with
      | error error =>
          rw [listed] at ih
          exact ih
      | ok source =>
          simp only [listed] at ih
          obtain ⟨after, _, keyed, schema, folds⟩ := folded_eq found ih
          simp only [Except.bind, folds]
          cases ended : (readOut source).2 with
          | error error => exact ih _ (error_of_readOut ended)
          | ok =>
              refine handed_results keyed ?_
              rw [schema]
              exact (of_aggregator? found).2.2

end Plan

end RowStore
