import RowStore.Proofs.Value.Codec
import RowStore.Query.Plan

namespace RowStore

/-! Groups of rows that agree with a schema.

An aggregator that was made for a schema folds every row of that schema. Its groups
have keys of the declared type, so each of them is handed out as a row of the declared
types, unless the number that it comes to has no room.
-/

theorem decide_lt_length {α : Type} (entries : List α) (index : Nat) :
    decide (index < entries.length) = entries[index]?.isSome := by
  rw [Bool.eq_iff_iff]
  simp

theorem getElem?_of_drop_nil {α : Type} {entries : List α} {index : Nat} (left : entries.drop index = []) :
    entries[index]? = none := by
  rw [← List.head?_drop, left, List.head?_nil]

theorem getElem?_of_drop_cons {α : Type} {entries rest : List α} {entry : α} {index : Nat}
    (left : entries.drop index = entry :: rest) : entries[index]? = some entry ∧ entries.drop (index + 1) = rest :=
  ⟨by rw [← List.head?_drop, left, List.head?_cons], by rw [← List.tail_drop, left, List.tail_cons]⟩

theorem Row.at?_of_types {row : Row} {column : Nat} {type : ColumnType}
    (typed : row.types[column]? = some type) :
    ∃ value ∈ row.values, row.at? column = .ok value ∧ value.type = type := by
  rw [types, List.getElem?_map, Option.map_eq_some_iff] at typed
  obtain ⟨value, found, same⟩ := typed
  refine ⟨value, List.mem_of_getElem? found, ?_, same⟩
  simp only [at?, value?, found]

theorem Summary.error_of_value {summary : Summary} {fn : AggregateFn} {error : StoreError}
    (failed : summary.value fn = .error error) : error = .overflow (.aggregate fn) := by
  have fitted : ∀ number, fit fn number = .error error → error = .overflow (.aggregate fn) := by
    intro number unfit
    unfold fit at unfit
    split at unfit
    · contradiction
    · cases unfit
      rfl
  cases fn with
  | min | max => contradiction
  | sum | avg | count => exact fitted _ failed

theorem mem_updateGroup {key : Option Value} {change : Summary → Summary} {groups : List Group}
    {group : Group} (listed : group ∈ updateGroup key change groups) :
    group.1 = key ∨ ∃ other ∈ groups, other.1 = group.1 := by
  induction groups with
  | nil =>
      cases List.mem_singleton.mp listed
      exact Or.inl rfl
  | cons first rest ih =>
      obtain ⟨other, summary⟩ := first
      simp only [updateGroup] at listed
      split at listed
      · rcases List.mem_cons.mp listed with rfl | before
        · exact Or.inl rfl
        · exact Or.inr ⟨group, before, rfl⟩
      · rcases List.mem_cons.mp listed with rfl | before
        · exact Or.inr ⟨_, List.mem_cons_self, rfl⟩
        · exact Or.inr ⟨group, List.mem_cons_of_mem _ before, rfl⟩
      · rcases List.mem_cons.mp listed with rfl | later
        · exact Or.inr ⟨_, List.mem_cons_self, rfl⟩
        · rcases ih later with same | ⟨before, found, same⟩
          · exact Or.inl same
          · exact Or.inr ⟨before, List.mem_cons_of_mem _ found, same⟩

namespace Aggregator

variable {schema : Schema} {aggregator : Aggregator} {row : Row} {rows : List Row}

/-- The columns that are read have the types that they are read as. -/
structure Reads (schema : Schema) (aggregator : Aggregator) : Prop where
  measure : ∀ column, aggregator.measure = .integers column → schema.types[column]? = some .int
  key : ∀ column type, aggregator.groupBy = some (column, type) → schema.types[column]? = some type

/-- A key of the type that the aggregator declares, if it declares one. -/
structure Keys (aggregator : Aggregator) (key : Option Value) : Prop where
  type : key.map Value.type = aggregator.groupBy.map Prod.snd
  kept : ∀ value, key = some value → value.Kept

def Keyed (aggregator : Aggregator) : Prop := ∀ group ∈ aggregator.groups, aggregator.Keys group.1

theorem Reads.change (reads : aggregator.Reads schema) (conforms : row.Conforms schema) :
    ∃ change, aggregator.change row = .ok change := by
  unfold Aggregator.change
  cases measure : aggregator.measure with
  | rows => exact ⟨_, rfl⟩
  | integers column =>
      have typed := reads.measure column measure
      rw [← conforms.types] at typed
      obtain ⟨value, _, found, type⟩ := Row.at?_of_types typed
      cases value with
      | text => contradiction
      | int number => exact ⟨fun summary => summary.add number, by simp only [found, Value.int?]⟩

theorem Reads.key_ok (reads : aggregator.Reads schema) (conforms : row.Conforms schema) :
    ∃ key, aggregator.key row = .ok key ∧ aggregator.Keys key := by
  unfold Aggregator.key
  cases grouped : aggregator.groupBy with
  | none => exact ⟨none, rfl, by simp [grouped], by simp⟩
  | some entry =>
      obtain ⟨column, type⟩ := entry
      have typed := reads.key column type grouped
      rw [← conforms.types] at typed
      obtain ⟨value, listed, found, same⟩ := Row.at?_of_types typed
      refine ⟨some value, by simp only [found, Except.map], by simp [grouped, same], ?_⟩
      intro other equal
      cases equal
      exact conforms.kept value listed

theorem merge_ok (reads : aggregator.Reads schema) (keyed : aggregator.Keyed)
    (conforms : row.Conforms schema) :
    ∃ groups, aggregator.merge row = .ok { aggregator with groups } ∧
      Keyed { aggregator with groups } := by
  obtain ⟨change, changed⟩ := reads.change conforms
  obtain ⟨key, found, fits⟩ := reads.key_ok conforms
  refine ⟨updateGroup key change aggregator.groups, by simp only [merge, changed, found], ?_⟩
  intro group listed
  rcases mem_updateGroup listed with same | ⟨other, before, same⟩
  · rw [same]
    exact ⟨fits.type, fits.kept⟩
  · rw [← same]
    exact ⟨(keyed other before).type, (keyed other before).kept⟩

theorem mergeEach_ok (reads : aggregator.Reads schema) (keyed : aggregator.Keyed)
    (conforms : ∀ row ∈ rows, row.Conforms schema) :
    ∃ groups, aggregator.mergeEach rows = .ok { aggregator with groups } ∧
      Keyed { aggregator with groups } := by
  induction rows generalizing aggregator with
  | nil => exact ⟨aggregator.groups, rfl, keyed⟩
  | cons row rows ih =>
      obtain ⟨first, others⟩ := List.forall_mem_cons.mp conforms
      obtain ⟨groups, merged, keyed⟩ := merge_ok reads keyed first
      have next : Reads schema { aggregator with groups } := ⟨reads.measure, reads.key⟩
      obtain ⟨groups, folded, keyed⟩ := ih next keyed others
      exact ⟨groups, by simp only [mergeEach, merged, folded], keyed⟩

/-- What is handed out for a group. -/
def result (aggregator : Aggregator) (group : Group) : Except StoreError Row :=
  match group.2.value aggregator.fn with
  | .error error => .error error
  | .ok value => aggregator.schema.row (group.1.toList ++ [.int value])

theorem types_schema (aggregator : Aggregator) :
    aggregator.schema.types = (aggregator.groupBy.map Prod.snd).toList ++ [.int] :=
  Schema.types_ofTypes _

theorem row_of_keys {key : Option Value} (keys : aggregator.Keys key) (value : Int32) :
    ∃ made, aggregator.schema.row (key.toList ++ [.int value]) = .ok made := by
  refine ⟨_, Schema.row_of_types ?_⟩
  rw [types_schema, ← keys.type]
  cases key <;> rfl

/-- A group with a key of the declared type is refused only for its number. -/
theorem Keyed.error_of_result (keyed : aggregator.Keyed) {group : Group}
    (listed : group ∈ aggregator.groups) {error : StoreError} (failed : aggregator.result group = .error error) :
    group.2.value aggregator.fn = .error error ∧ error = .overflow (.aggregate aggregator.fn) := by
  unfold result at failed
  cases found : group.2.value aggregator.fn with
  | error refusal =>
      simp only [found] at failed
      cases failed
      exact ⟨rfl, Summary.error_of_value found⟩
  | ok value =>
      obtain ⟨made, built⟩ := row_of_keys (keyed group listed) value
      simp only [found, built] at failed
      contradiction

theorem value_of_result {group : Group} (done : aggregator.result group = .ok row) :
    ∃ value, group.2.value aggregator.fn = .ok value ∧
      aggregator.schema.row (group.1.toList ++ [.int value]) = .ok row := by
  unfold result at done
  cases found : group.2.value aggregator.fn with
  | error => simp only [found] at done; contradiction
  | ok value =>
      simp only [found] at done
      exact ⟨value, rfl, done⟩

theorem conforms_of_result {group : Group} (done : aggregator.result group = .ok row) :
    row.Conforms aggregator.schema := by
  obtain ⟨_, _, built⟩ := value_of_result done
  exact ⟨Schema.types_row built, Schema.kept_row built⟩

/-- What is handed out for the groups, in their order. -/
def results (aggregator : Aggregator) : List (Except StoreError Row) :=
  aggregator.groups.map aggregator.result

end Aggregator

/-! ## Replaying groups -/

/-- The rows before the first refusal, and that refusal. -/
def readOut : List (Except StoreError Row) → List Row × Except StoreError Unit
  | [] => ([], .ok ())
  | .error error :: _ => ([], .error error)
  | .ok row :: results => (row :: (readOut results).1, (readOut results).2)

namespace GroupCursor

variable {aggregator : Aggregator} {position : Nat} {row : Row} {error : StoreError}

/-- The groups of an aggregator, from a position on. -/
def standing (aggregator : Aggregator) (position : Nat) : GroupCursor :=
  { ofAggregator aggregator with position := some position }

theorem hasNext_standing :
    (standing aggregator position).hasNext = aggregator.results[position]?.isSome := by
  rw [Aggregator.results, List.getElem?_map, Option.isSome_map, ← decide_lt_length]
  rfl

theorem next_of_end (ended : aggregator.results[position]? = none) :
    (standing aggregator position).next = (standing aggregator position, .error .noMoreRows) := by
  rw [Aggregator.results, List.getElem?_map, Option.map_eq_none_iff] at ended
  simp only [next, standing, ofAggregator, ended]

theorem next_of_row (found : aggregator.results[position]? = some (.ok row)) :
    (standing aggregator position).next = (standing aggregator (position + 1), .ok row) := by
  rw [Aggregator.results, List.getElem?_map, Option.map_eq_some_iff] at found
  obtain ⟨group, listed, done⟩ := found
  obtain ⟨value, computed, built⟩ := Aggregator.value_of_result done
  simp only [next, standing, ofAggregator, listed, computed, built]

theorem next_of_error (keyed : aggregator.Keyed) (found : aggregator.results[position]? = some (.error error)) :
    (standing aggregator position).next = (standing aggregator position, .error error) := by
  rw [Aggregator.results, List.getElem?_map, Option.map_eq_some_iff] at found
  obtain ⟨group, listed, refused⟩ := found
  have computed := (keyed.error_of_result (List.mem_of_getElem? listed) refused).1
  simp only [next, standing, ofAggregator, listed, computed]

theorem nextEach_standing (keyed : aggregator.Keyed) {groups : List Group}
    (left : aggregator.groups.drop position = groups) :
    ∃ reached, (standing aggregator position).nextEach groups =
      (standing aggregator reached, readOut (groups.map aggregator.result)) := by
  induction groups generalizing position with
  | nil => exact ⟨position, rfl⟩
  | cons group groups ih =>
      obtain ⟨here, later⟩ := getElem?_of_drop_cons left
      have found : aggregator.results[position]? = some (aggregator.result group) := by
        rw [Aggregator.results, List.getElem?_map, here, Option.map_some]
      cases result : aggregator.result group with
      | error error =>
          rw [result] at found
          refine ⟨position, ?_⟩
          simp only [nextEach, next_of_error keyed found, List.map_cons, result, readOut]
      | ok row =>
          rw [result] at found
          obtain ⟨reached, rest⟩ := ih later
          refine ⟨reached, ?_⟩
          simp only [nextEach, next_of_row found, rest, List.map_cons, result, readOut]

theorem rest_standing (keyed : aggregator.Keyed) (position : Nat) :
    ∃ reached, (standing aggregator position).rest =
      (standing aggregator reached, readOut (aggregator.results.drop position)) := by
  obtain ⟨reached, rest⟩ := nextEach_standing keyed (rfl : aggregator.groups.drop position = _)
  rw [Aggregator.results, ← List.map_drop]
  exact ⟨reached, rest⟩

end GroupCursor

end RowStore
