import Mathlib.Algebra.Ring.Int.Defs
import Mathlib.Algebra.Ring.Nat
import RowStore.Proofs.Query.Fold

namespace RowStore

/-! What an aggregator computes.

The value of a group is the exact least, greatest, total, mean or count of its numbers,
and it is refused only where it has no room in a column. A cursor that is rewound hands
out one row for each group, in the order of the keys, up to the first value without room.
-/

/-- The number that a function makes of those of a group. A mean is cut toward zero. -/
def AggregateFn.exact (numbers : List Int) : AggregateFn → Int
  | .min => numbers.min?.getD 0
  | .max => numbers.max?.getD 0
  | .sum => numbers.sum
  | .avg => numbers.sum.tdiv numbers.length
  | .count => numbers.length

/-- The number has room in a column. -/
def HasRoom (number : Int) : Prop := -2 ^ 31 ≤ number ∧ number < 2 ^ 31

instance : DecidablePred HasRoom := fun _ => inferInstanceAs (Decidable (_ ∧ _))

theorem hasRoom_toInt (number : Int32) : HasRoom number.toInt :=
  ⟨number.le_toInt, number.toInt_lt⟩

namespace Summary

variable {fn : AggregateFn} {number : Int}

theorem fit_of_room (room : HasRoom number) : fit fn number = .ok (Int32.ofInt number) := by
  obtain ⟨low, high⟩ := room
  rw [fit, Int32.toInt_minValue, Int32.toInt_maxValue, if_pos ⟨low, by omega⟩]

theorem fit_of_no_room (full : ¬ HasRoom number) :
    fit fn number = .error (.overflow (.aggregate fn)) := by
  rw [fit, Int32.toInt_minValue, Int32.toInt_maxValue, if_neg]
  rintro ⟨low, high⟩
  exact full ⟨low, by omega⟩

end Summary

namespace Measure

variable {measure : Measure} {numbers : List Int32} {column : Nat}

theorem count_gather (measure : Measure) (numbers : List Int32) :
    (measure.gather numbers).count = numbers.length := by
  unfold gather
  induction numbers using List.reverseRecOn with
  | nil => rfl
  | append_singleton numbers number ih =>
      rw [List.foldl_append, List.length_append, ← ih]
      cases measure <;> rfl

theorem total_gather (column : Nat) (numbers : List Int32) :
    ((integers column).gather numbers).total = (numbers.map Int32.toInt).sum := by
  unfold gather
  induction numbers using List.reverseRecOn with
  | nil => rfl
  | append_singleton numbers number ih =>
      rw [List.foldl_append, List.map_append, List.sum_append, ← ih]
      simp [add, Summary.add]

theorem total_gather_rows (numbers : List Int32) : (rows.gather numbers).total = 0 := by
  unfold gather
  induction numbers using List.reverseRecOn with
  | nil => rfl
  | append_singleton numbers number ih =>
      rw [List.foldl_append]
      exact ih

/-- What a summary keeps of its numbers is chosen among them one after the other. -/
theorem toInt_foldl_add {kept : Summary → Int32} {choose : Int → Int → Int}
    (chosen : ∀ summary number, (kept (Summary.add summary number)).toInt = choose (kept summary).toInt number.toInt)
    (summary : Summary) (numbers : List Int32) :
    (kept (numbers.foldl Summary.add summary)).toInt =
      (numbers.map Int32.toInt).foldl choose (kept summary).toInt := by
  induction numbers generalizing summary with
  | nil => rfl
  | cons number numbers ih => rw [List.foldl_cons, ih, List.map_cons, List.foldl_cons, chosen]

theorem least_add (summary : Summary) (number : Int32) :
    (summary.add number).least.toInt = min summary.least.toInt number.toInt := by
  simp only [Summary.add, Int32.lt_iff_toInt_lt]
  split <;> omega

theorem greatest_add (summary : Summary) (number : Int32) :
    (summary.add number).greatest.toInt = max summary.greatest.toInt number.toInt := by
  simp only [Summary.add, Int32.lt_iff_toInt_lt]
  split <;> omega

theorem least_gather (nonempty : numbers ≠ []) :
    (numbers.map Int32.toInt).min? = some ((integers column).gather numbers).least.toInt := by
  obtain ⟨number, numbers, rfl⟩ := List.exists_cons_of_ne_nil nonempty
  have first : (Summary.empty.add number).least.toInt = number.toInt :=
    (least_add _ _).trans (Int.min_eq_right number.toInt_le)
  rw [List.map_cons, List.min?_cons', ← first]
  exact congrArg some (toInt_foldl_add least_add _ _).symm

theorem greatest_gather (nonempty : numbers ≠ []) :
    (numbers.map Int32.toInt).max? = some ((integers column).gather numbers).greatest.toInt := by
  obtain ⟨number, numbers, rfl⟩ := List.exists_cons_of_ne_nil nonempty
  have first : (Summary.empty.add number).greatest.toInt = number.toInt :=
    (greatest_add _ _).trans (Int.max_eq_right number.minValue_le_toInt)
  rw [List.map_cons, List.max?_cons', ← first]
  exact congrArg some (toInt_foldl_add greatest_add _ _).symm

theorem sum_bounds (numbers : List Int32) :
    -2 ^ 31 * numbers.length ≤ (numbers.map Int32.toInt).sum ∧
      (numbers.map Int32.toInt).sum ≤ (2 ^ 31 - 1) * numbers.length := by
  induction numbers with
  | nil => decide
  | cons number numbers ih =>
      have low := number.le_toInt
      have high := number.toInt_lt
      rw [List.map_cons, List.sum_cons, List.length_cons]
      omega

/-- A mean lies between the numbers that it is made of. -/
theorem hasRoom_avg (nonempty : numbers ≠ []) :
    HasRoom (AggregateFn.avg.exact (numbers.map Int32.toInt)) := by
  obtain ⟨low, high⟩ := sum_bounds numbers
  have positive : (0 : Int) < numbers.length := by
    have := List.length_pos_iff.mpr nonempty
    omega
  have least := Int.tdiv_le_tdiv positive low
  have greatest := Int.tdiv_le_tdiv positive high
  rw [Int.mul_tdiv_cancel _ (by omega)] at least greatest
  simp only [AggregateFn.exact, List.length_map]
  exact ⟨least, by omega⟩

/-- Only a total and a count can be too large. -/
theorem hasRoom_exact (nonempty : numbers ≠ []) {fn : AggregateFn}
    (full : ¬ HasRoom (fn.exact (numbers.map Int32.toInt))) : fn = .sum ∨ fn = .count := by
  cases fn with
  | sum => exact Or.inl rfl
  | count => exact Or.inr rfl
  | avg => exact absurd (hasRoom_avg nonempty) full
  | min =>
      rw [AggregateFn.exact, @least_gather _ 0 nonempty] at full
      exact absurd (hasRoom_toInt _) full
  | max =>
      rw [AggregateFn.exact, @greatest_gather _ 0 nonempty] at full
      exact absurd (hasRoom_toInt _) full

/-- What is read off the summary of a group is exact. Without integers, rows are only counted. -/
theorem value_gather {fn : AggregateFn} (counted : measure = .rows → fn = .count)
    (nonempty : numbers ≠ []) :
    (measure.gather numbers).value fn = Summary.fit fn (fn.exact (numbers.map Int32.toInt)) := by
  have count := count_gather measure numbers
  cases measure with
  | rows =>
      cases counted rfl
      simp only [Summary.value, AggregateFn.exact, count, List.length_map]
  | integers column =>
      cases fn with
      | min =>
          rw [AggregateFn.exact, @least_gather _ column nonempty, Option.getD_some,
            Summary.fit_of_room (hasRoom_toInt _), Int32.ofInt_toInt, Summary.value]
      | max =>
          rw [AggregateFn.exact, @greatest_gather _ column nonempty, Option.getD_some,
            Summary.fit_of_room (hasRoom_toInt _), Int32.ofInt_toInt, Summary.value]
      | sum | avg | count =>
          simp only [Summary.value, AggregateFn.exact, count, total_gather, List.length_map]

/-- Sums of so few numbers have room in eight bytes. -/
theorem total_bounds (few : numbers.length < 2 ^ 32) :
    -2 ^ 63 ≤ (measure.gather numbers).total ∧ (measure.gather numbers).total < 2 ^ 63 := by
  cases measure with
  | rows =>
      rw [total_gather_rows]
      decide
  | integers column =>
      rw [total_gather]
      have bounds := sum_bounds numbers
      omega

end Measure

/-! ## Handing out the groups -/

/-- The rows that a cursor hands out, one after another, until it has no more or refuses one. -/
inductive GroupCursor.Drains : GroupCursor → List Row → Except StoreError Unit → Prop
  | ended {cursor : GroupCursor} (ended : cursor.hasNext = false) : Drains cursor [] (.ok ())
  | refused {cursor : GroupCursor} {error : StoreError} (more : cursor.hasNext = true)
      (failed : cursor.next.2 = .error error) : Drains cursor [] (.error error)
  | handed {cursor after : GroupCursor} {row : Row} {rows : List Row}
      {result : Except StoreError Unit} (more : cursor.hasNext = true)
      (found : cursor.next = (after, .ok row)) (rest : Drains after rows result) :
      Drains cursor (row :: rows) result

namespace GroupCursor

variable {aggregator : Aggregator}

theorem drains_standing (keyed : aggregator.Keyed) (position : Nat) :
    (standing aggregator position).Drains (readOut (aggregator.results.drop position)).1
      (readOut (aggregator.results.drop position)).2 := by
  generalize left : aggregator.results.drop position = results
  induction results generalizing position with
  | nil =>
      have ended : aggregator.results[position]? = none := by
        rw [← List.head?_drop, left, List.head?_nil]
      exact .ended (by rw [hasNext_standing, ended, Option.isSome_none])
  | cons result results ih =>
      have here : aggregator.results[position]? = some result := by
        rw [← List.head?_drop, left, List.head?_cons]
      have later : aggregator.results.drop (position + 1) = results := by
        rw [← List.tail_drop, left, List.tail_cons]
      have more : (standing aggregator position).hasNext = true := by
        rw [hasNext_standing, here, Option.isSome_some]
      cases result with
      | error error => exact .refused more (by rw [next_of_error keyed here])
      | ok row => exact .handed more (next_of_row here) (ih _ later)

end GroupCursor

/-- The row of a group whose value is this number. -/
def groupRow (key : Option Value) (number : Int) : Row :=
  ⟨key.toList ++ [.int (Int32.ofInt number)], none⟩

namespace Aggregator

variable {aggregator : Aggregator} {rows : List Row} {fn : AggregateFn} {row : Row}
  {groupBy : Option (Nat × ColumnType)} {column : Nat}

def keys (aggregator : Aggregator) : List (Option Value) := aggregator.groups.map Prod.fst

/-- The value of a group of these rows, before it is known whether it has room. -/
def exact (aggregator : Aggregator) (rows : List Row) (key : Option Value) : Int :=
  aggregator.fn.exact ((numbersOf key (aggregator.entries rows)).map Int32.toInt)

/-- Integers are folded, or else rows are counted. -/
theorem counted_of_made
    (made : aggregator = ofIntegers groupBy column fn ∨ ofTexts groupBy fn = .ok aggregator) :
    aggregator.groups = [] ∧ aggregator.groupBy = groupBy ∧
      (aggregator.measure = .rows → aggregator.fn = .count) := by
  rcases made with rfl | made
  · exact ⟨rfl, rfl, nofun⟩
  · unfold ofTexts at made
    split at made
    · next counts =>
      cases made
      exact ⟨rfl, rfl, fun _ => counts⟩
    · contradiction

/-- The key of a row that can be folded has the declared type. -/
theorem keys_of_entry {key : Option Value} {number : Int32} (kept : row.Kept)
    (typed : ∀ column type value, aggregator.groupBy = some (column, type) →
      row.value? column = some value → value.type = type)
    (found : aggregator.entryOf? row = some (key, number)) : aggregator.Keys key := by
  unfold entryOf? at found
  split at found
  · next keyed _ =>
    cases found
    unfold key? at keyed
    split at keyed
    · next ungrouped =>
      cases keyed
      exact ⟨by rw [ungrouped]; rfl, nofun⟩
    · next column type grouped =>
      obtain ⟨value, here, rfl⟩ := Option.map_eq_some_iff.mp keyed
      refine ⟨by simp [grouped, typed column type value grouped here], fun other same => ?_⟩
      rw [← Option.some.inj same]
      exact kept value (List.mem_of_getElem? here)
  · contradiction

theorem row_eq_groupRow {key : Option Value} (keys : aggregator.Keys key) (number : Int) :
    aggregator.schema.row (key.toList ++ [.int (Int32.ofInt number)]) = .ok (groupRow key number) := by
  have types : (key.toList ++ [Value.int (Int32.ofInt number)]).map Value.type = aggregator.schema.types := by
    rw [types_schema, ← keys.type]
    cases key <;> rfl
  have clipped : (key.toList ++ [Value.int (Int32.ofInt number)]).map Value.clipped =
      key.toList ++ [.int (Int32.ofInt number)] := by
    cases key with
    | none => rfl
    | some value =>
        have kept : value.clipped = value := keys.kept value rfl
        simp only [Option.toList_some, List.singleton_append, List.map_cons, kept, List.map_nil]
        rfl
  rw [Schema.row_of_types types, clipped, groupRow]

/-- What an aggregator makes of rows that it is fed. -/
structure Aggregates (aggregator : Aggregator) (rows : List Row) : Prop where
  /-- Whether a row is refused depends on the row only. -/
  refused : ∀ prior row, (∃ error, (aggregator.feed prior).merge row = .error error) ↔
    aggregator.entryOf? row = none
  /-- Refused rows leave no trace. -/
  traceless : aggregator.feed (rows.filter fun row => (aggregator.entryOf? row).isSome) =
    aggregator.feed rows
  ordered : ∀ others, rows.Perm others → aggregator.feed others = aggregator.feed rows
  ascending : (aggregator.feed rows).keys.Pairwise Value.Before
  keys : ∀ key, key ∈ (aggregator.feed rows).keys ↔
    ∃ row ∈ rows, ∃ number, aggregator.entryOf? row = some (key, number)
  values : ∀ group ∈ (aggregator.feed rows).groups,
    (HasRoom (aggregator.exact rows group.1) → ∃ value, group.2.value aggregator.fn = .ok value ∧
      value.toInt = aggregator.exact rows group.1) ∧
    (¬ HasRoom (aggregator.exact rows group.1) → (aggregator.fn = .sum ∨ aggregator.fn = .count) ∧
      group.2.value aggregator.fn = .error (.overflow (.aggregate aggregator.fn)))
  /-- Wherever the cursor stood, it starts over when it is rewound. -/
  drained : ∀ position, GroupCursor.Drains
    { GroupCursor.ofAggregator (aggregator.feed rows) with position }.rewind
    (((aggregator.feed rows).keys.takeWhile fun key => HasRoom (aggregator.exact rows key)).map
      fun key => groupRow key (aggregator.exact rows key))
    (if ∀ key ∈ (aggregator.feed rows).keys, HasRoom (aggregator.exact rows key) then .ok ()
      else .error (.overflow (.aggregate aggregator.fn)))
  /-- No group is without rows, and no sum or count outgrows eight bytes on the way. -/
  narrow : ∀ taken, taken <+: rows → ∀ group ∈ (aggregator.feed taken).groups,
    0 < group.2.count ∧ group.2.count < 2 ^ 63 ∧ -2 ^ 63 ≤ group.2.total ∧ group.2.total < 2 ^ 63
  empty : (∀ row ∈ rows, aggregator.entryOf? row = none) → (aggregator.feed rows).groups = []

theorem readOut_map {keys : List (Option Value)} {value : Option Value → Int} {error : StoreError} :
    readOut (keys.map fun key =>
        if HasRoom (value key) then .ok (groupRow key (value key)) else .error error) =
      ((keys.takeWhile fun key => HasRoom (value key)).map fun key => groupRow key (value key),
        if ∀ key ∈ keys, HasRoom (value key) then .ok () else .error error) := by
  induction keys with
  | nil => rfl
  | cons key keys ih =>
      by_cases room : HasRoom (value key)
      · simp [readOut, room, ih]
      · simp [readOut, room]

/-- The group of a key is there with its exact value, in as many bits as are needed. -/
theorem value_feed (fresh : aggregator.groups = [])
    (counted : aggregator.measure = .rows → aggregator.fn = .count) {group : Group}
    (listed : group ∈ (aggregator.feed rows).groups) :
    numbersOf group.1 (aggregator.entries rows) ≠ [] ∧
      group.2.value aggregator.fn = Summary.fit aggregator.fn (aggregator.exact rows group.1) := by
  obtain ⟨groups, fed, grouped⟩ := groups_feed fresh rows
  rw [fed] at listed
  obtain ⟨key, summary⟩ := group
  obtain ⟨nonempty, rfl⟩ := (grouped.summary key summary).mp listed
  exact ⟨nonempty, Measure.value_gather counted nonempty⟩

theorem mem_keys_feed (fresh : aggregator.groups = []) {key : Option Value} :
    key ∈ (aggregator.feed rows).keys ↔
      ∃ row ∈ rows, ∃ number, aggregator.entryOf? row = some (key, number) := by
  obtain ⟨groups, fed, grouped⟩ := groups_feed fresh rows
  rw [fed, keys, grouped.mem_keys]
  simp only [entries, List.mem_filterMap]
  constructor
  · rintro ⟨number, row, listed, found⟩
    exact ⟨row, listed, number, found⟩
  · rintro ⟨row, listed, number, found⟩
    exact ⟨number, row, listed, found⟩

theorem settings_feed (fresh : aggregator.groups = []) (rows : List Row) :
    (aggregator.feed rows).fn = aggregator.fn ∧ (aggregator.feed rows).measure = aggregator.measure ∧
      (aggregator.feed rows).groupBy = aggregator.groupBy := by
  obtain ⟨groups, fed, _⟩ := groups_feed fresh rows
  rw [fed]
  exact ⟨rfl, rfl, rfl⟩

theorem keyed_feed (fresh : aggregator.groups = []) (kept : ∀ row ∈ rows, row.Kept)
    (typed : ∀ row ∈ rows, ∀ column type value, aggregator.groupBy = some (column, type) →
      row.value? column = some value → value.type = type) : (aggregator.feed rows).Keyed := by
  intro group listed
  obtain ⟨row, listed, number, found⟩ := (mem_keys_feed fresh).mp (List.mem_map_of_mem listed)
  have fits := keys_of_entry (kept row listed) (typed row listed) found
  exact ⟨by rw [fits.type, (settings_feed fresh rows).2.2], fits.kept⟩

theorem results_feed (fresh : aggregator.groups = [])
    (counted : aggregator.measure = .rows → aggregator.fn = .count)
    (keyed : (aggregator.feed rows).Keyed) :
    (aggregator.feed rows).results = (aggregator.feed rows).keys.map fun key =>
      if HasRoom (aggregator.exact rows key) then .ok (groupRow key (aggregator.exact rows key))
      else .error (.overflow (.aggregate aggregator.fn)) := by
  obtain ⟨sameFn, _, _⟩ := settings_feed fresh rows
  rw [results, keys, List.map_map]
  refine List.map_congr_left fun group listed => ?_
  have computed := (value_feed fresh counted listed).2
  rw [result, sameFn, computed, Function.comp_apply]
  by_cases room : HasRoom (aggregator.exact rows group.1)
  · rw [Summary.fit_of_room room, if_pos room]
    exact row_eq_groupRow (keyed group listed) _
  · rw [Summary.fit_of_no_room room, if_neg room]

theorem bounds_feed (fresh : aggregator.groups = []) (few : rows.length < 2 ^ 32) {group : Group}
    (listed : group ∈ (aggregator.feed rows).groups) :
    0 < group.2.count ∧ group.2.count < 2 ^ 63 ∧ -2 ^ 63 ≤ group.2.total ∧
      group.2.total < 2 ^ 63 := by
  obtain ⟨groups, fed, grouped⟩ := groups_feed fresh rows
  rw [fed] at listed
  obtain ⟨key, summary⟩ := group
  obtain ⟨nonempty, rfl⟩ := (grouped.summary key summary).mp listed
  have short : (numbersOf key (aggregator.entries rows)).length ≤ rows.length := by
    rw [numbersOf, List.length_map]
    exact Nat.le_trans (List.length_filter_le _ _) (List.length_filterMap_le _ _)
  have some := List.length_pos_iff.mpr nonempty
  rw [Measure.count_gather]
  exact ⟨some, by omega, Measure.total_bounds (by omega)⟩

theorem aggregates_of_feed
    (made : aggregator = ofIntegers groupBy column fn ∨ ofTexts groupBy fn = .ok aggregator)
    (kept : ∀ row ∈ rows, row.Kept)
    (typed : ∀ row ∈ rows, ∀ column type value, groupBy = some (column, type) →
      row.value? column = some value → value.type = type)
    (few : rows.length < 2 ^ 32) : aggregator.Aggregates rows := by
  obtain ⟨fresh, rfl, counted⟩ := counted_of_made made
  have keyed := keyed_feed fresh kept typed
  refine {
    refused := fun prior row => ?refused
    traceless := feed_filter aggregator rows
    ordered := fun others same => (feed_perm fresh same).symm
    ascending := ?ascending
    keys := fun key => mem_keys_feed fresh
    values := fun group listed => ?values
    drained := fun position => ?drained
    narrow := fun taken before group listed =>
      bounds_feed fresh (Nat.lt_of_le_of_lt before.length_le few) listed
    empty := fun absent => ?empty }
  case refused =>
    obtain ⟨groups, fed, _⟩ := groups_feed fresh prior
    rw [fed]
    exact merge_eq_error_iff
  case ascending =>
    obtain ⟨groups, fed, grouped⟩ := groups_feed fresh rows
    rw [fed]
    exact List.pairwise_map.mpr grouped.ascending
  case values =>
    obtain ⟨nonempty, computed⟩ := value_feed fresh counted listed
    rw [computed]
    refine ⟨fun room => ⟨_, Summary.fit_of_room room, Int32.toInt_ofInt_of_le room.1 room.2⟩,
      fun full => ⟨Measure.hasRoom_exact nonempty full, Summary.fit_of_no_room full⟩⟩
  case drained =>
    have drains := GroupCursor.drains_standing keyed 0
    rw [List.drop_zero, results_feed fresh counted keyed, readOut_map] at drains
    exact drains
  case empty =>
    refine List.eq_nil_iff_forall_not_mem.mpr fun group listed => ?_
    obtain ⟨row, given, number, found⟩ := (mem_keys_feed fresh).mp (List.mem_map_of_mem listed)
    rw [absent row given] at found
    contradiction

/-- Labelled numbers, with a row that lacks its number and one whose number is a text. -/
def labelled : List Row :=
  [⟨[.text "b", .int (-7)], none⟩, ⟨[.text "c"], none⟩, ⟨[.text "b", .int 0], none⟩,
    ⟨[.text "a", .text "1"], none⟩, ⟨[.text "a", .int 2147483647], none⟩]

theorem aggregates_of_labels :
    (∀ row ∈ labelled, row.Kept) ∧ labelled.length < 2 ^ 32 ∧
      (ofIntegers (some (0, .text)) 1 .avg).Aggregates labelled ∧
      (GroupCursor.ofAggregator ((ofIntegers (some (0, .text)) 1 .avg).feed labelled)).rewind.Drains
        [groupRow (some (.text "a")) 2147483647, groupRow (some (.text "b")) (-3)] (.ok ()) := by
  have kept : ∀ row ∈ labelled, row.Kept := by decide +kernel
  have typed : ∀ row ∈ labelled, ∀ column type value,
      some (0, ColumnType.text) = some (column, type) → row.value? column = some value →
        value.type = type := by
    intro row listed column type value grouped found
    cases grouped
    simp only [labelled, List.mem_cons, List.not_mem_nil, or_false] at listed
    rcases listed with rfl | rfl | rfl | rfl | rfl <;> cases found <;> rfl
  have aggregates : Aggregates (ofIntegers (some (0, .text)) 1 .avg) labelled :=
    aggregates_of_feed (Or.inl rfl) kept typed (by decide)
  have keys : ((ofIntegers (some (0, .text)) 1 .avg).feed labelled).keys =
      [some (.text "a"), some (.text "b")] := by decide +kernel
  have means : (ofIntegers (some (0, .text)) 1 .avg).exact labelled (some (.text "a")) = 2147483647 ∧
      (ofIntegers (some (0, .text)) 1 .avg).exact labelled (some (.text "b")) = -3 := by decide +kernel
  have room : HasRoom 2147483647 ∧ HasRoom (-3) := by decide
  have drained : GroupCursor.Drains (GroupCursor.ofAggregator _).rewind _ _ := aggregates.drained none
  simp only [keys, List.forall_mem_cons, List.takeWhile_cons, List.map_cons, List.map_nil,
    List.takeWhile_nil, means, room, decide_true, if_true] at drained
  refine ⟨kept, by decide, aggregates, ?_⟩
  simpa using drained

end Aggregator
end RowStore
