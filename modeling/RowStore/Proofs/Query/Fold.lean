import Mathlib.Data.List.Induction
import RowStore.Proofs.Query.Groups
import RowStore.Proofs.Value.Order

namespace RowStore

/-! Folding rows into groups.

A row that can be folded has a key and a number; what an aggregator holds afterwards
depends on these entries only. Its groups stand in strictly ascending order of their
keys, one group for each key among the entries, and the summary of a group is gathered
from the numbers that came with its key, in any order.
-/

/-- What a row adds to its group, if it can be folded. Texts add nothing but their presence. -/
def Measure.number? : Measure → Row → Option Int32
  | .integers column, row => (row.value? column).bind Value.int?
  | .rows, _ => some 0

def Measure.add : Measure → Summary → Int32 → Summary
  | .integers _, summary, number => summary.add number
  | .rows, summary, _ => summary.addRow

/-- The summary of a group that these numbers were added to. -/
def Measure.gather (measure : Measure) (numbers : List Int32) : Summary :=
  numbers.foldl measure.add .empty

/-- The key of a group with one of the numbers that belong to it. -/
abbrev Entry := Option Value × Int32

/-- The numbers that come with a key. -/
def numbersOf (key : Option Value) (entries : List Entry) : List Int32 :=
  (entries.filter fun entry => entry.1 = key).map Prod.snd

section Groups

variable {key : Option Value} {change : Summary → Summary} {groups : List Group} {group : Group}

/-- The groups stand in strictly ascending order of their keys. -/
def Ascending (groups : List Group) : Prop :=
  groups.Pairwise fun left right => Value.Before left.1 right.1

theorem Ascending.updateGroup (ascending : Ascending groups) :
    Ascending (RowStore.updateGroup key change groups) := by
  induction groups with
  | nil => exact List.pairwise_singleton _ _
  | cons first rest ih =>
      obtain ⟨other, summary⟩ := first
      obtain ⟨first, later⟩ := List.pairwise_cons.mp ascending
      simp only [RowStore.updateGroup]
      split
      · next before =>
        have before := Value.compareOption_eq_lt.mp before
        refine List.pairwise_cons.mpr ⟨fun group listed => ?_, ascending⟩
        rcases List.mem_cons.mp listed with rfl | listed
        · exact before
        · exact before.trans (first group listed)
      · exact List.pairwise_cons.mpr ⟨first, later⟩
      · next after =>
        have after := Value.compareOption_eq_gt.mp after
        refine List.pairwise_cons.mpr ⟨fun group listed => ?_, ih later⟩
        rcases mem_updateGroup listed with same | ⟨before, found, same⟩
        · rw [same]
          exact after
        · rw [← same]
          exact first before found

theorem mem_updateGroup_of_ne (differs : group.1 ≠ key) :
    group ∈ updateGroup key change groups ↔ group ∈ groups := by
  have apart (summary : Summary) : group ≠ (key, summary) := fun same => differs (by rw [same])
  induction groups with
  | nil => simp [updateGroup, apart]
  | cons first rest ih =>
      obtain ⟨other, summary⟩ := first
      simp only [updateGroup]
      split
      · simp [apart]
      · next same =>
        rw [← Value.compareOption_eq_eq.mp same]
        simp [apart]
      · simp [ih]

/-- The group of the key is the one that was there, changed, or else a new one. -/
theorem mem_updateGroup_self (ascending : Ascending groups) {summary : Summary} :
    (key, summary) ∈ updateGroup key change groups ↔
      (∃ old, (key, old) ∈ groups ∧ summary = change old) ∨
        (∀ old, (key, old) ∉ groups) ∧ summary = change .empty := by
  induction groups with
  | nil => simp [updateGroup]
  | cons first rest ih =>
      obtain ⟨other, found⟩ := first
      obtain ⟨least, later⟩ := List.pairwise_cons.mp ascending
      -- A key that does not follow the first one is in none of the other groups.
      have absent (before : ¬ Value.Before other key) (old : Summary) : (key, old) ∉ rest :=
        fun listed => before (least _ listed)
      simp only [updateGroup]
      split
      · next before =>
        have before := Value.compareOption_eq_lt.mp before
        have differs : key ≠ other := by
          rintro rfl
          exact Value.Before.irrefl _ before
        have absent := absent fun after => Value.Before.irrefl _ (before.trans after)
        simp [differs, absent]
      · next same =>
        cases Value.compareOption_eq_eq.mp same
        have absent := absent (Value.Before.irrefl _)
        simp [absent]
      · next after =>
        have after := Value.compareOption_eq_gt.mp after
        have differs : key ≠ other := by
          rintro rfl
          exact Value.Before.irrefl _ after
        simp [differs, ih later]

/-- Ascending groups are told apart by what they contain. -/
theorem Ascending.ext {others : List Group} (ascending : Ascending groups)
    (also : Ascending others) (same : ∀ group, group ∈ groups ↔ group ∈ others) : groups = others := by
  have distinct {groups : List Group} (ascending : Ascending groups) : groups.Nodup := by
    refine List.Pairwise.imp ?_ ascending
    rintro left _ before rfl
    exact Value.Before.irrefl _ before
  refine List.Perm.eq_of_pairwise ?_ ascending also
    ((List.perm_ext_iff_of_nodup (distinct ascending) (distinct also)).mpr same)
  intro left right _ _ before after
  exact absurd (before.trans after) (Value.Before.irrefl _)

end Groups

/-! ## The groups of entries -/

section Entries

variable {measure : Measure} {entries : List Entry} {groups : List Group} {key : Option Value}

/-- One group for each key among the entries, with what its numbers add up to. -/
structure GroupsOf (measure : Measure) (entries : List Entry) (groups : List Group) : Prop where
  ascending : Ascending groups
  summary : ∀ key summary, (key, summary) ∈ groups ↔
    numbersOf key entries ≠ [] ∧ summary = measure.gather (numbersOf key entries)

theorem GroupsOf.empty (measure : Measure) : GroupsOf measure [] [] :=
  ⟨List.Pairwise.nil, by simp [numbersOf]⟩

theorem GroupsOf.add (grouped : GroupsOf measure entries groups) (key : Option Value)
    (number : Int32) :
    GroupsOf measure (entries ++ [(key, number)])
      (updateGroup key (fun summary => measure.add summary number) groups) := by
  refine ⟨grouped.ascending.updateGroup, fun other summary => ?_⟩
  by_cases same : other = key
  · subst same
    have added : numbersOf other (entries ++ [(other, number)]) = numbersOf other entries ++ [number] := by
      simp [numbersOf]
    rw [mem_updateGroup_self grouped.ascending, added, Measure.gather, List.foldl_append]
    simp only [grouped.summary]
    by_cases fresh : numbersOf other entries = []
    · simp [fresh]
    · simp [fresh, Measure.gather]
  · have kept : numbersOf other (entries ++ [(key, number)]) = numbersOf other entries := by
      simp [numbersOf, Ne.symm same]
    rw [mem_updateGroup_of_ne same, grouped.summary, kept]

theorem GroupsOf.mem_keys (grouped : GroupsOf measure entries groups) :
    key ∈ groups.map Prod.fst ↔ ∃ number, (key, number) ∈ entries := by
  have present : numbersOf key entries ≠ [] ↔ ∃ number, (key, number) ∈ entries := by
    simp [numbersOf, List.filter_eq_nil_iff]
  rw [← present, List.mem_map]
  constructor
  · rintro ⟨group, listed, rfl⟩
    exact ((grouped.summary _ _).mp listed).1
  · intro nonempty
    exact ⟨(key, measure.gather (numbersOf key entries)),
      (grouped.summary _ _).mpr ⟨nonempty, rfl⟩, rfl⟩

theorem Summary.add_comm (summary : Summary) (left right : Int32) :
    (summary.add left).add right = (summary.add right).add left := by
  simp only [add, Summary.mk.injEq]
  refine ⟨?_, ?_, Int.add_right_comm _ _ _, trivial⟩ <;> grind

theorem Measure.gather_perm (measure : Measure) {left right : List Int32} (same : left.Perm right) :
    measure.gather left = measure.gather right := by
  refine same.foldl_eq' (fun first _ second _ summary => ?_) _
  cases measure with
  | integers => exact (summary.add_comm first second)
  | rows => rfl

/-- The order of the entries does not matter. -/
theorem GroupsOf.perm {others : List Entry} {found : List Group} (same : entries.Perm others)
    (grouped : GroupsOf measure entries groups) (also : GroupsOf measure others found) :
    groups = found := by
  refine grouped.ascending.ext also.ascending fun ⟨key, summary⟩ => ?_
  have numbers : (numbersOf key entries).Perm (numbersOf key others) :=
    (same.filter _).map _
  have empty : numbersOf key entries = [] ↔ numbersOf key others = [] := by
    rw [← List.length_eq_zero_iff, numbers.length_eq, List.length_eq_zero_iff]
  rw [grouped.summary, also.summary, measure.gather_perm numbers, ne_eq, ne_eq, empty]

end Entries

/-! ## Feeding rows -/

namespace Aggregator

variable {aggregator : Aggregator} {row : Row} {rows others : List Row} {entry : Entry}

/-- The group that a row belongs to, if it has the column that groups are made by. -/
def key? (aggregator : Aggregator) (row : Row) : Option (Option Value) :=
  match aggregator.groupBy with
  | none => some none
  | some (column, _) => (row.value? column).map some

/-- The entry of a row that can be folded. -/
def entryOf? (aggregator : Aggregator) (row : Row) : Option Entry :=
  match aggregator.key? row, aggregator.measure.number? row with
  | some key, some number => some (key, number)
  | _, _ => none

def entries (aggregator : Aggregator) (rows : List Row) : List Entry :=
  rows.filterMap aggregator.entryOf?

/-- Merges the rows one after another. A row that is refused leaves the aggregator as it is. -/
def feed (aggregator : Aggregator) : List Row → Aggregator
  | [] => aggregator
  | row :: rows =>
      match aggregator.merge row with
      | .ok aggregator => aggregator.feed rows
      | .error _ => aggregator.feed rows

def addEntry (aggregator : Aggregator) (entry : Entry) : Aggregator :=
  { aggregator with
    groups := updateGroup entry.1 (fun summary => aggregator.measure.add summary entry.2)
      aggregator.groups }

theorem change_of_number {number : Int32} (found : aggregator.measure.number? row = some number) :
    aggregator.change row = .ok fun summary => aggregator.measure.add summary number := by
  unfold change
  cases measure : aggregator.measure with
  | rows => rfl
  | integers column =>
      simp only [measure, Measure.number?, Option.bind_eq_some_iff] at found
      obtain ⟨value, here, integer⟩ := found
      simp only [Row.at?, here, integer, Measure.add]

theorem change_of_no_number (absent : aggregator.measure.number? row = none) :
    ∃ error, aggregator.change row = .error error := by
  unfold change
  cases measure : aggregator.measure with
  | rows => simp [measure, Measure.number?] at absent
  | integers column =>
      simp only [measure, Measure.number?] at absent
      cases here : row.value? column with
      | none => exact ⟨.noSuchColumn column, by simp only [Row.at?, here]⟩
      | some value =>
          simp only [here, Option.bind_some] at absent
          exact ⟨.typeMismatch (.notInteger column), by simp only [Row.at?, here, absent]⟩

theorem key_of_key? {key : Option Value} (found : aggregator.key? row = some key) :
    aggregator.key row = .ok key := by
  unfold key? at found
  unfold Aggregator.key
  cases grouped : aggregator.groupBy with
  | none =>
      simp only [grouped, Option.some.injEq] at found
      rw [← found]
  | some group =>
      simp only [grouped] at found
      obtain ⟨value, here, rfl⟩ := Option.map_eq_some_iff.mp found
      simp only [Row.at?, here, Except.map]

theorem key_of_no_key? (absent : aggregator.key? row = none) :
    ∃ error, aggregator.key row = .error error := by
  unfold key? at absent
  unfold Aggregator.key
  cases grouped : aggregator.groupBy with
  | none => simp [grouped] at absent
  | some group =>
      simp only [grouped] at absent
      have missing : row.value? group.1 = none := Option.map_eq_none_iff.mp absent
      exact ⟨.noSuchColumn group.1, by simp only [Row.at?, missing, Except.map]⟩

theorem merge_of_entry (found : aggregator.entryOf? row = some entry) :
    aggregator.merge row = .ok (aggregator.addEntry entry) := by
  unfold entryOf? at found
  split at found
  · next key number keyed numbered =>
    cases found
    simp only [merge, change_of_number numbered, key_of_key? keyed, addEntry]
  · contradiction

/-- A row without the columns that are read is refused, whatever was folded before. -/
theorem merge_of_no_entry (absent : aggregator.entryOf? row = none) :
    ∃ error, aggregator.merge row = .error error := by
  unfold merge
  cases numbered : aggregator.measure.number? row with
  | none =>
      obtain ⟨error, refused⟩ := change_of_no_number numbered
      exact ⟨error, by simp only [refused]⟩
  | some number =>
      cases keyed : aggregator.key? row with
      | none =>
          obtain ⟨error, refused⟩ := key_of_no_key? keyed
          exact ⟨error, by simp only [change_of_number numbered, refused]⟩
      | some key => simp [entryOf?, numbered, keyed] at absent

theorem merge_eq_error_iff :
    (∃ error, aggregator.merge row = .error error) ↔ aggregator.entryOf? row = none := by
  refine ⟨fun ⟨error, refused⟩ => ?_, merge_of_no_entry⟩
  cases found : aggregator.entryOf? row with
  | none => rfl
  | some entry =>
      rw [merge_of_entry found] at refused
      contradiction

theorem feed_eq (aggregator : Aggregator) (rows : List Row) :
    aggregator.feed rows = (aggregator.entries rows).foldl addEntry aggregator := by
  induction rows generalizing aggregator with
  | nil => rfl
  | cons row rows ih =>
      cases found : aggregator.entryOf? row with
      | none =>
          obtain ⟨error, refused⟩ := merge_of_no_entry found
          simp only [feed, refused, ih, entries, List.filterMap_cons, found]
      | some entry =>
          simp only [feed, merge_of_entry found, ih, entries, List.filterMap_cons, found,
            List.foldl_cons]
          rfl

/-- What rows make of an aggregator that has folded none yet. -/
theorem groups_feed (fresh : aggregator.groups = []) (rows : List Row) :
    ∃ groups, aggregator.feed rows = { aggregator with groups } ∧
      GroupsOf aggregator.measure (aggregator.entries rows) groups := by
  rw [feed_eq]
  generalize aggregator.entries rows = entries
  induction entries using List.reverseRecOn with
  | nil => exact ⟨[], by rw [← fresh]; rfl, .empty _⟩
  | append_singleton entries entry ih =>
      obtain ⟨groups, folded, grouped⟩ := ih
      refine ⟨_, ?_, grouped.add entry.1 entry.2⟩
      rw [List.foldl_append, folded]
      rfl

/-- Whatever was folded, clearing brings back the aggregator that had folded none. -/
theorem clear_feed (fresh : aggregator.groups = []) (rows : List Row) :
    (aggregator.feed rows).clear = aggregator := by
  obtain ⟨groups, fed, _⟩ := groups_feed fresh rows
  rw [fed, clear, ← fresh]

/-- Refused rows leave no trace. -/
theorem feed_filter (aggregator : Aggregator) (rows : List Row) :
    aggregator.feed (rows.filter fun row => (aggregator.entryOf? row).isSome) = aggregator.feed rows := by
  rw [feed_eq, feed_eq, entries, entries, List.filterMap_filter]
  congr 2
  funext row
  cases aggregator.entryOf? row <;> rfl

theorem feed_perm (fresh : aggregator.groups = []) (same : rows.Perm others) :
    aggregator.feed rows = aggregator.feed others := by
  obtain ⟨groups, left, grouped⟩ := groups_feed fresh rows
  obtain ⟨found, right, also⟩ := groups_feed fresh others
  rw [left, right, grouped.perm (same.filterMap _) also]

end Aggregator
end RowStore
