import RowStore.Database

namespace RowStore

/-! Where the file of a table is.

A name that is a single piece leads to an entry of the directory. With its extension
replaced it leads to another entry, which is the same one for names that agree up to
their extensions.
-/

section Split

variable {mark char : Char} {front rest piece : List Char} {pieces : List (List Char)}

theorem splitPieces_mark (mark : Char) (rest : List Char) :
    splitPieces mark (mark :: rest) = [] :: splitPieces mark rest := by
  rw [splitPieces]
  split
  · next none => exact absurd none (splitPieces_ne_nil mark rest)
  · next some => rw [if_pos rfl, some]

theorem splitPieces_of_ne (differs : char ≠ mark) (rest : List Char) :
    splitPieces mark (char :: rest) = (splitPieces mark rest).modifyHead (char :: ·) := by
  rw [splitPieces]
  split
  · next none => exact absurd none (splitPieces_ne_nil mark rest)
  · next some => rw [if_neg differs, some, List.modifyHead_cons]

theorem splitPieces_append (mark : Char) (front rest : List Char) :
    splitPieces mark (front ++ mark :: rest) = splitPieces mark front ++ splitPieces mark rest := by
  induction front with
  | nil => exact splitPieces_mark mark rest
  | cons char front ih =>
      rw [List.cons_append]
      by_cases same : char = mark
      · rw [same, splitPieces_mark, splitPieces_mark, ih, List.cons_append]
      · rw [splitPieces_of_ne same, splitPieces_of_ne same, ih]
        cases some : splitPieces mark front with
        | nil => exact absurd some (splitPieces_ne_nil mark front)
        | cons piece pieces => rfl

theorem splitPieces_of_not_mem (absent : mark ∉ piece) : splitPieces mark piece = [piece] := by
  induction piece with
  | nil => rfl
  | cons char rest ih =>
      rw [List.mem_cons, not_or] at absent
      rw [splitPieces_of_ne (Ne.symm absent.1), ih absent.2, List.modifyHead_cons]

theorem not_mem_of_mem_splitPieces {text : List Char} (listed : piece ∈ splitPieces mark text) :
    mark ∉ piece := by
  induction text generalizing piece with
  | nil =>
      rw [List.mem_singleton.mp listed]
      exact List.not_mem_nil
  | cons char rest ih =>
      by_cases same : char = mark
      · rw [same, splitPieces_mark] at listed
        rcases List.mem_cons.mp listed with rfl | later
        · exact List.not_mem_nil
        · exact ih later
      · rw [splitPieces_of_ne same] at listed
        cases some : splitPieces mark rest with
        | nil => exact absurd some (splitPieces_ne_nil mark rest)
        | cons first others =>
            rw [some] at ih listed
            rcases List.mem_cons.mp listed with rfl | later
            · rw [List.mem_cons, not_or]
              exact ⟨Ne.symm same, ih List.mem_cons_self⟩
            · exact ih (List.mem_cons_of_mem _ later)

/-- Pieces without the mark are found again in the text that they make up. -/
theorem splitPieces_intercalate (some : pieces ≠ []) (plain : ∀ piece ∈ pieces, mark ∉ piece) :
    splitPieces mark ([mark].intercalate pieces) = pieces := by
  induction pieces with
  | nil => exact absurd rfl some
  | cons piece pieces ih =>
      have first := splitPieces_of_not_mem (plain piece List.mem_cons_self)
      cases pieces with
      | nil => simpa [List.intercalate] using first
      | cons next others =>
          have later := ih (by simp) fun other listed => plain other (List.mem_cons_of_mem _ listed)
          have text : [mark].intercalate (piece :: next :: others) =
              piece ++ mark :: [mark].intercalate (next :: others) := by
            simp [List.intercalate]
          rw [text, splitPieces_append, first, later, List.singleton_append]

end Split

namespace Path

variable {directory : Path} {name : List Char}

/-- A name that is an entry of a directory. -/
structure Plain (name : List Char) : Prop where
  used : isIdle name = false
  inside : name ≠ upward
  single : '/' ∉ name

instance (name : List Char) : Decidable (Plain name) :=
  decidable_of_iff (isIdle name = false ∧ name ≠ upward ∧ '/' ∉ name)
    ⟨fun plain => ⟨plain.1, plain.2.1, plain.2.2⟩, fun plain => ⟨plain.used, plain.inside, plain.single⟩⟩

theorem mem_of_mem_stem {char : Char} (listed : char ∈ stem name) : char ∈ name := by
  unfold stem at listed
  split at listed
  · exact listed
  · exact listed
  · next dot before _ some =>
    have inside := List.mem_cons_of_mem dot (List.mem_reverse.mp listed)
    rw [← some] at inside
    exact List.mem_reverse.mp ((List.dropWhile_suffix _).subset inside)

/-- The name of the file of a table, in its directory. -/
def fileName (name : List Char) : List Char := stem name ++ '.' :: Database.fileExtension.toList

theorem fileName_inj {other : List Char} : fileName name = fileName other ↔ stem name = stem other :=
  List.append_left_inj _

theorem plain_fileName (single : '/' ∉ name) : Plain (fileName name) := by
  have long : 4 ≤ (fileName name).length := by
    rw [fileName, List.length_append]
    exact Nat.le_add_left 4 _
  refine ⟨?_, ?_, ?_⟩
  · rw [isIdle, Bool.or_eq_false_iff, decide_eq_false_iff_not, decide_eq_false_iff_not]
    constructor <;> intro same <;> simp [same] at long
  · intro same
    simp [same, upward] at long
  · intro listed
    rcases List.mem_append.mp listed with inside | behind
    · exact single (mem_of_mem_stem inside)
    · revert behind
      decide

/-- What a path goes through before its last piece. -/
theorem steps_eq (path : Path) :
    path.steps = (path.pieces.filter fun piece => !isIdle piece).map String.ofList := rfl

theorem pieces_join (directory : Path) (plain : Plain name) :
    ∃ before, (directory.join (String.ofList name)).pieces = before ++ [name] ∧
      before.filter (fun piece => !isIdle piece) = directory.pieces.filter (fun piece => !isIdle piece) ∧
      ∀ piece ∈ before, '/' ∉ piece := by
  have last := splitPieces_of_not_mem plain.single
  unfold join
  split
  · next rest text =>
    rw [String.toList_ofList] at text
    exact absurd (text ▸ List.mem_cons_self) plain.single
  · rw [String.toList_ofList]
    split
    · next ends =>
      obtain ⟨front, text⟩ := List.getLast?_eq_some_iff.mp ends
      refine ⟨splitPieces '/' front, ?_, ?_, fun piece listed => not_mem_of_mem_splitPieces listed⟩
      · rw [pieces, text, List.append_assoc, List.singleton_append, splitPieces_append, last]
      · rw [pieces, text, splitPieces_append, List.filter_append]
        exact (List.append_nil _).symm
    · exact ⟨directory.pieces, by rw [pieces, splitPieces_append, last, pieces], rfl,
        fun piece listed => not_mem_of_mem_splitPieces listed⟩

theorem endsInName_of_pieces {path : Path} {before : List (List Char)} (ends : path.pieces = before ++ [name]) :
    path.endsInName = (!isIdle name && decide (name ≠ upward)) := by
  rw [endsInName, ends, List.getLast?_concat, Option.any_some]

/-- The path of the file of a table. Of a name whose stem is a dot nothing is left but the way up. -/
theorem pieces_withExtension (directory : Path) (plain : Plain name) :
    ∃ before, before.filter (fun piece => !isIdle piece) = directory.pieces.filter (fun piece => !isIdle piece) ∧
      ((directory.join (String.ofList name)).withExtension Database.fileExtension).pieces =
        before ++ [if stem name = ['.'] then upward else fileName name] := by
  obtain ⟨before, joined, same, single⟩ := pieces_join directory plain
  have ends : (directory.join (String.ofList name)).endsInName = true := by
    rw [endsInName_of_pieces joined, plain.used]
    simpa using plain.inside
  refine ⟨before, same, ?_⟩
  have drops : (directory.join (String.ofList name)).pieces.reverse.dropWhile isIdle = name :: before.reverse := by
    rw [joined, List.reverse_append, List.reverse_singleton, List.singleton_append,
      List.dropWhile_cons_of_neg (by simp [plain.used])]
  rw [withExtension]
  simp only [drops, if_neg plain.inside, ends, and_true]
  rw [List.reverse_cons, List.reverse_reverse, pieces]
  refine splitPieces_intercalate (by simp) fun piece listed => ?_
  rcases List.mem_append.mp listed with early | last
  · exact single piece early
  · rw [List.mem_singleton.mp last]
    split
    · decide
    · exact (plain_fileName plain.single).single

end Path

/-! ## Places -/

/-- The place that steps lead to. -/
def Place.along (place : Place) : List String → Place
  | [] => place
  | step :: rest => (if step = ".." then place.parent else place.child step).along rest

theorem Place.along_append (place : Place) (early late : List String) :
    place.along (early ++ late) = (place.along early).along late := by
  induction early generalizing place with
  | nil => rfl
  | cons step rest ih => exact ih _

theorem Place.child_inj {place : Place} {name other : String} :
    place.child name = place.child other ↔ name = other := by
  simp [child]

variable {disk after : Disk} {place : Place} {path directory : Path} {name other : String} {handle : Handle}

/-- Where a path leads does not depend on what is there, if it leads anywhere. -/
theorem Disk.follow_eq {start : Place} {steps : List String} (found : disk.follow start steps = .ok place) :
    place = start.along steps := by
  induction steps generalizing start with
  | nil => exact (Except.ok.inj found).symm
  | cons step rest ih =>
      unfold Disk.follow at found
      unfold Place.along
      split at found
      · next up =>
        rw [if_pos up]
        exact ih found
      · next down =>
        rw [if_neg down]
        split at found
        · split at found
          · next last =>
            rw [List.isEmpty_iff.mp last]
            exact (Except.ok.inj found).symm
          · split at found
            · exact ih found
            · contradiction
        · contradiction

/-- Where the file of a table is. -/
def Path.home (directory : Path) (name : String) : Place :=
  (Place.root.along directory.steps).child (String.ofList (fileName name.toList))

theorem Path.home_inj : directory.home name = directory.home other ↔ stem name.toList = stem other.toList := by
  rw [home, home, Place.child_inj, ← fileName_inj]
  exact ⟨fun same => by simpa using congrArg String.toList same, fun same => by rw [same]⟩

theorem Disk.resolve_tablePath (plain : Path.Plain name.toList)
    (found : disk.resolve ((directory.join name).withExtension Database.fileExtension) = .ok place) :
    place = directory.home name := by
  obtain ⟨before, same, pieces⟩ := Path.pieces_withExtension directory plain
  rw [String.ofList_toList] at pieces
  unfold resolve at found
  split at found
  · next allowed =>
    have ends := Path.endsInName_of_pieces pieces
    rw [allowed.1] at ends
    by_cases dot : Path.stem name.toList = ['.']
    · rw [if_pos dot] at ends
      simp at ends
    · rw [if_neg dot] at pieces
      have file := Path.plain_fileName plain.single
      have differs : String.ofList (Path.fileName name.toList) ≠ ".." := fun up => file.inside (by
        simpa [Path.upward] using congrArg String.toList up)
      have steps : (directory.join name |>.withExtension Database.fileExtension).steps =
          directory.steps ++ [String.ofList (Path.fileName name.toList)] := by
        simp [Path.steps_eq, pieces, List.filter_append, same, file.used]
      rw [follow_eq found, steps, Place.along_append, Path.home]
      simp only [Place.along, if_neg differs]
  · contradiction

end RowStore
