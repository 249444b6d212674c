import RowStore.Text.Utf8

namespace RowStore

/-! Paths as they are written, and the places that they lead to.

A path is a text of pieces between slashes. Empty pieces and `.` lead nowhere and
`..` leads up, so that many paths lead to one place. A path that ends in one of
these three means a directory, and a path that ends in a name may mean a file.
-/

/-- The pieces between the marks; one more than there are marks. -/
def splitPieces (mark : Char) : List Char → List (List Char)
  | [] => [[]]
  | char :: rest =>
      match splitPieces mark rest with
      | [] => [[char]]
      | piece :: pieces =>
          if char = mark then [] :: piece :: pieces else (char :: piece) :: pieces

theorem splitPieces_ne_nil (mark : Char) (text : List Char) : splitPieces mark text ≠ [] := by
  cases text with
  | nil => simp [splitPieces]
  | cons char rest =>
      unfold splitPieces
      split
      · simp
      · split <;> simp

structure Place where
  names : List String
  deriving DecidableEq

namespace Place

def root : Place := ⟨[]⟩

def child (place : Place) (name : String) : Place := ⟨place.names ++ [name]⟩

def parent (place : Place) : Place := ⟨place.names.dropLast⟩

def display (place : Place) : String := "/" ++ "/".intercalate place.names

end Place

structure Path where
  text : List Char
  deriving DecidableEq

namespace Path

def ofText (text : String) : Path := ⟨text.toList⟩

/-- Follows a text from a directory. An absolute text does not depend on the directory. -/
def join (path : Path) (text : String) : Path :=
  match text.toList with
  | '/' :: rest => ⟨'/' :: rest⟩
  | relative =>
      if path.text.getLast? = some '/' then ⟨path.text ++ relative⟩
      else ⟨path.text ++ '/' :: relative⟩

def byteCount (path : Path) : Nat := Text.byteCount path.text

def pieces (path : Path) : List (List Char) := splitPieces '/' path.text

/-- A piece that leads nowhere. -/
def isIdle (piece : List Char) : Bool := piece = [] || piece = ['.']

def upward : List Char := ['.', '.']

/-- What the path goes through, from the root on: names, and `..`. -/
def steps (path : Path) : List String :=
  (path.pieces.filter fun piece => !isIdle piece).map String.ofList

def endsInName (path : Path) : Bool :=
  path.pieces.getLast?.any fun piece => !isIdle piece && piece ≠ upward

/-- A name without its extension. A dot in front begins no extension. -/
def stem (name : List Char) : List Char :=
  match name.reverse.dropWhile fun char => char ≠ '.' with
  | [] => name
  | [_] => name
  | _ :: before => before.reverse

/-- Replaces the extension of the last name, and drops what leads nowhere behind it. A path that
leads up or to the root stays. The old extension is cut off the end of the text first, which leaves
`..` of a path that ends in `..x`; that one then leads up. -/
def withExtension (path : Path) (extension : String) : Path :=
  match path.pieces.reverse.dropWhile isIdle with
  | [] => path
  | name :: before =>
      if name = upward then path
      else
        let stem := stem name
        let last :=
          if stem = ['.'] ∧ path.endsInName then upward else stem ++ '.' :: extension.toList
        ⟨['/'].intercalate (last :: before).reverse⟩

end Path

end RowStore
