namespace RowStore

/-! Reading JSON text.

The reader keeps what the settings and ids of a store need to know of a text:
which numbers are natural, and which strings hold text. A string can be well
formed and still hold none, when its escapes pair surrogates wrongly.
-/

inductive JsonValue where
  | null
  | bool (value : Bool)
  | natural (value : Nat)
  /-- A number with a sign, a fraction or an exponent. -/
  | otherNumber
  | string (text : Option String)
  | array (items : List JsonValue)
  | object (members : List (Option String × JsonValue))

namespace Json

def isBlank (char : Char) : Bool := char = ' ' || char = '\t' || char = '\n' || char = '\r'

def skipBlank (chars : List Char) : List Char := chars.dropWhile isBlank

def afterWord? : (word chars : List Char) → Option (List Char)
  | [], chars => some chars
  | mark :: word, char :: chars => if mark = char then afterWord? word chars else none
  | _ :: _, [] => none

def naturalOf (digits : List Char) : Nat :=
  digits.foldl (fun value digit => value * 10 + (digit.toNat - '0'.toNat)) 0

def digits? (chars : List Char) : Option (List Char × List Char) :=
  match chars.takeWhile Char.isDigit with
  | [] => none
  | digits => some (digits, chars.dropWhile Char.isDigit)

/-- The digits before the point: there is no zero in front of other digits. -/
def wholePart? (chars : List Char) : Option (List Char × List Char) :=
  match digits? chars with
  | some ('0' :: _ :: _, _) => none
  | found => found

/-- What follows the fraction; tells whether there is one. -/
def afterFraction? (chars : List Char) : Option (Bool × List Char) :=
  match chars with
  | '.' :: rest => (digits? rest).map fun found => (true, found.2)
  | _ => some (false, chars)

def afterSign : List Char → List Char
  | '+' :: rest => rest
  | '-' :: rest => rest
  | chars => chars

/-- What follows the exponent; tells whether there is one. -/
def afterExponent? (chars : List Char) : Option (Bool × List Char) :=
  match chars with
  | 'e' :: rest => (digits? (afterSign rest)).map fun found => (true, found.2)
  | 'E' :: rest => (digits? (afterSign rest)).map fun found => (true, found.2)
  | _ => some (false, chars)

def number? (chars : List Char) : Option (JsonValue × List Char) :=
  let (negative, unsigned) :=
    match chars with
    | '-' :: rest => (true, rest)
    | _ => (false, chars)
  match wholePart? unsigned with
  | none => none
  | some (digits, rest) =>
      match afterFraction? rest with
      | none => none
      | some (fraction, rest) =>
          match afterExponent? rest with
          | none => none
          | some (exponent, rest) =>
              if negative || fraction || exponent then some (.otherNumber, rest)
              else some (.natural (naturalOf digits), rest)

def hexDigit? (char : Char) : Option Nat :=
  if char.isDigit then some (char.toNat - '0'.toNat)
  else if 'a' ≤ char ∧ char ≤ 'f' then some (char.toNat - 'a'.toNat + 10)
  else if 'A' ≤ char ∧ char ≤ 'F' then some (char.toNat - 'A'.toNat + 10)
  else none

/-- The code unit that four hexadecimal digits write. -/
def codeUnit? (a b c d : Char) : Option Nat :=
  match hexDigit? a, hexDigit? b, hexDigit? c, hexDigit? d with
  | some a, some b, some c, some d => some (((a * 16 + b) * 16 + c) * 16 + d)
  | _, _, _, _ => none

def escaped? : Char → Option Char
  | '"' => some '"'
  | '\\' => some '\\'
  | '/' => some '/'
  | 'b' => some '\x08'
  | 'f' => some '\x0c'
  | 'n' => some '\n'
  | 'r' => some '\r'
  | 't' => some '\t'
  | _ => none

/-- The text of a string up to its closing quote, if it holds one, and what follows. -/
abbrev StringRead := Option (Option (List Char) × List Char)

/-- Puts a character before the text; a surrogate that waits for its second half has lost it. -/
def addChar (high : Option Nat) (char : Char) (read : StringRead) : StringRead :=
  read.map fun (text, rest) => (if high.isSome then none else text.map (char :: ·), rest)

def dropText (read : StringRead) : StringRead := read.map fun (_, rest) => (none, rest)

/-- Reads the rest of a string. `high` is the first half of a surrogate pair. -/
def stringRest? (high : Option Nat) : List Char → StringRead
  | [] => none
  | '"' :: rest => some (if high.isSome then none else some [], rest)
  | '\\' :: 'u' :: a :: b :: c :: d :: rest =>
      match codeUnit? a b c d with
      | none => none
      | some unit =>
          match high with
          | some first =>
              if 0xDC00 ≤ unit ∧ unit ≤ 0xDFFF then
                addChar none (Char.ofNat (0x10000 + (first - 0xD800) * 0x400 + (unit - 0xDC00)))
                  (stringRest? none rest)
              else dropText (stringRest? none rest)
          | none =>
              if 0xD800 ≤ unit ∧ unit ≤ 0xDBFF then stringRest? (some unit) rest
              else if 0xDC00 ≤ unit ∧ unit ≤ 0xDFFF then dropText (stringRest? none rest)
              else addChar none (Char.ofNat unit) (stringRest? none rest)
  | '\\' :: mark :: rest =>
      match escaped? mark with
      | some char => addChar high char (stringRest? none rest)
      | none => none
  | char :: rest =>
      if char.toNat < 0x20 ∨ char = '\\' then none else addChar high char (stringRest? none rest)

mutual

def value? : (fuel : Nat) → List Char → Option (JsonValue × List Char)
  | 0, _ => none
  | fuel + 1, chars =>
      match skipBlank chars with
      | [] => none
      | 'n' :: rest => (afterWord? ['u', 'l', 'l'] rest).map fun rest => (.null, rest)
      | 't' :: rest => (afterWord? ['r', 'u', 'e'] rest).map fun rest => (.bool true, rest)
      | 'f' :: rest => (afterWord? ['a', 'l', 's', 'e'] rest).map fun rest => (.bool false, rest)
      | '"' :: rest =>
          (stringRest? none rest).map fun (text, rest) => (.string (text.map String.ofList), rest)
      | '[' :: rest =>
          match skipBlank rest with
          | ']' :: rest => some (.array [], rest)
          | rest => (items? fuel rest).map fun (items, rest) => (.array items, rest)
      | '\x7b' :: rest =>
          match skipBlank rest with
          | '\x7d' :: rest => some (.object [], rest)
          | rest => (members? fuel rest).map fun (members, rest) => (.object members, rest)
      | chars => number? chars

def items? : (fuel : Nat) → List Char → Option (List JsonValue × List Char)
  | 0, _ => none
  | fuel + 1, chars =>
      match value? fuel chars with
      | none => none
      | some (item, rest) =>
          match skipBlank rest with
          | ']' :: rest => some ([item], rest)
          | ',' :: rest => (items? fuel rest).map fun (items, rest) => (item :: items, rest)
          | _ => none

def members? : (fuel : Nat) → List Char → Option (List (Option String × JsonValue) × List Char)
  | 0, _ => none
  | fuel + 1, chars =>
      match skipBlank chars with
      | '"' :: rest =>
          match stringRest? none rest with
          | none => none
          | some (name, rest) =>
              match skipBlank rest with
              | ':' :: rest =>
                  match value? fuel rest with
                  | none => none
                  | some (value, rest) =>
                      let member := (name.map String.ofList, value)
                      match skipBlank rest with
                      | '\x7d' :: rest => some ([member], rest)
                      | ',' :: rest =>
                          (members? fuel rest).map fun (members, rest) => (member :: members, rest)
                      | _ => none
              | _ => none
      | _ => none

end

/-- Reads a text that holds one value and nothing else. -/
def read? (text : String) : Option JsonValue :=
  match value? (2 * text.length + 2) text.toList with
  | none => none
  | some (value, rest) => if (skipBlank rest).isEmpty then some value else none

end Json

end RowStore
