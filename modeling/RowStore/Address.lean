namespace RowStore

/-! Where things are: tables, pages, rows, and who asks for them. -/

abbrev TableId := UInt64

/-- Lower case hexadecimal without leading zeros. -/
def hexText (number : Nat) : String := String.ofList (Nat.toDigits 16 number)

structure TxId where
  number : Nat
  deriving DecidableEq, Repr

def TxId.display (tx : TxId) : String := s!"tx{tx.number}"

/-- A page by its table and its position in the table's file. -/
structure PageId where
  table : TableId
  number : Nat
  deriving DecidableEq, Repr

namespace PageId

def display (page : PageId) : String :=
  "[" ++ hexText page.table.toNat ++ "/" ++ toString page.number ++ "]"

def next (page : PageId) : PageId := ⟨page.table, page.number + 1⟩

def compare (left right : PageId) : Ordering :=
  (Ord.compare left.table.toNat right.table.toNat).then (Ord.compare left.number right.number)

end PageId

/-- A stored row by its page and its slot there. -/
structure RecordId where
  page : PageId
  slot : Nat
  deriving DecidableEq, Repr

def RecordId.display (record : RecordId) : String :=
  "RecordId(" ++ record.page.display ++ "," ++ toString record.slot ++ ")"

end RowStore
