import RowStore.Page

namespace RowStore

/-! A page of a table with its header as it is packed.

Whether a slot is used is kept twice here: as a bit in the bytes of the header, low
bit of a byte first, and by the cell of the slot, which holds a row or nothing. The
header is asked which slots are used, the cells are asked for the rows. A row carries
the place where it was put.
-/

def bitMask (slot : Nat) : UInt8 := 1 <<< UInt8.ofNat (slot % 8)

def maskByte (slot : Nat) (used : Bool) (byte : UInt8) : UInt8 :=
  if used then byte ||| bitMask slot else byte &&& ~~~bitMask slot

/-- The bit of a slot in the bytes of a header; past the header it is unset. -/
def hasBit (header : Array UInt8) (slot : Nat) : Bool :=
  header[slot / 8]?.any fun byte => byte &&& bitMask slot != 0

def Row.storedAt (row : Row) (record : RecordId) : Row := { row with location := some record }

structure BitmapPage where
  id : PageId
  schema : Schema
  size : Nat
  header : Array UInt8
  cells : List (Option Row)
  dirty : Option TxId
  before : List UInt8
  deriving DecidableEq

namespace BitmapPage

def slotTotal (page : BitmapPage) : Nat := page.cells.length

def isUsed (page : BitmapPage) (slot : Nat) : Bool := hasBit page.header slot

def freeCount (page : BitmapPage) : Nat :=
  (List.range page.slotTotal).countP fun slot => !page.isUsed slot

def rows (page : BitmapPage) : List Row := page.cells.filterMap fun cell => cell

def setUsed (page : BitmapPage) (slot : Nat) (used : Bool) : BitmapPage :=
  { page with header := page.header.modify (slot / 8) (maskByte slot used) }

def setCell (page : BitmapPage) (slot : Nat) (cell : Option Row) : BitmapPage :=
  { page with cells := page.cells.set slot cell }

def insert (page : BitmapPage) (row : Row) : Except StoreError (BitmapPage × RecordId) :=
  if row.types = page.schema.types then
    match (List.range page.slotTotal).find? fun slot => !page.isUsed slot with
    | some slot =>
        let record : RecordId := ⟨page.id, slot⟩
        .ok ((page.setUsed slot true).setCell slot (some (row.storedAt record)), record)
    | none => .error (.pageFull page.id)
  else .error (.schemaMismatch page.id.table)

/-- Frees the slot of a stored row. Its header bit is unset before its cell is looked for. -/
def delete (page : BitmapPage) (location : Option RecordId) : BitmapPage × Except StoreError Unit :=
  match location with
  | none => (page, .error .notStored)
  | some record =>
      if record.page = page.id then
        if page.isUsed record.slot then
          let unset := page.setUsed record.slot false
          if record.slot < unset.slotTotal then (unset.setCell record.slot none, .ok ())
          else (unset, .error .indexOutOfRange)
        else (page, .error (.slotEmpty page.id record.slot))
      else (page, .error (.foreignPage record.page))

def markDirty (page : BitmapPage) (owner : Option TxId) : BitmapPage := { page with dirty := owner }

def cellBytes (rowWidth : Nat) (cell : Option Row) : List UInt8 :=
  Page.slotBytes rowWidth (cell.map Row.values)

def image (page : BitmapPage) : List UInt8 :=
  fitBytes page.size (page.header.toList ++ page.cells.flatMap (cellBytes page.schema.rowWidth))

/-- From now on an abort restores the page to what it is now. -/
def keepImage (page : BitmapPage) : BitmapPage := { page with before := page.image }

/-- Reads the row of a slot whose header bit is set, and notes its place. -/
def decodeCell (id : PageId) (schema : Schema) (header : Array UInt8) (body : List UInt8)
    (slot : Nat) : Except StoreError (Option Row) :=
  if hasBit header slot then do
    let values ← decodeValues schema.types (body.drop (slot * schema.rowWidth))
    let row ← schema.row values
    .ok (some (row.storedAt ⟨id, slot⟩))
  else .ok none

/-- Reads a page from bytes, which count as cut or filled up with zeros to the page's size. -/
def decode (id : PageId) (schema : Schema) (size : Nat) (data : List UInt8) :
    Except StoreError BitmapPage := do
  let image := fitBytes size data
  let slots := slotCount size schema.rowWidth
  let header := (image.take (headerSize slots)).toArray
  let cells ← (List.range slots).mapM (decodeCell id schema header (image.drop (headerSize slots)))
  .ok ⟨id, schema, size, header, cells, none, image⟩

/-- The page as it was when it was last read or written. -/
def restored (page : BitmapPage) : Except StoreError BitmapPage :=
  decode page.id page.schema page.size page.before

end BitmapPage

end RowStore
