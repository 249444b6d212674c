import RowStore.Row
import RowStore.Value.Codec
import RowStore.Page.Layout

namespace RowStore

/-! A page of a table in memory.

`slots` holds the values of each slot, or nothing where the slot is free; the
header bit of a slot says which. `before` is the image of the page when it was
last read or written, from which an abort restores it.
-/

structure Page where
  id : PageId
  schema : Schema
  size : Nat
  slots : List (Option (List Value))
  padding : List Bool
  dirty : Option TxId
  before : List UInt8
  deriving DecidableEq

namespace Page

def slotTotal (page : Page) : Nat := page.slots.length

def freeCount (page : Page) : Nat := page.slots.countP Option.isNone

def isFull (page : Page) : Bool := page.slots.all Option.isSome

def headerBits (page : Page) : List Bool := page.slots.map Option.isSome ++ page.padding

/-- The header bit of a slot; past the header it is unset. -/
def isUsed (page : Page) (slot : Nat) : Bool := (page.headerBits[slot]?).getD false

def rows (page : Page) : List Row :=
  page.slots.zipIdx.filterMap fun (slot, index) =>
    slot.map fun values => ⟨values, some ⟨page.id, index⟩⟩

def insert (page : Page) (row : Row) : Except StoreError (Page × RecordId) :=
  if row.types = page.schema.types then
    match page.slots.findIdx? Option.isNone with
    | some slot =>
        .ok ({ page with slots := page.slots.set slot (some row.values) }, ⟨page.id, slot⟩)
    | none => .error (.pageFull page.id)
  else .error (.schemaMismatch page.id.table)

/-- Frees the slot of a stored row. A header bit past the last slot can be set, and is unset
before the missing slot is noticed. -/
def delete (page : Page) (location : Option RecordId) : Page × Except StoreError Unit :=
  match location with
  | none => (page, .error .notStored)
  | some record =>
      if record.page = page.id then
        if page.isUsed record.slot then
          if record.slot < page.slots.length then
            ({ page with slots := page.slots.set record.slot none }, .ok ())
          else
            ({ page with padding := page.padding.set (record.slot - page.slots.length) false },
              .error .indexOutOfRange)
        else (page, .error (.slotEmpty page.id record.slot))
      else (page, .error (.foreignPage record.page))

def markDirty (page : Page) (owner : Option TxId) : Page := { page with dirty := owner }

def slotBytes (rowWidth : Nat) : Option (List Value) → List UInt8
  | some values => values.flatMap Value.encode
  | none => List.replicate rowWidth 0

def image (page : Page) : List UInt8 :=
  fitBytes page.size
    (bytesOfBits page.headerBits ++ page.slots.flatMap (slotBytes page.schema.rowWidth))

/-- From now on an abort restores the page to what it is now. -/
def keepImage (page : Page) : Page := { page with before := page.image }

end Page

def decodeValues : List ColumnType → List UInt8 → Except StoreError (List Value)
  | [], _ => .ok []
  | type :: types, bytes =>
      match type.decode bytes with
      | .error error => .error error
      | .ok value =>
          match decodeValues types (bytes.drop type.width) with
          | .error error => .error error
          | .ok values => .ok (value :: values)

/-- Reads the used slots; what a free slot holds is passed over. -/
def decodeSlots (types : List ColumnType) (rowWidth : Nat) :
    (used : List Bool) → List UInt8 → Except StoreError (List (Option (List Value)))
  | [], _ => .ok []
  | used :: others, bytes =>
      match if used then (decodeValues types bytes).map some else .ok none with
      | .error error => .error error
      | .ok slot =>
          match decodeSlots types rowWidth others (bytes.drop rowWidth) with
          | .error error => .error error
          | .ok slots => .ok (slot :: slots)

namespace Page

/-- Reads a page from bytes, which count as cut or filled up with zeros to the page's size. -/
def decode (id : PageId) (schema : Schema) (size : Nat) (data : List UInt8) :
    Except StoreError Page :=
  let image := fitBytes size data
  let slots := slotCount size schema.rowWidth
  let header := bitsOfBytes (image.take (headerSize slots))
  match decodeSlots schema.types schema.rowWidth (header.take slots)
      (image.drop (headerSize slots)) with
  | .error error => .error error
  | .ok contents => .ok ⟨id, schema, size, contents, header.drop slots, none, image⟩

/-- The page as it was when it was last read or written. -/
def restored (page : Page) : Except StoreError Page :=
  decode page.id page.schema page.size page.before

end Page

end RowStore
