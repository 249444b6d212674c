import RowStore.Disk
import RowStore.Hash.Xxh3
import RowStore.Page

namespace RowStore

/-! The file of a table: its pages back to back.

Page `n` stands at byte `n * pageSize`. Pages are appended and never taken away.
The page just past the end can be read, so that a row can be put there.
-/

structure TableFile where
  id : TableId
  place : Place
  handle : Handle
  schema : Schema
  pageSize : Nat
  pageCount : Nat
  deriving DecidableEq

namespace TableFile

/-- A table is known by the hash of its place. -/
def idOfPlace (place : Place) : TableId := Hash.xxh3 (Text.encode place.display.toList)

/-- Opens the file of a table, creating it if there is none. Pages that have no room for a row are
refused before the file is touched. -/
def openAt (disk : Disk) (path : Path) (schema : Schema) (pageSize : Nat) :
    Except StoreError (Disk × TableFile) :=
  if slotCount pageSize schema.rowWidth = 0 then .error (.pageTooSmall pageSize schema.rowWidth)
  else
    match disk.openOrCreate path with
    | .error error => .error error
    | .ok (disk, handle, place) =>
        .ok (disk,
          { id := idOfPlace place, place, handle, schema, pageSize,
            pageCount := (disk.bytes handle).length / pageSize })

def pageId (file : TableFile) (number : Nat) : PageId := ⟨file.id, number⟩

/-- Reads a page; bytes that were never written read as zeros. -/
def readPage (file : TableFile) (disk : Disk) (page : PageId) : Except StoreError Page :=
  if page.table = file.id then
    if page.number ≤ file.pageCount then
      Page.decode page file.schema file.pageSize
        (disk.read file.handle (page.number * file.pageSize) file.pageSize)
    else .error (.pageOutOfBounds page file.pageCount)
  else .error (.foreignPage page)

/-- Writes a page back. A page past the end is passed over: only appending makes a file longer. -/
def writePage (file : TableFile) (disk : Disk) (page : Page) : Except StoreError Disk :=
  if page.id.table = file.id then
    if page.id.number < file.pageCount then
      disk.write file.handle (page.id.number * file.pageSize) page.image
    else .ok disk
  else .error (.foreignPage page.id)

/-- Makes the file one page of zeros longer, when the page is the one just past the end. For any
other page the file has grown since, or is not there yet, and stays as it is. -/
def appendPage (file : TableFile) (disk : Disk) (number : Nat) :
    Except StoreError (Disk × TableFile) :=
  if number = file.pageCount then
    match disk.write file.handle (number * file.pageSize) (List.replicate file.pageSize 0) with
    | .error error => .error error
    | .ok disk => .ok (disk, { file with pageCount := number + 1 })
  else .ok (disk, file)

end TableFile

end RowStore
