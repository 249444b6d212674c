import RowStore.Disk.Path
import RowStore.Error
import RowStore.FinMap

namespace RowStore

/-! The files that tables are kept in.

Names stand for directories, for files, or for the full device, which holds
nothing and takes nothing. What a name stands for never changes. Writes to files
can be made to fail, at once or after some more of them went well.
-/

inductive Node where
  | directory
  | file (number : Nat)
  | fullDevice
  deriving DecidableEq

inductive Handle where
  | file (number : Nat)
  | fullDevice
  deriving DecidableEq

structure Disk where
  nodes : FinMap Place Node
  contents : FinMap Nat (List UInt8)
  nextFile : Nat
  failWrites : Bool
  /-- How many writes go well before they fail. -/
  writesLeft : Nat

namespace Disk

def empty : Disk := ⟨.empty, .empty, 0, false, 0⟩

instance : Inhabited Disk := ⟨empty⟩

/-- The longest name of a directory entry in bytes. -/
def nameCapacity : Nat := 255

/-- The longest path in bytes, as it is written. -/
def pathCapacity : Nat := 4095

def fullDevicePlace : Place := ⟨["dev", "full"]⟩

def nameAllowed (name : String) : Bool :=
  decide (Text.byteCount name.toList ≤ nameCapacity) && !name.toList.contains '\x00'

def node? (disk : Disk) (place : Place) : Option Node :=
  if place.names.isEmpty then some .directory else disk.nodes.get? place

/-- The place that the steps lead to. What the last step names need not exist. -/
def follow (disk : Disk) (place : Place) : List String → Except StoreError Place
  | [] => .ok place
  | step :: rest =>
      if step = ".." then disk.follow place.parent rest
      else if nameAllowed step then
        if rest.isEmpty then .ok (place.child step)
        else
          match disk.node? (place.child step) with
          | some .directory => disk.follow (place.child step) rest
          | _ => .error .storage
      else .error .storage

def resolve (disk : Disk) (path : Path) : Except StoreError Place :=
  if path.endsInName ∧ path.byteCount ≤ pathCapacity then disk.follow .root path.steps
  else .error .storage

def createFile (disk : Disk) (place : Place) : Disk × Handle :=
  ({ disk with
      nodes := disk.nodes.insert place (.file disk.nextFile)
      contents := disk.contents.insert disk.nextFile []
      nextFile := disk.nextFile + 1 },
    .file disk.nextFile)

/-- Opens a file, creating it if the name is free, and tells the one place of what was opened. -/
def openOrCreate (disk : Disk) (path : Path) : Except StoreError (Disk × Handle × Place) :=
  match disk.resolve path with
  | .error error => .error error
  | .ok place =>
      match disk.node? place with
      | some .directory => .error .storage
      | some (.file number) => .ok (disk, .file number, place)
      | some .fullDevice => .ok (disk, .fullDevice, fullDevicePlace)
      | none =>
          let (disk, handle) := disk.createFile place
          .ok (disk, handle, place)

def makeAlong (disk : Disk) (place : Place) : List String → Except StoreError Disk
  | [] => .ok disk
  | step :: rest =>
      if step = ".." then disk.makeAlong place.parent rest
      else
        match disk.node? (place.child step) with
        | some .directory => disk.makeAlong (place.child step) rest
        | some _ => .error .storage
        | none =>
            if nameAllowed step then
              { disk with nodes := disk.nodes.insert (place.child step) .directory }.makeAlong
                (place.child step) rest
            else .error .storage

def makeDirectories (disk : Disk) (path : Path) : Except StoreError Disk :=
  disk.makeAlong .root path.steps

def bytes (disk : Disk) : Handle → List UInt8
  | .file number => (disk.contents.get? number).getD []
  | .fullDevice => []

/-- As many of `count` bytes from `offset` on as the file holds. -/
def read (disk : Disk) (handle : Handle) (offset count : Nat) : List UInt8 :=
  ((disk.bytes handle).drop offset).take count

/-- Puts bytes at an offset; a gap before them is filled with zeros. -/
def overwrite (old : List UInt8) (offset : Nat) (new : List UInt8) : List UInt8 :=
  old.take offset ++ List.replicate (offset - old.length) 0 ++ new ++ old.drop (offset + new.length)

def refuses (disk : Disk) : Bool := disk.failWrites && disk.writesLeft = 0

def write (disk : Disk) (handle : Handle) (offset : Nat) (new : List UInt8) :
    Except StoreError Disk :=
  match handle with
  | .fullDevice => .error .storage
  | .file number =>
      if disk.refuses then .error .storage
      else
        .ok { disk with
          contents := disk.contents.insert number (overwrite (disk.bytes handle) offset new)
          writesLeft := disk.writesLeft - 1 }

def setContents (disk : Disk) (number : Nat) (new : List UInt8) : Disk :=
  { disk with contents := disk.contents.insert number new }

def fileBytes (disk : Disk) (path : Path) : Except StoreError (List UInt8) :=
  match disk.resolve path with
  | .error error => .error error
  | .ok place =>
      match disk.node? place with
      | some (.file number) => .ok (disk.bytes (.file number))
      | some .fullDevice => .ok []
      | _ => .error .storage

/-- Replaces all bytes of a named file, which is created if need be. A write that fails leaves the
file empty. -/
def replaceFile (disk : Disk) (path : Path) (new : List UInt8) : Disk × Except StoreError Unit :=
  match disk.openOrCreate path with
  | .error error => (disk, .error error)
  | .ok (disk, .fullDevice, _) => (disk, if new.isEmpty then .ok () else .error .storage)
  | .ok (disk, .file number, _) =>
      if disk.refuses && !new.isEmpty then (disk.setContents number [], .error .storage)
      else (disk.setContents number new, .ok ())

def linkFull (disk : Disk) (path : Path) : Except StoreError Disk :=
  match disk.resolve path with
  | .error error => .error error
  | .ok place =>
      match disk.node? place with
      | some _ => .error .storage
      | none => .ok { disk with nodes := disk.nodes.insert place .fullDevice }

end Disk

end RowStore
