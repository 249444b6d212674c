namespace RowStore.Hash

/-! The 64-bit XXH3 hash with seed zero.

Inputs up to 240 bytes are mixed in a few overlapping pieces chosen by length;
longer ones go through eight accumulators, 64 bytes at a time.
-/

def prime32a : UInt64 := 0x9E3779B1
def prime32b : UInt64 := 0x85EBCA77
def prime32c : UInt64 := 0xC2B2AE3D
def prime64a : UInt64 := 0x9E3779B185EBCA87
def prime64b : UInt64 := 0xC2B2AE3D27D4EB4F
def prime64c : UInt64 := 0x165667B19E3779F9
def prime64d : UInt64 := 0x85EBCA77C2B2AE63
def prime64e : UInt64 := 0x27D4EB2F165667C5
def mixerA : UInt64 := 0x165667919E3779F9
def mixerB : UInt64 := 0x9FB21C651E98DF25

def secret : Array UInt8 := #[
  0xb8, 0xfe, 0x6c, 0x39, 0x23, 0xa4, 0x4b, 0xbe, 0x7c, 0x01, 0x81, 0x2c, 0xf7, 0x21, 0xad, 0x1c,
  0xde, 0xd4, 0x6d, 0xe9, 0x83, 0x90, 0x97, 0xdb, 0x72, 0x40, 0xa4, 0xa4, 0xb7, 0xb3, 0x67, 0x1f,
  0xcb, 0x79, 0xe6, 0x4e, 0xcc, 0xc0, 0xe5, 0x78, 0x82, 0x5a, 0xd0, 0x7d, 0xcc, 0xff, 0x72, 0x21,
  0xb8, 0x08, 0x46, 0x74, 0xf7, 0x43, 0x24, 0x8e, 0xe0, 0x35, 0x90, 0xe6, 0x81, 0x3a, 0x26, 0x4c,
  0x3c, 0x28, 0x52, 0xbb, 0x91, 0xc3, 0x00, 0xcb, 0x88, 0xd0, 0x65, 0x8b, 0x1b, 0x53, 0x2e, 0xa3,
  0x71, 0x64, 0x48, 0x97, 0xa2, 0x0d, 0xf9, 0x4e, 0x38, 0x19, 0xef, 0x46, 0xa9, 0xde, 0xac, 0xd8,
  0xa8, 0xfa, 0x76, 0x3f, 0xe3, 0x9c, 0x34, 0x3f, 0xf9, 0xdc, 0xbb, 0xc7, 0xc7, 0x0b, 0x4f, 0x1d,
  0x8a, 0x51, 0xe0, 0x4b, 0xcd, 0xb4, 0x59, 0x31, 0xc8, 0x9f, 0x7e, 0xc9, 0xd9, 0x78, 0x73, 0x64,
  0xea, 0xc5, 0xac, 0x83, 0x34, 0xd3, 0xeb, 0xc3, 0xc5, 0x81, 0xa0, 0xff, 0xfa, 0x13, 0x63, 0xeb,
  0x17, 0x0d, 0xdd, 0x51, 0xb7, 0xf0, 0xda, 0x49, 0xd3, 0x16, 0x55, 0x26, 0x29, 0xd4, 0x68, 0x9e,
  0x2b, 0x16, 0xbe, 0x58, 0x7d, 0x47, 0xa1, 0xfc, 0x8f, 0xf8, 0xb8, 0xd1, 0x7a, 0xd0, 0x31, 0xce,
  0x45, 0xcb, 0x3a, 0x8f, 0x95, 0x16, 0x04, 0x28, 0xaf, 0xd7, 0xfb, 0xca, 0xbb, 0x4b, 0x40, 0x7e]

def byteAt (bytes : Array UInt8) (offset : Nat) : UInt64 := (bytes.getD offset 0).toUInt64

/-- Some bytes as a number, low byte first. -/
def number (bytes : Array UInt8) (offset : Nat) : (count : Nat) → UInt64
  | 0 => 0
  | count + 1 => byteAt bytes offset ||| (number bytes (offset + 1) count <<< 8)

def word32 (bytes : Array UInt8) (offset : Nat) : UInt64 := number bytes offset 4

def word64 (bytes : Array UInt8) (offset : Nat) : UInt64 := number bytes offset 8

def rotateLeft (word amount : UInt64) : UInt64 := (word <<< amount) ||| (word >>> (64 - amount))

def swapBytes (word : UInt64) : UInt64 :=
  (List.range 8).foldl (fun swapped index =>
    (swapped <<< 8) ||| ((word >>> UInt64.ofNat (8 * index)) &&& 0xFF)) 0

/-- The two halves of the full product, folded onto each other. -/
def foldedProduct (left right : UInt64) : UInt64 :=
  let product := left.toNat * right.toNat
  UInt64.ofNat product ^^^ UInt64.ofNat (product / UInt64.size)

def shiftMix (word amount : UInt64) : UInt64 := word ^^^ (word >>> amount)

def avalanche (word : UInt64) : UInt64 := shiftMix (shiftMix word 37 * mixerA) 32

/-- The final mix of inputs of at most three bytes. -/
def shortAvalanche (word : UInt64) : UInt64 :=
  shiftMix (shiftMix (shiftMix word 33 * prime64b) 29 * prime64c) 32

def hashUpTo3 (bytes : Array UInt8) : UInt64 :=
  let size := bytes.size
  let combined := (byteAt bytes 0 <<< 16) ||| (byteAt bytes (size / 2) <<< 24)
    ||| byteAt bytes (size - 1) ||| (UInt64.ofNat size <<< 8)
  shortAvalanche (combined ^^^ (word32 secret 0 ^^^ word32 secret 4))

def hashUpTo8 (bytes : Array UInt8) : UInt64 :=
  let size := bytes.size
  let input := word32 bytes (size - 4) + (word32 bytes 0 <<< 32)
  let keyed := input ^^^ (word64 secret 8 ^^^ word64 secret 16)
  let turned := (keyed ^^^ rotateLeft keyed 49 ^^^ rotateLeft keyed 24) * mixerB
  let mixed := (turned ^^^ ((turned >>> 35) + UInt64.ofNat size)) * mixerB
  shiftMix mixed 28

def hashUpTo16 (bytes : Array UInt8) : UInt64 :=
  let size := bytes.size
  let low := word64 bytes 0 ^^^ (word64 secret 24 ^^^ word64 secret 32)
  let high := word64 bytes (size - 8) ^^^ (word64 secret 40 ^^^ word64 secret 48)
  avalanche (UInt64.ofNat size + swapBytes low + high + foldedProduct low high)

def mixed16 (bytes : Array UInt8) (offset key : Nat) : UInt64 :=
  foldedProduct (word64 bytes offset ^^^ word64 secret key)
    (word64 bytes (offset + 8) ^^^ word64 secret (key + 8))

/-- Pieces from both ends, from the middle outwards. -/
def hashUpTo128 (bytes : Array UInt8) : UInt64 :=
  let size := bytes.size
  let pairs := (size - 1) / 32
  avalanche ((List.range (pairs + 1)).foldl (fun sum index =>
    sum + mixed16 bytes (16 * index) (32 * index)
      + mixed16 bytes (size - 16 * (index + 1)) (32 * index + 16))
    (UInt64.ofNat size * prime64a))

def hashUpTo240 (bytes : Array UInt8) : UInt64 :=
  let size := bytes.size
  let first := (List.range 8).foldl (fun sum index =>
    sum + mixed16 bytes (16 * index) (16 * index)) (UInt64.ofNat size * prime64a)
  let rest := (List.range (size / 16 - 8)).foldl (fun sum index =>
    sum + mixed16 bytes (16 * (index + 8)) (16 * index + 3)) (avalanche first)
  avalanche (rest + mixed16 bytes (size - 16) 119)

abbrev Lanes := List UInt64

def startLanes : Lanes :=
  [prime32c, prime64a, prime64b, prime64c, prime64d, prime32b, prime64e, prime32a]

/-- Takes 64 bytes in: each lane gets the product of the halves of its keyed word, and the plain
word of its neighbour. -/
def absorb (bytes : Array UInt8) (offset key : Nat) (lanes : Lanes) : Lanes :=
  lanes.mapIdx fun index lane =>
    let keyed := word64 bytes (offset + 8 * index) ^^^ word64 secret (key + 8 * index)
    let neighbour := if index % 2 = 0 then index + 1 else index - 1
    lane + word64 bytes (offset + 8 * neighbour) + keyed.toUInt32.toUInt64 * (keyed >>> 32)

def scramble (lanes : Lanes) : Lanes :=
  lanes.mapIdx fun index lane =>
    (shiftMix lane 47 ^^^ word64 secret (128 + 8 * index)) * prime32a

def absorbStripes (bytes : Array UInt8) (offset count : Nat) (lanes : Lanes) : Lanes :=
  (List.range count).foldl (fun lanes index =>
    absorb bytes (offset + 64 * index) (8 * index) lanes) lanes

def mergeLanes (start : UInt64) (key : Nat) : Lanes → UInt64
  | left :: right :: rest =>
      mergeLanes (start + foldedProduct (left ^^^ word64 secret key) (right ^^^ word64 secret (key + 8)))
        (key + 16) rest
  | _ => avalanche start

/-- Blocks of sixteen stripes, each scrambled; then the stripes that are left, and last the final
64 bytes of the input. -/
def hashLong (bytes : Array UInt8) : UInt64 :=
  let size := bytes.size
  let blocks := (size - 1) / 1024
  let whole := (List.range blocks).foldl (fun lanes block =>
    scramble (absorbStripes bytes (1024 * block) 16 lanes)) startLanes
  let left := absorbStripes bytes (1024 * blocks) ((size - 1 - 1024 * blocks) / 64) whole
  let last := absorb bytes (size - 64) 121 left
  mergeLanes (UInt64.ofNat size * prime64a) 11 last

def xxh3 (input : List UInt8) : UInt64 :=
  let bytes := input.toArray
  if bytes.size = 0 then shortAvalanche (word64 secret 56 ^^^ word64 secret 64)
  else if bytes.size ≤ 3 then hashUpTo3 bytes
  else if bytes.size ≤ 8 then hashUpTo8 bytes
  else if bytes.size ≤ 16 then hashUpTo16 bytes
  else if bytes.size ≤ 128 then hashUpTo128 bytes
  else if bytes.size ≤ 240 then hashUpTo240 bytes
  else hashLong bytes

end RowStore.Hash
