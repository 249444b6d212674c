namespace RowStore.Text

/-! UTF-8 with exact faults.

A text is a list of characters; `encode` and `decode?` relate it to its bytes.
Reading names the first fault by the length of the readable beginning and the
length of the longest run of bytes there that could have begun a character.
-/

/-- Why bytes are not UTF-8. `start` counts the readable bytes before the fault. -/
inductive Utf8Fault where
  /-- The `length` bytes at `start` begin no character, whatever follows them. -/
  | invalid (start length : Nat)
  /-- The bytes end inside the character that begins at `start`. -/
  | incomplete (start : Nat)
  deriving DecidableEq, Repr

def Utf8Fault.message : Utf8Fault → String
  | .invalid start length => s!"invalid utf-8 sequence of {length} bytes from index {start}"
  | .incomplete start => s!"incomplete utf-8 byte sequence from index {start}"

/-- What stands at the front of a nonempty byte sequence. -/
inductive Front where
  | char (char : Char) (width : Nat)
  | invalid (length : Nat)
  | incomplete
  deriving DecidableEq

def isTail (byte : UInt8) : Bool := 0x80 ≤ byte && byte ≤ 0xBF

/-- The bytes that may stand second after a lead byte of three or four byte characters: no
overlong form, no surrogate and nothing above the last code point. -/
def isSecond (lead byte : UInt8) : Bool :=
  if lead = 0xE0 then 0xA0 ≤ byte && byte ≤ 0xBF
  else if lead = 0xED then 0x80 ≤ byte && byte ≤ 0x9F
  else if lead = 0xF0 then 0x90 ≤ byte && byte ≤ 0xBF
  else if lead = 0xF4 then 0x80 ≤ byte && byte ≤ 0x8F
  else isTail byte

/-- The low bits of a byte, as a digit of a code point that has `room` values. -/
def payload (byte : UInt8) (room : Nat) : Nat := byte.toNat % room

def frontTwo (lead : UInt8) : List UInt8 → Front
  | [] => .incomplete
  | second :: _ =>
      if isTail second then
        .char (Char.ofNat (payload lead 32 * 64 + payload second 64)) 2
      else .invalid 1

def frontThree (lead : UInt8) : List UInt8 → Front
  | [] => .incomplete
  | second :: rest =>
      if isSecond lead second then
        match rest with
        | [] => .incomplete
        | third :: _ =>
            if isTail third then
              .char (Char.ofNat ((payload lead 16 * 64 + payload second 64) * 64 + payload third 64)) 3
            else .invalid 2
      else .invalid 1

def frontFour (lead : UInt8) : List UInt8 → Front
  | [] => .incomplete
  | second :: rest =>
      if isSecond lead second then
        match rest with
        | [] => .incomplete
        | third :: rest =>
            if isTail third then
              match rest with
              | [] => .incomplete
              | fourth :: _ =>
                  if isTail fourth then
                    .char (Char.ofNat (((payload lead 8 * 64 + payload second 64) * 64
                      + payload third 64) * 64 + payload fourth 64)) 4
                  else .invalid 3
            else .invalid 2
      else .invalid 1

def front (lead : UInt8) (rest : List UInt8) : Front :=
  if lead < 0x80 then .char (Char.ofNat lead.toNat) 1
  else if 0xC2 ≤ lead && lead ≤ 0xDF then frontTwo lead rest
  else if 0xE0 ≤ lead && lead ≤ 0xEF then frontThree lead rest
  else if 0xF0 ≤ lead && lead ≤ 0xF4 then frontFour lead rest
  else .invalid 1

/-- Reads on from byte `start`, of which `skip` bytes belong to a character already read. -/
def decodeFrom (start : Nat) : (skip : Nat) → List UInt8 → Except Utf8Fault (List Char)
  | _, [] => .ok []
  | skip + 1, _ :: rest => decodeFrom (start + 1) skip rest
  | 0, lead :: rest =>
      match front lead rest with
      | .char char width =>
          match decodeFrom (start + 1) (width - 1) rest with
          | .ok chars => .ok (char :: chars)
          | .error fault => .error fault
      | .invalid length => .error (.invalid start length)
      | .incomplete => .error (.incomplete start)

def decode? (bytes : List UInt8) : Except Utf8Fault (List Char) := decodeFrom 0 0 bytes

/-- Reads every byte sequence: each fault becomes one replacement character. -/
def decodeLossyFrom : (skip : Nat) → List UInt8 → List Char
  | _, [] => []
  | skip + 1, _ :: rest => decodeLossyFrom skip rest
  | 0, lead :: rest =>
      match front lead rest with
      | .char char width => char :: decodeLossyFrom (width - 1) rest
      | .invalid length => '\uFFFD' :: decodeLossyFrom (length - 1) rest
      | .incomplete => ['\uFFFD']

def decodeLossy (bytes : List UInt8) : List Char := decodeLossyFrom 0 bytes

def encode (chars : List Char) : List UInt8 := chars.flatMap String.utf8EncodeChar

def byteCount : List Char → Nat
  | [] => 0
  | char :: rest => char.utf8Size + byteCount rest

/-- The longest beginning of at most `room` bytes that ends between two characters. -/
def clip : (room : Nat) → List Char → List Char
  | _, [] => []
  | room, char :: rest =>
      if char.utf8Size ≤ room then char :: clip (room - char.utf8Size) rest else []

theorem byteCount_clip_le (room : Nat) (chars : List Char) : byteCount (clip room chars) ≤ room := by
  induction chars generalizing room with
  | nil => simp [clip, byteCount]
  | cons char rest ih =>
      unfold clip
      split
      · next fits =>
        have tail := ih (room - char.utf8Size)
        simp only [byteCount]
        omega
      · simp [byteCount]

theorem clip_of_fits {room : Nat} {chars : List Char} (fits : byteCount chars ≤ room) :
    clip room chars = chars := by
  induction chars generalizing room with
  | nil => rfl
  | cons char rest ih =>
      simp only [byteCount] at fits
      have tail : byteCount rest ≤ room - char.utf8Size := by omega
      have head : char.utf8Size ≤ room := by omega
      simp [clip, head, ih tail]

theorem length_encode (chars : List Char) : (encode chars).length = byteCount chars := by
  induction chars with
  | nil => rfl
  | cons char rest ih =>
      simp only [encode, byteCount, List.flatMap_cons, List.length_append,
        String.length_utf8EncodeChar] at ih ⊢
      omega

end RowStore.Text
