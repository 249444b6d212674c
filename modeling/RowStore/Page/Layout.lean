namespace RowStore

/-! Where the parts of a page image stand.

A page image is a header with one bit for each slot, low bit of the first byte
first, then the slots back to back, then bytes that no slot reaches. Header bits
past the last slot belong to nothing and are kept as they are.
-/

/-- Slots of a page: each takes the bytes of a row and one header bit. -/
def slotCount (pageSize rowWidth : Nat) : Nat := pageSize * 8 / (rowWidth * 8 + 1)

/-- Whole bytes that hold one bit for each slot. -/
def headerSize (slots : Nat) : Nat := (slots + 7) / 8

def bitsOfByte (byte : UInt8) : List Bool := (List.range 8).map byte.toNat.testBit

def bitsOfBytes (bytes : List UInt8) : List Bool := bytes.flatMap bitsOfByte

def bitsValue (bits : List Bool) : Nat :=
  bits.foldr (fun bit value => bit.toNat + 2 * value) 0

def byteOfBits (bits : List Bool) : UInt8 := UInt8.ofNat (bitsValue bits)

/-- Whole bytes from bits; bits that fill no byte are left out. -/
def bytesOfBits : List Bool → List UInt8
  | b0 :: b1 :: b2 :: b3 :: b4 :: b5 :: b6 :: b7 :: rest =>
      byteOfBits [b0, b1, b2, b3, b4, b5, b6, b7] :: bytesOfBits rest
  | _ => []

theorem byteOfBits_bitsOfByte (byte : UInt8) : byteOfBits (bitsOfByte byte) = byte := by
  have all : ∀ number : Fin 256,
      byteOfBits (bitsOfByte (UInt8.ofNat number.val)) = UInt8.ofNat number.val := by
    decide +kernel
  simpa using all ⟨byte.toNat, byte.toNat_lt⟩

theorem bitsOfByte_byteOfBits (b0 b1 b2 b3 b4 b5 b6 b7 : Bool) :
    bitsOfByte (byteOfBits [b0, b1, b2, b3, b4, b5, b6, b7]) =
      [b0, b1, b2, b3, b4, b5, b6, b7] := by
  cases b0 <;> cases b1 <;> cases b2 <;> cases b3 <;>
    cases b4 <;> cases b5 <;> cases b6 <;> cases b7 <;> rfl

theorem bytesOfBits_bitsOfBytes (bytes : List UInt8) : bytesOfBits (bitsOfBytes bytes) = bytes := by
  induction bytes with
  | nil => rfl
  | cons byte rest ih =>
      have head := byteOfBits_bitsOfByte byte
      simp only [bitsOfBytes, List.flatMap_cons] at ih ⊢
      simp only [bitsOfByte, List.range, List.range.loop, List.map, List.cons_append,
        List.nil_append, bytesOfBits] at head ih ⊢
      rw [head, ih]

theorem bitsOfBytes_bytesOfBits {bits : List Bool} (whole : 8 ∣ bits.length) :
    bitsOfBytes (bytesOfBits bits) = bits := by
  fun_induction bytesOfBits bits with
  | case1 b0 b1 b2 b3 b4 b5 b6 b7 rest ih =>
      have tail : 8 ∣ rest.length := by
        simp only [List.length_cons] at whole
        omega
      simp only [bitsOfBytes, List.flatMap_cons] at ih ⊢
      rw [bitsOfByte_byteOfBits, ih tail]
      rfl
  | case2 bits short =>
      match bits, short with
      | [], _ => rfl
      | [_], _ | [_, _], _ | [_, _, _], _ | [_, _, _, _], _ | [_, _, _, _, _], _
      | [_, _, _, _, _, _], _ | [_, _, _, _, _, _, _], _ => simp at whole
      | b0 :: b1 :: b2 :: b3 :: b4 :: b5 :: b6 :: b7 :: rest, short =>
          exact absurd rfl (short b0 b1 b2 b3 b4 b5 b6 b7 rest)

/-- Exactly `size` bytes: cut at the end, or filled up with zeros. -/
def fitBytes (size : Nat) (bytes : List UInt8) : List UInt8 :=
  bytes.take size ++ List.replicate (size - bytes.length) 0

@[simp] theorem length_fitBytes (size : Nat) (bytes : List UInt8) :
    (fitBytes size bytes).length = size := by
  simp only [fitBytes, List.length_append, List.length_take, List.length_replicate]
  omega

theorem header_and_slots_fit (pageSize rowWidth : Nat) :
    headerSize (slotCount pageSize rowWidth) + slotCount pageSize rowWidth * rowWidth ≤ pageSize := by
  have bound : slotCount pageSize rowWidth * (rowWidth * 8 + 1) ≤ pageSize * 8 :=
    Nat.div_mul_le_self _ _
  rw [Nat.mul_add, Nat.mul_one, ← Nat.mul_assoc] at bound
  unfold headerSize
  omega

end RowStore
