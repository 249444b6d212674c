import RowStore.Text.Utf8

namespace RowStore.Text

/-! Texts that are written as UTF-8 are read back, and nothing else is read. -/

variable {chars : List Char} {bytes : List UInt8} {start skip : Nat}

/-! ## The bytes of one character -/

theorem isTail_ofNat (digit : Nat) : isTail (UInt8.ofNat (digit % 64 + 128)) = true := by
  simp only [isTail, Bool.and_eq_true, decide_eq_true_eq, UInt8.le_iff_toNat_le, UInt8.toNat_ofNat',
    UInt8.reduceToNat]
  omega

theorem payload_ofNat {digit room mark : Nat} (above : room ∣ mark) (fits : room ∣ 256) :
    payload (UInt8.ofNat (digit % room + mark)) room = digit % room := by
  rw [payload, UInt8.toNat_ofNat', Nat.mod_mod_of_dvd _ fits, Nat.add_mod, Nat.mod_mod,
    Nat.mod_eq_zero_of_dvd above, Nat.add_zero, Nat.mod_mod]

theorem payload_tail (digit : Nat) :
    payload (UInt8.ofNat (digit % 64 + 128)) 64 = digit % 64 :=
  @payload_ofNat digit 64 128 (by decide) (by decide)

/-- The byte after the lead byte of a character of three bytes. -/
theorem isSecond_three {code : Nat} (long : 0x7FF < code) (short : code ≤ 0xFFFF)
    (valid : code.isValidChar) :
    isSecond (UInt8.ofNat (code / 4096 % 16 + 224)) (UInt8.ofNat (code / 64 % 64 + 128)) = true := by
  have tail := isTail_ofNat (code / 64)
  have noSurrogate : code < 0xD800 ∨ 0xDFFF < code := by
    rcases valid with low | high <;> omega
  simp only [isSecond, ← UInt8.toNat_inj, UInt8.le_iff_toNat_le, UInt8.toNat_ofNat',
    UInt8.reduceToNat]
  split
  · simp only [Bool.and_eq_true, decide_eq_true_eq]
    omega
  · split
    · simp only [Bool.and_eq_true, decide_eq_true_eq]
      omega
    · rw [if_neg (by omega), if_neg (by omega)]
      exact tail

/-- The byte after the lead byte of a character of four bytes. -/
theorem isSecond_four {code : Nat} (long : 0xFFFF < code) (valid : code.isValidChar) :
    isSecond (UInt8.ofNat (code / 262144 % 8 + 240)) (UInt8.ofNat (code / 4096 % 64 + 128)) = true := by
  have tail := isTail_ofNat (code / 4096)
  have last : code < 0x110000 := by
    rcases valid with low | high <;> omega
  simp only [isSecond, ← UInt8.toNat_inj, UInt8.le_iff_toNat_le, UInt8.toNat_ofNat',
    UInt8.reduceToNat]
  rw [if_neg (by omega), if_neg (by omega)]
  split
  · simp only [Bool.and_eq_true, decide_eq_true_eq]
    omega
  · split
    · simp only [Bool.and_eq_true, decide_eq_true_eq]
      omega
    · exact tail

theorem front_one {code : Nat} (short : code ≤ 0x7F) (rest : List UInt8) :
    front (UInt8.ofNat code) rest = .char (Char.ofNat code) 1 := by
  have lead : (UInt8.ofNat code).toNat = code := by
    rw [UInt8.toNat_ofNat']
    omega
  have low : UInt8.ofNat code < 0x80 := by
    rw [UInt8.lt_iff_toNat_lt, lead]
    exact Nat.lt_succ_of_le short
  rw [front, if_pos low, lead]

theorem front_two {code : Nat} (long : 0x7F < code) (short : code ≤ 0x7FF) (rest : List UInt8) :
    front (UInt8.ofNat (code / 64 % 32 + 192)) (UInt8.ofNat (code % 64 + 128) :: rest) =
      .char (Char.ofNat code) 2 := by
  have lead : (UInt8.ofNat (code / 64 % 32 + 192)).toNat = code / 64 + 192 := by
    rw [UInt8.toNat_ofNat']
    omega
  have head : payload (UInt8.ofNat (code / 64 % 32 + 192)) 32 = code / 64 % 32 :=
    @payload_ofNat (code / 64) 32 192 (by decide) (by decide)
  have digits : code / 64 % 32 * 64 + code % 64 = code := by omega
  simp only [front, UInt8.lt_iff_toNat_lt, UInt8.le_iff_toNat_le, lead, UInt8.reduceToNat,
    Bool.and_eq_true, decide_eq_true_eq]
  rw [if_neg (by omega), if_pos (by omega)]
  simp only [frontTwo, isTail_ofNat, if_true, payload_tail, head, digits]

theorem front_three {code : Nat} (long : 0x7FF < code) (short : code ≤ 0xFFFF)
    (valid : code.isValidChar) (rest : List UInt8) :
    front (UInt8.ofNat (code / 4096 % 16 + 224))
        (UInt8.ofNat (code / 64 % 64 + 128) :: UInt8.ofNat (code % 64 + 128) :: rest) =
      .char (Char.ofNat code) 3 := by
  have lead : (UInt8.ofNat (code / 4096 % 16 + 224)).toNat = code / 4096 + 224 := by
    rw [UInt8.toNat_ofNat']
    omega
  have head : payload (UInt8.ofNat (code / 4096 % 16 + 224)) 16 = code / 4096 % 16 :=
    @payload_ofNat (code / 4096) 16 224 (by decide) (by decide)
  have second := isSecond_three long short valid
  have digits : (code / 4096 % 16 * 64 + code / 64 % 64) * 64 + code % 64 = code := by omega
  simp only [front, UInt8.lt_iff_toNat_lt, UInt8.le_iff_toNat_le, lead, UInt8.reduceToNat,
    Bool.and_eq_true, decide_eq_true_eq]
  rw [if_neg (by omega), if_neg (by omega), if_pos (by omega)]
  simp only [frontThree, second, isTail_ofNat, if_true, payload_tail, head, digits]

theorem front_four {code : Nat} (long : 0xFFFF < code) (valid : code.isValidChar)
    (rest : List UInt8) :
    front (UInt8.ofNat (code / 262144 % 8 + 240))
        (UInt8.ofNat (code / 4096 % 64 + 128) :: UInt8.ofNat (code / 64 % 64 + 128) ::
          UInt8.ofNat (code % 64 + 128) :: rest) =
      .char (Char.ofNat code) 4 := by
  have last : code < 0x110000 := by
    rcases valid with low | high <;> omega
  have lead : (UInt8.ofNat (code / 262144 % 8 + 240)).toNat = code / 262144 + 240 := by
    rw [UInt8.toNat_ofNat']
    omega
  have head : payload (UInt8.ofNat (code / 262144 % 8 + 240)) 8 = code / 262144 % 8 :=
    @payload_ofNat (code / 262144) 8 240 (by decide) (by decide)
  have second := isSecond_four long valid
  have digits : ((code / 262144 % 8 * 64 + code / 4096 % 64) * 64 + code / 64 % 64) * 64 +
      code % 64 = code := by omega
  simp only [front, UInt8.lt_iff_toNat_lt, UInt8.le_iff_toNat_le, lead, UInt8.reduceToNat,
    Bool.and_eq_true, decide_eq_true_eq]
  rw [if_neg (by omega), if_neg (by omega), if_neg (by omega), if_pos (by omega)]
  simp only [frontFour, second, isTail_ofNat, if_true, payload_tail, head, digits]

theorem front_utf8EncodeChar (char : Char) (rest : List UInt8) :
    ∃ lead tail, String.utf8EncodeChar char = lead :: tail ∧
      front lead (tail ++ rest) = .char char char.utf8Size := by
  have same : Char.ofNat char.val.toNat = char := Char.ofNat_toNat char
  have size := String.length_utf8EncodeChar char
  have valid : char.val.toNat.isValidChar := char.valid
  simp only [String.utf8EncodeChar] at size ⊢
  generalize char.val.toNat = code at same size valid
  split at size
  · next one =>
    exact ⟨_, _, if_pos one, by rw [← size, ← same]; exact front_one one rest⟩
  · next beyond =>
    rw [if_neg beyond]
    split at size
    · next two =>
      exact ⟨_, _, if_pos two, by rw [← size, ← same]; exact front_two (by omega) two rest⟩
    · next beyond =>
      rw [if_neg beyond]
      split at size
      · next three =>
        exact ⟨_, _, if_pos three, by rw [← size, ← same]; exact front_three (by omega) three valid rest⟩
      · next four =>
        exact ⟨_, _, if_neg four, by rw [← size, ← same]; exact front_four (by omega) valid rest⟩

/-! ## Whole texts -/

/-- Bytes of a character already read are passed over. -/
theorem decodeFrom_skip (passed : List UInt8) :
    decodeFrom start passed.length (passed ++ bytes) = decodeFrom (start + passed.length) 0 bytes := by
  induction passed generalizing start with
  | nil => rfl
  | cons byte rest ih =>
      rw [List.length_cons, List.cons_append, decodeFrom, ih, Nat.add_right_comm, Nat.add_assoc]

theorem decodeFrom_encode (start : Nat) (chars : List Char) :
    decodeFrom start 0 (encode chars) = .ok chars := by
  induction chars generalizing start with
  | nil => rfl
  | cons char rest ih =>
      obtain ⟨lead, tail, bytes, found⟩ := front_utf8EncodeChar char (encode rest)
      have size : tail.length = char.utf8Size - 1 := by
        simp [← String.length_utf8EncodeChar, bytes]
      have unfolded : encode (char :: rest) = lead :: (tail ++ encode rest) := by
        simp [encode, bytes]
      rw [unfolded, decodeFrom]
      simp only [found, ← size, decodeFrom_skip, ih]

theorem decode?_encode (chars : List Char) : decode? (encode chars) = .ok chars :=
  decodeFrom_encode 0 chars

/-! ## What is read is what was written -/

section Front

variable {code width : Nat} {lead : UInt8} {rest : List UInt8} {char : Char}

theorem val_ofNat (valid : code.isValidChar) : (Char.ofNat code).val.toNat = code := by
  rw [Char.ofNat, dif_pos valid]
  rfl

theorem payload_lt (byte : UInt8) {room : Nat} (positive : 0 < room) : payload byte room < room :=
  Nat.mod_lt _ positive

/-- A byte is the digit in its low bits over the mark in its high bits. -/
theorem ofNat_payload {byte : UInt8} {room mark digit : Nat} (same : digit = payload byte room)
    (above : room ∣ mark) (low : mark ≤ byte.toNat) (high : byte.toNat < mark + room) :
    UInt8.ofNat (digit + mark) = byte := by
  obtain ⟨turns, rfl⟩ := above
  have digit : byte.toNat % room + room * turns = byte.toNat := by
    rw [← Nat.sub_add_cancel low, Nat.add_mul_mod_self_left, Nat.mod_eq_of_lt (by omega)]
  rw [same, payload, digit, UInt8.ofNat_toNat]

theorem isTail_iff {byte : UInt8} : isTail byte = true ↔ 128 ≤ byte.toNat ∧ byte.toNat < 192 := by
  simp only [isTail, Bool.and_eq_true, decide_eq_true_eq, UInt8.le_iff_toNat_le, UInt8.reduceToNat]
  omega

theorem payload_of_isTail {byte : UInt8} (tail : isTail byte = true) : payload byte 64 = byte.toNat - 128 := by
  have bounds := isTail_iff.mp tail
  rw [payload]
  omega

theorem ofNat_tail {byte : UInt8} {digit : Nat} (same : digit = payload byte 64)
    (tail : isTail byte = true) : UInt8.ofNat (digit + 128) = byte := by
  obtain ⟨low, high⟩ := isTail_iff.mp tail
  exact ofNat_payload same (by decide) low high

/-- A second byte continues a character, and after some lead bytes it is narrowed further. -/
theorem isSecond_bounds {byte : UInt8} (second : isSecond lead byte = true) :
    isTail byte = true ∧ (lead.toNat = 224 → 160 ≤ byte.toNat) ∧ (lead.toNat = 237 → byte.toNat < 160) ∧
      (lead.toNat = 240 → 144 ≤ byte.toNat) ∧ (lead.toNat = 244 → byte.toNat < 144) := by
  rw [isTail_iff]
  simp only [isSecond, ← UInt8.toNat_inj, UInt8.le_iff_toNat_le, isTail,
    UInt8.reduceToNat] at second
  split at second
  · simp only [Bool.and_eq_true, decide_eq_true_eq] at second
    omega
  · split at second
    · simp only [Bool.and_eq_true, decide_eq_true_eq] at second
      omega
    · split at second
      · simp only [Bool.and_eq_true, decide_eq_true_eq] at second
        omega
      · split at second <;> simp only [Bool.and_eq_true, decide_eq_true_eq] at second <;> omega

theorem utf8EncodeChar_of_frontTwo (low : 194 ≤ lead.toNat) (high : lead.toNat ≤ 223)
    (found : frontTwo lead rest = .char char width) :
    String.utf8EncodeChar char = lead :: rest.take (width - 1) := by
  revert found
  fun_cases frontTwo lead rest with
  | case2 second others tail =>
      intro found
      obtain ⟨rfl, rfl⟩ := Front.char.inj found
      have first : payload lead 32 = lead.toNat - 192 := by
        rw [payload]
        omega
      have last := @payload_lt second 64 (by decide)
      have value := @val_ofNat (payload lead 32 * 64 + payload second 64) (.inl (by omega))
      simp only [String.utf8EncodeChar, value]
      rw [if_neg (by omega), if_pos (by omega),
        @ofNat_payload lead 32 192 _ (by omega) (by decide) (by omega) (by omega),
        ofNat_tail (by omega) tail]
      rfl
  | case1 | case3 => simp

theorem utf8EncodeChar_of_frontThree (low : 224 ≤ lead.toNat) (high : lead.toNat ≤ 239)
    (found : frontThree lead rest = .char char width) :
    String.utf8EncodeChar char = lead :: rest.take (width - 1) := by
  revert found
  fun_cases frontThree lead rest with
  | case3 second accepted third others tail =>
      intro found
      obtain ⟨rfl, rfl⟩ := Front.char.inj found
      -- The bounds of the second byte keep the code point above two bytes and off the surrogates.
      obtain ⟨inner, long, noSurrogate, -⟩ := isSecond_bounds accepted
      have first : payload lead 16 = lead.toNat - 224 := by
        rw [payload]
        omega
      have bounds := isTail_iff.mp inner
      have middle := payload_of_isTail inner
      have last := @payload_lt third 64 (by decide)
      have value := @val_ofNat ((payload lead 16 * 64 + payload second 64) * 64 + payload third 64)
        (by rw [Nat.isValidChar]; omega)
      simp only [String.utf8EncodeChar, value]
      rw [if_neg (by omega), if_neg (by omega), if_pos (by omega),
        @ofNat_payload lead 16 224 _ (by omega) (by decide) (by omega) (by omega),
        ofNat_tail (by omega) inner, ofNat_tail (by omega) tail]
      rfl
  | case1 | case2 | case4 | case5 => simp

theorem utf8EncodeChar_of_frontFour (low : 240 ≤ lead.toNat) (high : lead.toNat ≤ 244)
    (found : frontFour lead rest = .char char width) :
    String.utf8EncodeChar char = lead :: rest.take (width - 1) := by
  revert found
  fun_cases frontFour lead rest with
  | case4 second accepted third isThird fourth others tail =>
      intro found
      obtain ⟨rfl, rfl⟩ := Front.char.inj found
      -- The bounds of the second byte keep the code point above three bytes and in range.
      obtain ⟨inner, -, -, long, inRange⟩ := isSecond_bounds accepted
      have first : payload lead 8 = lead.toNat - 240 := by
        rw [payload]
        omega
      have bounds := isTail_iff.mp inner
      have middle := payload_of_isTail inner
      have lower := @payload_lt third 64 (by decide)
      have last := @payload_lt fourth 64 (by decide)
      have value := @val_ofNat (((payload lead 8 * 64 + payload second 64) * 64 + payload third 64) * 64 +
        payload fourth 64) (by rw [Nat.isValidChar]; omega)
      simp only [String.utf8EncodeChar, value]
      rw [if_neg (by omega), if_neg (by omega), if_neg (by omega),
        @ofNat_payload lead 8 240 _ (by omega) (by decide) (by omega) (by omega),
        ofNat_tail (by omega) inner, ofNat_tail (by omega) isThird, ofNat_tail (by omega) tail]
      rfl
  | case1 | case2 | case3 | case5 | case6 | case7 => simp

/-- A character at the front is written as the bytes that it was read from. -/
theorem utf8EncodeChar_of_front (found : front lead rest = .char char width) :
    String.utf8EncodeChar char = lead :: rest.take (width - 1) := by
  simp only [front, UInt8.lt_iff_toNat_lt, UInt8.le_iff_toNat_le, UInt8.reduceToNat, Bool.and_eq_true,
    decide_eq_true_eq] at found
  split at found
  · next low =>
    obtain ⟨rfl, rfl⟩ := Front.char.inj found
    have value := @val_ofNat lead.toNat (.inl (by omega))
    simp only [String.utf8EncodeChar, value]
    rw [if_pos (by omega), UInt8.ofNat_toNat]
    rfl
  · split at found
    · next two => exact utf8EncodeChar_of_frontTwo two.1 two.2 found
    · split at found
      · next three => exact utf8EncodeChar_of_frontThree three.1 three.2 found
      · split at found
        · next four => exact utf8EncodeChar_of_frontFour four.1 four.2 found
        · contradiction

end Front

theorem encode_decodeFrom (read : decodeFrom start skip bytes = .ok chars) :
    encode chars = bytes.drop skip := by
  fun_induction decodeFrom start skip bytes generalizing chars with
  | case1 =>
      cases read
      rw [List.drop_nil]
      rfl
  | case2 _ _ _ rest ih => exact ih read
  | case3 _ lead rest char width found chars' rest_read ih =>
      cases read
      have tail := ih rest_read
      rw [encode] at tail ⊢
      rw [List.flatMap_cons, tail, utf8EncodeChar_of_front found, List.cons_append, List.take_append_drop,
        List.drop_zero]
  | case4 | case5 | case6 => contradiction

theorem encode_of_decode? (read : decode? bytes = .ok chars) : encode chars = bytes :=
  encode_decodeFrom read

theorem byteCount_of_decode? (read : decode? bytes = .ok chars) :
    byteCount chars = bytes.length := by
  rw [← length_encode, encode_of_decode? read]

/-- Bytes are read just if they are UTF-8. -/
theorem decode?_isOk_iff : (∃ chars, decode? bytes = .ok chars) ↔ bytes.toByteArray.IsValidUTF8 := by
  constructor
  · rintro ⟨chars, read⟩
    exact ⟨chars, by rw [← encode_of_decode? read]; rfl⟩
  · rintro ⟨chars, same⟩
    have bytes : encode chars = bytes := (List.toByteArray_inj.mp same).symm
    exact ⟨chars, by rw [← bytes, decode?_encode]⟩

theorem utf8ByteSize_ofList (chars : List Char) : (String.ofList chars).utf8ByteSize = byteCount chars := by
  induction chars with
  | nil => rfl
  | cons char rest ih =>
      rw [← List.singleton_append, String.ofList_append, String.utf8ByteSize_append, ih,
        ← String.singleton_eq_ofList, String.utf8ByteSize_singleton]
      rfl

end RowStore.Text
