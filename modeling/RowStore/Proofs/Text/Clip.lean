import Mathlib.Order.Bounds.Defs
import RowStore.Proofs.Text.Utf8

namespace RowStore.Text

/-! Texts that are cut to a number of bytes.

A text is cut between two characters, where the bytes before and after are texts again. What is
left is the longest beginning that there is room for.
-/

variable {chars front : List Char} {room size : Nat} {text : String}

theorem byteCount_append (front rest : List Char) :
    byteCount (front ++ rest) = byteCount front + byteCount rest := by
  induction front with
  | nil => simp [byteCount]
  | cons char front ih =>
      simp only [List.cons_append, byteCount]
      omega

theorem byteCount_le_of_isPrefix (starts : front <+: chars) : byteCount front ≤ byteCount chars := by
  obtain ⟨rest, rfl⟩ := starts
  rw [byteCount_append]
  exact Nat.le_add_right _ _

theorem clip_isPrefix (room : Nat) (chars : List Char) : clip room chars <+: chars := by
  induction chars generalizing room with
  | nil => exact List.prefix_rfl
  | cons char rest ih =>
      by_cases fits : char.utf8Size ≤ room
      · rw [clip, if_pos fits]
        exact List.cons_prefix_cons.mpr ⟨rfl, ih _⟩
      · rw [clip, if_neg fits]
        exact List.nil_prefix

/-- Every beginning that there is room for is one of what is left. -/
theorem isPrefix_clip (starts : front <+: chars) (fits : byteCount front ≤ room) :
    front <+: clip room chars := by
  induction front generalizing chars room with
  | nil => exact List.nil_prefix
  | cons char front ih =>
      obtain ⟨rest, rfl⟩ := starts
      rw [byteCount] at fits
      have others : front <+: clip (room - char.utf8Size) (front ++ rest) :=
        ih (List.prefix_append _ _) (by omega)
      rw [List.cons_append, clip, if_pos (by omega)]
      exact List.cons_prefix_cons.mpr ⟨rfl, others⟩

/-- The character that a text is cut before has four bytes at most. -/
theorem lt_byteCount_clip (long : room < byteCount chars) : room < byteCount (clip room chars) + 4 := by
  induction chars generalizing room with
  | nil => simp [byteCount] at long
  | cons char rest ih =>
      rw [byteCount] at long
      have short := char.utf8Size_le_four
      by_cases fits : char.utf8Size ≤ room
      · have tail := @ih (room - char.utf8Size) (by omega)
        rw [clip, if_pos fits, byteCount]
        omega
      · rw [clip, if_neg fits]
        omega

/-- A text can be cut after as many bytes as one of its beginnings has. -/
theorem isValid_iff_exists_isPrefix :
    String.Pos.Raw.IsValid text ⟨size⟩ ↔ ∃ front, front <+: text.toList ∧ byteCount front = size := by
  have taken := @String.Pos.Raw.isValid_ofList text.toList ⟨size⟩
  rw [String.ofList_toList] at taken
  rw [taken]
  constructor
  · rintro ⟨count, same⟩
    rw [utf8ByteSize_ofList] at same
    exact ⟨text.toList.take count, List.take_prefix _ _, same.symm⟩
  · rintro ⟨front, starts, rfl⟩
    refine ⟨front.length, ?_⟩
    rw [utf8ByteSize_ofList, ← List.prefix_iff_eq_take.mp starts]

theorem isGreatest_clip (room : Nat) (text : String) :
    IsGreatest {size | size ≤ room ∧ String.Pos.Raw.IsValid text ⟨size⟩}
      (byteCount (clip room text.toList)) := by
  constructor
  · exact ⟨byteCount_clip_le _ _, isValid_iff_exists_isPrefix.mpr ⟨_, clip_isPrefix _ _, rfl⟩⟩
  · rintro size ⟨fits, valid⟩
    obtain ⟨front, starts, rfl⟩ := isValid_iff_exists_isPrefix.mp valid
    exact byteCount_le_of_isPrefix (isPrefix_clip starts fits)

end RowStore.Text
