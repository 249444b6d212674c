import Mathlib.Tactic.SplitIfs
import RowStore.Text.Utf8
import RowStore.Value

namespace RowStore

/-! The order of values.

Texts stand in the order of their characters, which is that of their bytes in UTF-8.
With the integers before the texts and the absent value before both, the order in which
values are compared is a strict linear order.
-/

namespace Text

/-- The bytes of the lower character stand first, whatever follows either. -/
theorem utf8EncodeChar_append_lt {left right : Char} (lower : left < right)
    (behind ahead : List UInt8) :
    String.utf8EncodeChar left ++ behind < String.utf8EncodeChar right ++ ahead := by
  have below : left.val.toNat < right.val.toNat := UInt32.lt_iff_toNat_lt.mp lower
  have last : right.val.toNat < 0x110000 := by
    rcases right.valid with low | high <;> omega
  simp only [String.utf8EncodeChar]
  generalize left.val.toNat = less at below
  generalize right.val.toNat = more at below last
  have high (code : Nat) : code / 262144 = code / 64 / 64 / 64 := by omega
  have middle (code : Nat) : code / 4096 = code / 64 / 64 := by omega
  -- The first byte tells how many there are, and more bytes are for higher codes.
  split_ifs <;> simp only [List.cons_append, List.nil_append, List.cons_lt_cons_iff,
    UInt8.lt_iff_toNat_lt, ← UInt8.toNat_inj, UInt8.toNat_ofNat', high, middle] <;> omega

theorem encode_lt {left right : List Char} (before : left < right) : encode left < encode right := by
  induction left generalizing right with
  | nil =>
      cases right with
      | nil => exact absurd before (List.lt_irrefl _)
      | cons char chars =>
          have long := char.utf8Size_pos
          rw [← String.length_utf8EncodeChar] at long
          obtain ⟨first, others, bytes⟩ := List.exists_cons_of_length_pos long
          simp only [encode, List.flatMap_nil, List.flatMap_cons, bytes, List.cons_append]
          exact List.nil_lt_cons _ _
  | cons char chars ih =>
      cases right with
      | nil => exact absurd before (List.not_lt_nil _)
      | cons other others =>
          simp only [encode, List.flatMap_cons]
          rcases List.cons_lt_cons_iff.mp before with lower | ⟨rfl, later⟩
          · exact utf8EncodeChar_append_lt lower _ _
          · exact List.append_left_lt (ih later)

/-- Texts stand in the order of their bytes. -/
theorem encode_lt_iff {left right : List Char} : encode left < encode right ↔ left < right := by
  refine ⟨fun before => List.not_le.mp fun other => ?_, encode_lt⟩
  rcases List.le_iff_lt_or_eq.mp other with after | rfl
  · exact List.lt_irrefl _ (List.lt_trans before (encode_lt after))
  · exact List.lt_irrefl _ before

end Text

namespace Value

/-- The absent value stands first, then the integers by their size, then the texts by their
bytes. -/
def Before : Option Value → Option Value → Prop
  | none, some _ => True
  | some (.int left), some (.int right) => left.toInt < right.toInt
  | some (.int _), some (.text _) => True
  | some (.text left), some (.text right) => Text.encode left.toList < Text.encode right.toList
  | _, _ => False

variable {left right last : Option Value}

theorem compareOption_eq_lt : compareOption left right = .lt ↔ Before left right := by
  rcases left with _ | (left | left) <;> rcases right with _ | (right | right)
  case some.text.some.text =>
    rw [compareOption, compare, compareOfLessAndEq_eq_lt, Before, Text.encode_lt_iff, String.lt_iff]
  all_goals simp [compareOption, compare, Before, Int.compare_eq_lt]

theorem compareOption_eq_eq : compareOption left right = .eq ↔ left = right := by
  rcases left with _ | (left | left) <;> rcases right with _ | (right | right)
  case some.text.some.text =>
    rw [compareOption, compare, compareOfLessAndEq_eq_eq String.le_refl String.not_le]
    simp
  all_goals simp [compareOption, compare, Int32.toInt_inj]

theorem compareOption_eq_gt : compareOption left right = .gt ↔ Before right left := by
  rcases left with _ | (left | left) <;> rcases right with _ | (right | right)
  case some.text.some.text =>
    rw [compareOption, compare, compareOfLessAndEq_eq_gt String.le_antisymm String.le_total String.not_le,
      Before, Text.encode_lt_iff, String.lt_iff]
  all_goals simp [compareOption, compare, Before, Int.compare_eq_gt]

theorem Before.irrefl (value : Option Value) : ¬ Before value value := by
  rw [← compareOption_eq_lt, compareOption_eq_eq.mpr rfl]
  decide

theorem Before.trans (first : Before left right) (second : Before right last) : Before left last := by
  rcases left with _ | (left | left) <;> rcases right with _ | (right | right) <;>
    rcases last with _ | (last | last) <;> simp only [Before] at first second ⊢
  · exact Int.lt_trans first second
  · exact List.lt_trans first second

end Value
end RowStore
