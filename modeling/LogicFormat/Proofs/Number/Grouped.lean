import LogicFormat.Proofs.Number.Fixed
import LogicFormat.Proofs.Number.Separated

/-!
# Commas in numbers with fixed places

An integer written with commas is the same integer without them, once the commas are taken out. They
stand in the whole part only, where they cut it into groups of three digits from its right end.
-/

namespace LogicFormat

namespace Numeral

/-- Digits in groups of three. A comma stands in front of each digit, the first one apart, behind
which there are two digits more than whole groups, and of no other; nor does one stand anywhere
else. -/
structure HasCommas (text : Text) : Prop where
  isDigit : ∀ c ∈ text, c.isDigit = true ∨ c = ','
  placed : ∀ front c back, text = front ++ c :: back → c.isDigit = true →
    (front.getLast? = some ',' ↔
      (∃ digit ∈ front, digit.isDigit = true) ∧ back.countP Char.isDigit % 3 = 2)
  groups : Places.Packed 3 (text.splitOn ',')

variable {digits : Text}

theorem comma_not_mem (isDigit : ∀ c ∈ digits, c.isDigit = true) : ',' ∉ digits :=
  fun member => absurd (isDigit ',' member) (by decide)

theorem filter_comma (isDigit : ∀ c ∈ digits, c.isDigit = true) :
    digits.filter (· ≠ ',') = digits := by
  rw [List.filter_eq_self]
  intro c member
  exact decide_eq_true fun same => comma_not_mem isDigit (same ▸ member)

theorem filter_signed_pointed (negative : Bool) (whole : Text) {fraction : Text}
    (behind : ∀ c ∈ fraction, c.isDigit = true) :
    (signed negative (Places.pointed whole fraction)).filter (· ≠ ',') =
      signed negative (Places.pointed (whole.filter (· ≠ ',')) fraction) := by
  have pointed : (Places.pointed whole fraction).filter (· ≠ ',') =
      Places.pointed (whole.filter (· ≠ ',')) fraction := by
    unfold Places.pointed
    split
    · rfl
    · rw [List.filter_append, List.filter_cons_of_pos (by decide), filter_comma behind]
  cases negative with
  | false => exact pointed
  | true => exact congrArg (List.cons '-') pointed

end Numeral

namespace Places

open Numeral

theorem grouped_eq (n : Int) (places : Nat) :
    grouped (.int n) places =
      .ok (signed (n < 0)
        (pointed (joined 3 ',' (unitsOf places n).wholePart) (unitsOf places n).fractionPart)) := by
  have digits := (unitsOf places n).isDigit_wholePart
  have written : fixed (.int n) places = .ok (fixedInt n places) := rfl
  rw [grouped, written, Outcome.ok_bind, fixedInt_eq,
    splitSign_signed _ (unsigned_pointed (unitsOf places n).wholePart_ne_nil digits)]
  generalize (unitsOf places n).wholePart = whole at digits
  generalize (unitsOf places n).fractionPart = fraction
  have cut : Text.partition '.' (pointed whole fraction) =
      (whole, if fraction = [] then [] else ['.'], fraction) :=
    partition_pointed digits false fraction
  have groups : separated whole [','] 3 = .ok (joined 3 ',' whole) :=
    separated_eq_joined (by decide) whole ','
  dsimp only
  rw [cut]
  dsimp only
  rw [groups, Outcome.ok_bind, ← signed_nil_append _ (pointed _ fraction)]
  refine congrArg Except.ok ?_
  unfold pointed
  split
  · next none => rw [none, List.append_nil, List.append_nil]
  · rw [List.append_assoc, List.append_assoc, List.singleton_append]

theorem isDigit_joined {digits : Text} (isDigit : ∀ c ∈ digits, c.isDigit = true) :
    ∀ c ∈ joined 3 ',' digits, c.isDigit = true ∨ c = ',' := by
  intro c member
  by_cases comma : c = ','
  · exact .inr comma
  · have kept : c ∈ (joined 3 ',' digits).filter (· ≠ ',') :=
      List.mem_filter.mpr ⟨member, decide_eq_true comma⟩
    rw [filter_joined (by decide) (comma_not_mem isDigit)] at kept
    exact .inl (isDigit c kept)

theorem hasCommas_joined {digits : Text} (nonempty : digits ≠ [])
    (isDigit : ∀ c ∈ digits, c.isDigit = true) : HasCommas (joined 3 ',' digits) := by
  have shown := isDigit_joined isDigit
  have absent := comma_not_mem isDigit
  refine ⟨shown, ?_, ?_⟩
  · intro front c back cut digit
    have apart : c ≠ ',' := by
      rintro rfl
      exact absurd digit (by decide)
    have count : (back.filter (· ≠ ',')).length = back.countP Char.isDigit := by
      rw [List.countP_eq_length_filter]
      congr 1
      apply List.filter_congr
      intro x member
      rcases shown x (by rw [cut]; simp [member]) with digit | rfl
      · rw [digit, decide_eq_true_iff]
        rintro rfl
        exact absurd digit (by decide)
      · rfl
    rw [getLast?_of_joined (by decide) absent cut apart, count]
    -- the text begins with a digit
    have first : front ≠ [] ↔ ∃ digit ∈ front, digit.isDigit = true := by
      constructor
      · intro behind
        obtain ⟨digit, rest, rfl⟩ := List.exists_cons_of_ne_nil behind
        have head : digits.head? = some digit := by
          have same : (joined 3 ',' digits).head? = digits.head? := head?_joined (by decide) digits
          rw [← same, cut]
          rfl
        exact ⟨digit, List.mem_cons_self, isDigit digit (List.mem_of_mem_head? head)⟩
      · rintro ⟨digit, member, -⟩
        exact List.ne_nil_of_mem member
    rw [first]
    have modulo : 3 ∣ back.countP Char.isDigit + 1 ↔ back.countP Char.isDigit % 3 = 2 := by omega
    rw [modulo]
  · rw [splitOn_joined nonempty absent]
    exact packed_groupsOf (by decide) digits

/-- An integer with commas and `places` of its digits behind the point is, without the commas, the
integer with as many digits behind the point, whose value is the integer over that power of ten. -/
theorem grouped_hasCommas (n : Int) (places : Nat) :
    ∃ text plain whole fraction : Text,
      grouped (.int n) places = .ok text ∧ fixed (.int n) places = .ok plain ∧
      text.filter (· ≠ ',') = plain ∧
      text = signed (n < 0) (pointed whole fraction) ∧ HasCommas whole ∧
      fraction.length = places ∧ (∀ c ∈ fraction, c.isDigit = true) ∧
      HasPlaces places (n < 0) plain ∧ value? plain = some ((n : ℚ) / 10 ^ places) := by
  have behind := (unitsOf places n).isDigit_fractionPart
  have digits := (unitsOf places n).isDigit_wholePart
  refine ⟨_, fixedInt n places, _, _, grouped_eq n places, rfl, ?_, rfl, ?_, ?_, behind,
    hasPlaces_fixedInt n places, value?_fixedInt n places⟩
  · rw [filter_signed_pointed _ _ behind, filter_joined (by decide) (comma_not_mem digits),
      fixedInt_eq]
  · exact hasCommas_joined (unitsOf places n).wholePart_ne_nil digits
  · rw [Decimal.length_fractionPart, places_unitsOf]

example : grouped (.int (-123456789)) 3 = .ok "-123,456.789".toList := by decide +kernel

end Places

end LogicFormat
