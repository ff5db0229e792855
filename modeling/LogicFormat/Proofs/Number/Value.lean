import LogicFormat.Number.Places
import LogicFormat.Proofs.Number.Digits
import LogicFormat.Proofs.Text.Runs
import Mathlib.Algebra.Field.Rat
import Mathlib.Tactic.FieldSimp

/-!
# Values of numerals

A decimal numeral is read as a rational number, digit by digit on both sides of its point. The whole
part and the fraction of a decimal are read as its value.
-/

namespace LogicFormat

namespace Numeral

/-- The value of digits, and perhaps a point with digits behind it. Nothing else is read. -/
def magnitude? (text : Text) : Option ℚ :=
  let whole := text.takeWhile Char.isDigit
  match text.dropWhile Char.isDigit with
  | [] => if whole = [] then none else some (natural whole)
  | '.' :: fraction =>
      if whole = [] || fraction = [] || !fraction.all Char.isDigit then none
      else some (natural whole + natural fraction / 10 ^ fraction.length)
  | _ => none

/-- The value of a decimal numeral, with a minus sign in front of it or not. -/
def value? : Text → Option ℚ
  | '-' :: text => (magnitude? text).map fun value => -value
  | text => magnitude? text

variable {whole fraction text : Text}

theorem magnitude?_pointed (some : whole ≠ []) (digits : ∀ c ∈ whole, c.isDigit = true)
    (behind : ∀ c ∈ fraction, c.isDigit = true) :
    magnitude? (Places.pointed whole fraction) =
      .some (natural whole + natural fraction / 10 ^ fraction.length) := by
  unfold Places.pointed
  split
  · next none =>
      have front := Text.takeWhile_run digits Text.ends_nil
      have rest := Text.dropWhile_run digits Text.ends_nil
      rw [List.append_nil] at front rest
      rw [magnitude?, front, rest, none]
      simp [some, natural]
  · next more =>
      have ends : Text.Ends Char.isDigit ('.' :: fraction) := Text.ends_cons.mpr rfl
      rw [magnitude?, Text.takeWhile_run digits ends, Text.dropWhile_run digits ends]
      simp [some, more, List.all_eq_true.mpr behind]

theorem value?_signed (negative : Bool) (unsigned : text.head? ≠ .some '-') :
    value? (signed negative text) =
      (magnitude? text).map fun value => if negative then -value else value := by
  cases negative with
  | false =>
      have plain : value? text = magnitude? text := by
        unfold value?
        split
        · exact absurd rfl unsigned
        · rfl
      show value? text = _
      rw [plain]
      exact Option.map_id'.symm
  | true => rfl

theorem unsigned_pointed (some : whole ≠ []) (digits : ∀ c ∈ whole, c.isDigit = true) :
    (Places.pointed whole fraction).head? ≠ .some '-' := by
  obtain ⟨c, rest, rfl⟩ := List.exists_cons_of_ne_nil some
  have first : (Places.pointed (c :: rest) fraction).head? = .some c := by
    unfold Places.pointed
    split <;> rfl
  rw [first]
  rintro ⟨⟩
  exact absurd (digits '-' List.mem_cons_self) (by decide)

theorem value?_pointed (negative : Bool) (some : whole ≠ [])
    (digits : ∀ c ∈ whole, c.isDigit = true) (behind : ∀ c ∈ fraction, c.isDigit = true) :
    value? (signed negative (Places.pointed whole fraction)) =
      let value : ℚ := natural whole + natural fraction / 10 ^ fraction.length
      .some (if negative then -value else value) := by
  rw [value?_signed negative (unsigned_pointed some digits), magnitude?_pointed some digits behind]
  rfl

end Numeral

namespace Decimal

open Numeral (natural)

def value (d : Decimal) : ℚ := d.significand * 10 ^ d.exponent

theorem value_parts (d : Decimal) :
    (natural d.wholePart + natural d.fractionPart / 10 ^ d.fractionPart.length : ℚ) = d.value := by
  have parts : (natural d.wholePart * 10 ^ d.places + natural d.fractionPart : ℚ) =
      d.significand * 10 ^ d.exponent.toNat := mod_cast d.natural_parts
  have scale : (10 : ℚ) ^ d.exponent = 10 ^ d.exponent.toNat / 10 ^ d.places := by
    rw [← zpow_natCast, ← zpow_natCast, ← zpow_sub₀ (by decide), places, Int.toNat_sub_toNat_neg]
  rw [value, scale, length_fractionPart, ← mul_div_assoc, ← parts]
  field_simp

end Decimal

end LogicFormat
