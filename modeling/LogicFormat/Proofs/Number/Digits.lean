import LogicFormat.Number.Decimal
import LogicFormat.Proofs.Term.Naming
import Mathlib.Algebra.Group.Nat.Even
import Mathlib.Data.List.Basic

/-!
# Digits of a decimal

The positional digits of a decimal stand for its significand, scaled up if the exponent asks for it,
and its whole part begins with no zero that could be left out.
-/

namespace LogicFormat

namespace Numeral

def natural (digits : Text) : Nat := Nat.ofDigitChars 10 digits 0

theorem natural_append (front back : Text) :
    natural (front ++ back) = natural front * 10 ^ back.length + natural back := by
  rw [natural, Nat.ofDigitChars_append, Nat.ofDigitChars_eq_ofDigitChars_zero, Nat.mul_comm]
  rfl

theorem natural_zeros (n : Nat) : natural (Text.zeros n) = 0 :=
  Nat.ofDigitChars_replicate_zero.trans (Nat.mul_zero _)

theorem natural_ofNat (n : Nat) : natural (ofNat n) = n := Nat.ofDigitChars_ten_toDigits

theorem isDigit_zeros (n : Nat) : ∀ c ∈ Text.zeros n, c.isDigit = true := by
  intro c hc
  rw [List.eq_of_mem_replicate hc]
  rfl

/-- Digits, and no zero in front of others. -/
structure IsWhole (digits : Text) : Prop where
  ne_nil : digits ≠ []
  isDigit : ∀ c ∈ digits, c.isDigit = true
  least : digits.head? = some '0' → digits = ['0']

theorem head?_ofNat_ne_zero {n : Nat} (positive : n ≠ 0) : (ofNat n).head? ≠ some '0' := by
  induction n using Nat.strongRecOn with
  | ind n ih =>
      by_cases single : n < 10
      · rw [ofNat, Nat.toDigits_of_lt_base single, List.head?_cons, ne_eq, Option.some.injEq,
          Nat.digitChar_eq_zero]
        exact positive
      · have shorter := ih (n / 10) (by omega) (by omega)
        rwa [ofNat, Nat.toDigits_of_base_le (by decide) (by omega),
          List.head?_append_of_ne_nil _ Nat.toDigits_ne_nil]

end Numeral

namespace Decimal

open Numeral (natural natural_append natural_zeros natural_ofNat isDigit_zeros IsWhole
  head?_ofNat_ne_zero)

theorem digits_ne_nil (d : Decimal) : d.digits ≠ [] := Nat.toDigits_ne_nil

theorem isDigit_positionalDigits (d : Decimal) : ∀ c ∈ d.positionalDigits, c.isDigit = true := by
  intro c hc
  simp only [positionalDigits, List.mem_append] at hc
  rcases hc with padding | significant | scaling
  · exact isDigit_zeros _ c padding
  · exact Naming.isDigit_ofNat c significant
  · exact isDigit_zeros _ c scaling

theorem isDigit_wholePart (d : Decimal) : ∀ c ∈ d.wholePart, c.isDigit = true :=
  fun c hc => d.isDigit_positionalDigits c (List.take_subset _ _ hc)

theorem isDigit_fractionPart (d : Decimal) : ∀ c ∈ d.fractionPart, c.isDigit = true :=
  fun c hc => d.isDigit_positionalDigits c (List.drop_subset _ _ hc)

theorem natural_positionalDigits (d : Decimal) :
    natural d.positionalDigits = d.significand * 10 ^ d.exponent.toNat := by
  simp only [positionalDigits, natural_append, natural_zeros, Text.length_zeros, Nat.zero_mul,
    Nat.zero_add, Nat.add_zero]
  exact congrArg (· * _) (natural_ofNat d.significand)

theorem natural_parts (d : Decimal) :
    natural d.wholePart * 10 ^ d.places + natural d.fractionPart =
      d.significand * 10 ^ d.exponent.toNat := by
  rw [← natural_positionalDigits, ← wholePart_append_fractionPart, natural_append,
    length_fractionPart]

theorem length_wholePart (d : Decimal) :
    d.wholePart.length + d.places = d.positionalDigits.length := by
  rw [← wholePart_append_fractionPart, List.length_append, length_fractionPart]

/-- Zeros are put in front only to have one digit before the point. -/
theorem positionalDigits_of_long {d : Decimal} (long : 1 < d.wholePart.length) :
    d.positionalDigits = d.digits ++ Text.zeros d.exponent.toNat := by
  have size := d.length_wholePart
  simp only [positionalDigits, List.length_append, Text.length_zeros] at size ⊢
  have none : d.places + 1 - (d.digits.length + d.exponent.toNat) = 0 := by omega
  rw [none]
  rfl

/-- The whole part has no zero in front of other digits, unless the decimal is a scaled zero. -/
theorem isWhole_wholePart {d : Decimal} (zero : d.significand = 0 → d.exponent ≤ 0) :
    IsWhole d.wholePart := by
  refine ⟨d.wholePart_ne_nil, d.isDigit_wholePart, fun first => ?_⟩
  have nonempty := List.length_pos_of_ne_nil d.wholePart_ne_nil
  by_cases long : 1 < d.wholePart.length
  · have digits := positionalDigits_of_long long
    have front : d.digits.head? = some '0' := by
      rw [← first, ← List.head?_append_of_ne_nil d.wholePart d.wholePart_ne_nil,
        wholePart_append_fractionPart, digits, List.head?_append_of_ne_nil _ d.digits_ne_nil]
    have isZero : d.significand = 0 := by
      by_contra positive
      exact head?_ofNat_ne_zero positive front
    -- the digits are then a single zero
    have size := d.length_wholePart
    have one : d.positionalDigits.length = 1 := by
      rw [digits, Decimal.digits, isZero, Int.toNat_of_nonpos (zero isZero)]
      rfl
    omega
  · obtain ⟨c, single⟩ := List.length_eq_one_iff.mp (show d.wholePart.length = 1 by omega)
    rw [single] at first ⊢
    cases first
    rfl

end Decimal

end LogicFormat
