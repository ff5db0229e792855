import LogicFormat.Proofs.Number.Canonical

/-!
# Values of written numbers

The numeral of an integer or of a double, with an exponent or without, is read as a rational number.
A decimal is read as its value, whichever of the two layouts it is written in.
-/

namespace LogicFormat

namespace Numeral

def natural? (text : Text) : Option Nat :=
  if text ≠ [] && text.all Char.isDigit then some (natural text) else none

def integer? : Text → Option Int
  | '-' :: digits => (natural? digits).map fun n : Nat => -(n : Int)
  | digits => (natural? digits).map Int.ofNat

def notExponent (c : Char) : Bool := c ≠ 'e'

/-- The value of a decimal numeral that may be followed by the letter `e` and a power of ten. -/
def denoted? (text : Text) : Option ℚ :=
  match text.dropWhile notExponent with
  | [] => value? text
  | _ :: exponent =>
      (value? (text.takeWhile notExponent)).bind fun value =>
        (integer? exponent).map fun power => value * 10 ^ power

variable {text mantissa exponent whole fraction : Text}

theorem denoted?_of_plain (plain : ∀ c ∈ text, notExponent c = true) :
    denoted? text = value? text := by
  have rest := Text.dropWhile_run plain Text.ends_nil
  rw [List.append_nil] at rest
  rw [denoted?, rest]

theorem denoted?_scientific (plain : ∀ c ∈ mantissa, notExponent c = true) :
    denoted? (mantissa ++ 'e' :: exponent) =
      (value? mantissa).bind fun value =>
        (integer? exponent).map fun power => value * 10 ^ power := by
  have ends : Text.Ends notExponent ('e' :: exponent) := Text.ends_cons.mpr rfl
  rw [denoted?, Text.takeWhile_run plain ends, Text.dropWhile_run plain ends]

theorem notExponent_of_isDigit {c : Char} (digit : c.isDigit = true) : notExponent c = true :=
  decide_eq_true fun same => absurd (same ▸ digit) (by decide)

theorem notExponent_pointed (negative : Bool) (front : ∀ c ∈ whole, c.isDigit = true)
    (behind : ∀ c ∈ fraction, c.isDigit = true) :
    ∀ c ∈ signed negative (Places.pointed whole fraction), notExponent c = true := by
  have plain : ∀ c ∈ Places.pointed whole fraction, notExponent c = true := by
    intro c member
    unfold Places.pointed at member
    split at member
    · exact notExponent_of_isDigit (front c member)
    · rcases List.mem_append.mp member with digit | rest
      · exact notExponent_of_isDigit (front c digit)
      · rcases List.mem_cons.mp rest with rfl | digit
        · rfl
        · exact notExponent_of_isDigit (behind c digit)
  cases negative with
  | false => exact plain
  | true => exact List.forall_mem_cons.mpr ⟨rfl, plain⟩

theorem natural?_ofNat (n : Nat) : natural? (ofNat n) = some n := by
  have digits : (ofNat n).all Char.isDigit = true :=
    List.all_eq_true.mpr fun c member => Naming.isDigit_ofNat c member
  have nonempty : ofNat n ≠ [] := Nat.toDigits_ne_nil
  simp [natural?, digits, nonempty, natural_ofNat]

theorem integer?_ofInt (n : Int) : integer? (ofInt n) = some n := by
  by_cases negative : n < 0
  · have size : -(n.natAbs : Int) = n := by omega
    rw [ofInt, decide_eq_true negative]
    show integer? ('-' :: ofNat n.natAbs) = _
    rw [integer?, natural?_ofNat, Option.map_some, size]
  · have size : Int.ofNat n.natAbs = n := Int.natAbs_of_nonneg (Int.not_lt.mp negative)
    rw [ofInt, decide_eq_false negative]
    show integer? (ofNat n.natAbs) = _
    unfold integer?
    split
    · next digits begins =>
        have minus : '-' ∈ ofNat n.natAbs := begins ▸ List.mem_cons_self
        exact absurd (Naming.isDigit_ofNat _ minus) (by decide)
    · rw [natural?_ofNat, Option.map_some, size]

end Numeral

namespace NumeralStyle

open Numeral

def padded (fraction : Text) : Text := if fraction = [] then ['0'] else fraction

theorem isDigit_padded {fraction : Text} (isDigit : ∀ c ∈ fraction, c.isDigit = true) :
    ∀ c ∈ padded fraction, c.isDigit = true := by
  unfold padded
  split
  · exact List.forall_mem_singleton.mpr rfl
  · exact isDigit

theorem natural_padded (fraction : Text) :
    (natural (padded fraction) / 10 ^ (padded fraction).length : ℚ) =
      natural fraction / 10 ^ fraction.length := by
  unfold padded
  split
  · next none =>
      rw [none]
      simp [natural, Nat.ofDigitChars_cons]
  · rfl

theorem positional_eq (d : Decimal) :
    positional d = Places.pointed d.wholePart (padded d.fractionPart) := by
  have some : padded d.fractionPart ≠ [] := by
    unfold padded
    split
    · exact List.cons_ne_nil _ _
    · next nonempty => exact nonempty
  rw [positional, Places.pointed, if_neg some, padded]

/-- The mantissa is the first digit and, behind a point, the others. -/
theorem exists_mantissa (d : Decimal) : ∃ c rest, d.digits = c :: rest ∧
    (∀ x ∈ [c], x.isDigit = true) ∧ (∀ x ∈ rest, x.isDigit = true) ∧
    written.mantissa d.digits = Places.pointed [c] (padded rest) := by
  obtain ⟨c, rest, digits⟩ := List.exists_cons_of_ne_nil d.digits_ne_nil
  have all : ∀ x ∈ c :: rest, x.isDigit = true := by
    rw [← digits]
    exact Naming.isDigit_ofNat
  rw [List.forall_mem_cons] at all
  refine ⟨c, rest, digits, List.forall_mem_singleton.mpr all.1, all.2, ?_⟩
  rw [digits]
  cases rest <;> rfl

theorem exponentText_written (order : Int) : written.exponentText order = ofInt order := by
  have long : 1 - (Nat.toDigits 10 order.natAbs).length = 0 :=
    Nat.sub_eq_zero_of_le Nat.length_toDigits_pos
  unfold exponentText written
  dsimp only
  rw [long]
  by_cases negative : order < 0
  · simp [negative, Text.zeros, ofInt, signed, ofNat]
  · simp [negative, Text.zeros, ofInt, signed, ofNat]

theorem value?_positional (negative : Bool) (d : Decimal) :
    value? (signed negative (positional d)) = some (if negative then -d.value else d.value) := by
  rw [positional_eq, value?_pointed negative d.wholePart_ne_nil d.isDigit_wholePart
    (isDigit_padded d.isDigit_fractionPart), natural_padded, Decimal.value_parts]

theorem value?_mantissa (negative : Bool) (d : Decimal) :
    value? (signed negative (written.mantissa d.digits)) =
      let value := d.value / 10 ^ d.order
      some (if negative then -value else value) := by
  obtain ⟨c, rest, digits, front, behind, mantissa⟩ := exists_mantissa d
  have significand : (natural [c] * 10 ^ rest.length + natural rest : ℚ) = d.significand := by
    have number : natural ([c] ++ rest) = d.significand := by
      rw [List.singleton_append, ← digits]
      exact natural_ofNat d.significand
    rw [natural_append] at number
    exact_mod_cast number
  have order : d.order = rest.length + d.exponent := by
    rw [Decimal.order, digits, List.length_cons]
    omega
  have scaled : (natural [c] + natural rest / 10 ^ rest.length : ℚ) = d.value / 10 ^ d.order := by
    rw [Decimal.value, order, ← significand, zpow_add₀ (by decide), zpow_natCast]
    field_simp
  rw [mantissa, value?_pointed negative (List.cons_ne_nil c []) front (isDigit_padded behind),
    natural_padded, scaled]

theorem unsigned_write (d : Decimal) : (written.write d).head? ≠ some '-' := by
  unfold write
  split
  · rw [positional_eq]
    exact unsigned_pointed d.wholePart_ne_nil d.isDigit_wholePart
  · obtain ⟨c, rest, -, front, -, mantissa⟩ := exists_mantissa d
    have nonempty : Places.pointed [c] (padded rest) ≠ [] := by
      unfold Places.pointed
      split <;> exact List.cons_ne_nil _ _
    rw [scientific, mantissa, List.head?_append_of_ne_nil _ nonempty]
    exact unsigned_pointed (List.cons_ne_nil c []) front

/-- A decimal is read as its value, whichever way it is written. -/
theorem denoted?_write (negative : Bool) (d : Decimal) :
    denoted? (signed negative (written.write d)) =
      some (if negative then -d.value else d.value) := by
  unfold write
  split
  · rw [← value?_positional negative d, positional_eq]
    exact denoted?_of_plain (notExponent_pointed negative d.isDigit_wholePart
      (isDigit_padded d.isDigit_fractionPart))
  · have split : signed negative (written.scientific d) =
        signed negative (written.mantissa d.digits) ++ 'e' :: ofInt d.order := by
      rw [scientific, exponentText_written]
      cases negative <;> rfl
    have plain : ∀ c ∈ signed negative (written.mantissa d.digits), notExponent c = true := by
      obtain ⟨c, rest, -, front, behind, mantissa⟩ := exists_mantissa d
      rw [mantissa]
      exact notExponent_pointed negative front (isDigit_padded behind)
    rw [split, denoted?_scientific plain, value?_mantissa, integer?_ofInt]
    have scaled : d.value / 10 ^ d.order * 10 ^ d.order = d.value :=
      div_mul_cancel₀ _ (zpow_ne_zero _ (by decide))
    cases negative with
    | false => exact congrArg some scaled
    | true =>
        show some (-(d.value / 10 ^ d.order) * 10 ^ d.order) = some (-d.value)
        rw [neg_mul, scaled]

end NumeralStyle

end LogicFormat
