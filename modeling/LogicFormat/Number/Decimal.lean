import LogicFormat.Text

/-!
# Decimals

A non-negative decimal is a whole number of units of some power of ten. It has two layouts:
positional, as a whole part and a fraction, and scientific, with one digit before the point.
A `NumeralStyle` says which of the two a number takes and how the second is spelt.
-/

namespace LogicFormat

/-- The value `significand * 10 ^ exponent`. -/
structure Decimal where
  significand : Nat
  exponent : Int
  deriving DecidableEq

namespace Decimal

def digits (d : Decimal) : Text := Nat.toDigits 10 d.significand

/-- The power of ten of the first digit. -/
def order (d : Decimal) : Int := d.digits.length - 1 + d.exponent

def places (d : Decimal) : Nat := (-d.exponent).toNat

/-- The digits without a point: as many behind it as there are places, at least one before it. -/
def positionalDigits (d : Decimal) : Text :=
  let written := d.digits ++ Text.zeros d.exponent.toNat
  Text.zeros (d.places + 1 - written.length) ++ written

def wholePart (d : Decimal) : Text :=
  d.positionalDigits.take (d.positionalDigits.length - d.places)

def fractionPart (d : Decimal) : Text :=
  d.positionalDigits.drop (d.positionalDigits.length - d.places)

theorem places_lt_length (d : Decimal) : d.places < d.positionalDigits.length := by
  simp only [positionalDigits, List.length_append, Text.length_zeros]
  omega

theorem wholePart_append_fractionPart (d : Decimal) :
    d.wholePart ++ d.fractionPart = d.positionalDigits :=
  List.take_append_drop _ _

theorem wholePart_ne_nil (d : Decimal) : d.wholePart ≠ [] := by
  have h := d.places_lt_length
  rw [← List.length_pos_iff, wholePart, List.length_take]
  omega

theorem length_fractionPart (d : Decimal) : d.fractionPart.length = d.places := by
  have h := d.places_lt_length
  rw [fractionPart, List.length_drop]
  omega

end Decimal

structure NumeralStyle where
  /-- Smallest and largest order written positionally. -/
  lowestPositional : Int
  highestPositional : Int
  /-- Whether a single digit before the exponent takes `.0`. -/
  keepsPoint : Bool
  signsExponent : Bool
  exponentWidth : Nat

namespace NumeralStyle

def exponentText (style : NumeralStyle) (order : Int) : Text :=
  let digits := Nat.toDigits 10 order.natAbs
  let sign : Text := if order < 0 then ['-'] else if style.signsExponent then ['+'] else []
  sign ++ Text.zeros (style.exponentWidth - digits.length) ++ digits

def mantissa (style : NumeralStyle) : Text → Text
  | [] => []
  | [digit] => if style.keepsPoint then [digit, '.', '0'] else [digit]
  | digit :: rest => digit :: '.' :: rest

/-- A positional numeral always shows a point, so that it is not taken for an integer. -/
def positional (d : Decimal) : Text :=
  d.wholePart ++ '.' :: (if d.fractionPart = [] then ['0'] else d.fractionPart)

def scientific (style : NumeralStyle) (d : Decimal) : Text :=
  style.mantissa d.digits ++ 'e' :: style.exponentText d.order

def write (style : NumeralStyle) (d : Decimal) : Text :=
  if style.lowestPositional ≤ d.order ∧ d.order ≤ style.highestPositional then positional d
  else style.scientific d

/-- Numerals in written terms: the exponent follows a mantissa with a point, as in `1.0e20`. -/
def written : NumeralStyle where
  lowestPositional := -4
  highestPositional := 15
  keepsPoint := true
  signsExponent := false
  exponentWidth := 1

/-- Numerals in messages: a signed exponent of two digits or more, as in `1e+20`. -/
def message : NumeralStyle :=
  { written with keepsPoint := false, signsExponent := true, exponentWidth := 2 }

end NumeralStyle

end LogicFormat
