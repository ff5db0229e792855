import LogicFormat.Number.Decimal

/-!
# Numerals

A double is its 64 bits: a sign, eleven bits of exponent and 52 bits of fraction. Read as a
number it is an integer times a power of two, an infinity, or no number at all.

A positive double is the nearest double to every real number of a small interval around it.
Of the decimals in that interval, its numeral is one with the fewest digits, and of those the
nearest to the double; from two equally near ones the even one is taken. All of this is exact
arithmetic on natural numbers: the interval is kept as three numerators over one denominator,
and the multiples of a power of ten are met by scaling either the numerators or the
denominator.
-/

namespace LogicFormat

structure Binary64 where
  bits : UInt64
  deriving DecidableEq

/-- What a double stands for, its sign left aside. -/
inductive Magnitude where
  | finite (significand : Nat) (exponent : Int)
  | infinite
  | undefined
  deriving DecidableEq

namespace Binary64

/-- The weight of the leading bit that most doubles do not store. -/
def hiddenBit : Nat := 0x10000000000000

def exponentRange : Nat := 2048

def negative (x : Binary64) : Bool := hiddenBit * exponentRange ≤ x.bits.toNat

def fraction (x : Binary64) : Nat := x.bits.toNat % hiddenBit

def exponentField (x : Binary64) : Nat := x.bits.toNat / hiddenBit % exponentRange

/-- The lowest exponent field holds the numbers without a hidden leading bit; the highest one
holds the infinities and the values that are no number. -/
def magnitude (x : Binary64) : Magnitude :=
  if x.exponentField = exponentRange - 1 then
    if x.fraction = 0 then .infinite else .undefined
  else if x.exponentField = 0 then .finite x.fraction (-1074)
  else .finite (hiddenBit + x.fraction) (x.exponentField - 1075)

end Binary64

/-! ## Shortest decimals -/

/-- The reals that round to `centre / unit`: from `low / unit` to `high / unit`, the ends
included if `closed`. -/
structure RoundingInterval where
  low : Nat
  centre : Nat
  high : Nat
  unit : Nat
  closed : Bool

namespace RoundingInterval

/-- The interval of the double `significand * 2 ^ exponent`, in quarters of its last place.
Below a power of two the doubles lie twice as close. -/
def ofDouble (significand : Nat) (exponent : Int) : RoundingInterval :=
  let narrow := significand = Binary64.hiddenBit ∧ -1074 < exponent
  let scale := Nat.pow 2 exponent.toNat
  { low := (4 * significand - if narrow then 1 else 2) * scale
    centre := 4 * significand * scale
    high := (4 * significand + 2) * scale
    unit := 4 * Nat.pow 2 (-exponent).toNat
    closed := significand % 2 = 0 }

def onGrid (interval : RoundingInterval) (exponent : Int) : RoundingInterval :=
  let up := Nat.pow 10 (-exponent).toNat
  { interval with
    low := interval.low * up
    centre := interval.centre * up
    high := interval.high * up
    unit := interval.unit * Nat.pow 10 exponent.toNat }

def contains (interval : RoundingInterval) (n : Nat) : Bool :=
  if interval.closed then
    interval.low ≤ n * interval.unit && n * interval.unit ≤ interval.high
  else interval.low < n * interval.unit && n * interval.unit < interval.high

/-- The nearer of the two integers around the centre, the even one on a tie. -/
def nearer (interval : RoundingInterval) (below : Nat) : Nat :=
  let beneath := interval.centre - below * interval.unit
  let above := (below + 1) * interval.unit - interval.centre
  if beneath < above then below
  else if above < beneath then below + 1
  else below + below % 2

/-- The integer of the interval nearest to its centre, if the interval holds any. -/
def nearest? (interval : RoundingInterval) : Option Nat :=
  let below := interval.centre / interval.unit
  match interval.contains below, interval.contains (below + 1) with
  | true, true => some (interval.nearer below)
  | true, false => some below
  | false, true => some (below + 1)
  | false, false => none

/-- The first decimal met on the grids `10 ^ exponent`, `10 ^ (exponent - 1)`, … -/
def firstDecimal (interval : RoundingInterval) : Nat → Int → Decimal
  | 0, exponent => ⟨(interval.onGrid exponent).centre / (interval.onGrid exponent).unit, exponent⟩
  | steps + 1, exponent =>
      match (interval.onGrid exponent).nearest? with
      | some n => ⟨n, exponent⟩
      | none => interval.firstDecimal steps (exponent - 1)

/-- The exponent of a power of ten above the whole interval. -/
def topExponent (interval : RoundingInterval) : Nat :=
  (Nat.toDigits 10 (interval.high / interval.unit)).length

/-- The search ends at the 324th place behind the point at the latest: that grid is finer than
any two doubles are apart. -/
def shortest (interval : RoundingInterval) : Decimal :=
  interval.firstDecimal (interval.topExponent + 325) interval.topExponent

end RoundingInterval

namespace Decimal

def ofDouble (significand : Nat) (exponent : Int) : Decimal :=
  if significand = 0 then ⟨0, 0⟩
  else (RoundingInterval.ofDouble significand exponent).shortest

end Decimal

/-! ## The text of a number -/

namespace Numeral

def signed (negative : Bool) (text : Text) : Text :=
  if negative then '-' :: text else text

def ofNat (n : Nat) : Text := Nat.toDigits 10 n

def ofInt (n : Int) : Text := signed (n < 0) (ofNat n.natAbs)

/-- The sign of a zero is written; that of a value that is no number is not. -/
def ofDouble (style : NumeralStyle) (x : Binary64) : Text :=
  match x.magnitude with
  | .finite significand exponent =>
      signed x.negative (style.write (.ofDouble significand exponent))
  | .infinite => signed x.negative "inf"
  | .undefined => "nan"

def splitSign : Text → Text × Text
  | '-' :: rest => (['-'], rest)
  | text => ([], text)

theorem splitSign_append (text : Text) : (splitSign text).1 ++ (splitSign text).2 = text := by
  unfold splitSign
  split <;> rfl

end Numeral

end LogicFormat
