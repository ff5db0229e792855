import LogicFormat.Fault

/-!
# Decimal places

The numerals of numbers, and numbers with a given count of digits behind the point. These are cut
out of the numeral: an integer is either read as a number of units of its last place, so that its
last digits move behind the point, or, like any other number, cut off behind its point or filled up
with zeros. Nothing is rounded.
-/

namespace LogicFormat

namespace Term

/-- Integers and doubles are numbers; truth values are not, although they count as one and zero
where terms are compared. -/
def numeral? : Term → Option Text
  | .int n => some (Numeral.ofInt n)
  | .float x => some (Numeral.ofDouble .written x)
  | _ => none

def numeral (t : Term) : Except Fault Text :=
  match t.numeral? with
  | some text => .ok text
  | none => .error (.notNumber t)

end Term

/-- The text before the first `c`, that character if there is one, and the text behind it. -/
def Text.partition (c : Char) (text : Text) : Text × Text × Text :=
  let rest := text.dropWhile (· ≠ c)
  (text.takeWhile (· ≠ c), rest.take 1, rest.drop 1)

namespace Places

/-- The place of a position in a text. A negative position counts from the end. -/
def place (text : Text) (position : Int) : Nat :=
  (if position < 0 then text.length + position else position).toNat

def slice (text : Text) (start stop : Int) : Text :=
  (text.take (place text stop)).drop (place text start)

/-- Slices of `size` characters from a position on. The position moves on by the size as long as it
is before the end of the text or, where the size is negative, behind it. -/
def slicesFrom (size : Int) (text : Text) (position : Int) : List Text :=
  if 0 < size ∧ position < text.length ∨ size < 0 ∧ text.length < position then
    slice text position (position + size) :: slicesFrom size text (position + size)
  else []
termination_by (if 0 < size then text.length - position else position - text.length).toNat
decreasing_by split <;> omega

/-- Slices of a whole text. The first one is what is left over for it, if anything is. -/
def slices (size : Int) (text : Text) : List Text :=
  let first := Int.fmod text.length size
  (if 0 < first then [slice text 0 first] else []) ++ slicesFrom size text first

def separated (text separator : Text) (size : Int) : Except Fault Text :=
  if size = 0 then .error .emptyGroups else .ok (separator.intercalate (slices size text))

/-- The point is written only before a fraction. -/
def pointed (whole fraction : Text) : Text :=
  if fraction = [] then whole else whole ++ '.' :: fraction

/-- The last `places` digits stand behind a point, and at least one before it. -/
def split (digits : Text) (places : Nat) : Text :=
  if places = 0 then digits
  else if digits.length ≤ places then
    ['0', '.'] ++ Text.zeros (places - digits.length) ++ digits
  else digits.take (digits.length - places) ++ '.' :: digits.drop (digits.length - places)

def fixedInt (n : Int) (places : Nat) : Text :=
  let (sign, digits) := Numeral.splitSign (Numeral.ofInt n)
  sign ++ split digits places

/-- A numeral with exactly `places` digits behind its point. -/
def cutOff (numeral : Text) (places : Nat) : Text :=
  let (whole, _, fraction) := Text.partition '.' numeral
  if places = 0 then whole
  else whole ++ '.' :: (fraction.take places ++ Text.zeros (places - fraction.length))

/-- A numeral with an exponent is replaced by one without. -/
def writtenOut (x : Binary64) : Text :=
  let numeral := Numeral.ofDouble .written x
  match x.magnitude with
  | .finite significand exponent =>
      if 'e' ∈ numeral then
        let d := Decimal.ofDouble significand exponent
        Numeral.signed x.negative (pointed d.wholePart d.fractionPart)
      else numeral
  | _ => numeral

def checked (digits : Int) : Except Fault Nat :=
  if digits < 0 then .error (.negativeCount digits) else .ok digits.toNat

def fixed (t : Term) (digits : Int) : Except Fault Text :=
  match t with
  | .int n => fixedInt n <$> checked digits
  | _ => .error (.wrongType .integer t)

/-- Commas stand between groups of three digits before the point. -/
def grouped (t : Term) (digits : Int) : Except Fault Text := do
  let numeral ← fixed t digits
  let (sign, unsigned) := Numeral.splitSign numeral
  let (whole, point, fraction) := Text.partition '.' unsigned
  let groups ← separated whole [','] 3
  return sign ++ groups ++ point ++ fraction

def truncated (t : Term) (digits : Int) : Except Fault Text :=
  match t with
  | .int n => cutOff (Numeral.ofInt n) <$> checked digits
  | .float x => cutOff (writtenOut x) <$> checked digits
  | _ => .error (.wrongType .number t)

end Places

end LogicFormat
