import LogicFormat.Proofs.Number.Scientific
import LogicFormat.Proofs.Number.Shortest
import Mathlib.Algebra.Order.Floor.Semifield
import Mathlib.Data.Rat.Floor

/-!
# Numbers cut off behind their places

A number with fixed places is the value of its numeral, cut off behind that many digits. It does not
matter whether the numeral has an exponent, and more places only add digits.
-/

namespace LogicFormat

namespace Decimal

open Numeral (natural natural_append natural_zeros natural_lt isDigit_zeros)

/-- The digits behind the point that are left of a decimal with `places` of them. -/
def fractionWith (d : Decimal) (places : Nat) : Text :=
  (d.fractionPart ++ Text.zeros places).take places

theorem length_fractionWith (d : Decimal) (places : Nat) :
    (d.fractionWith places).length = places := by
  rw [fractionWith, List.length_take, List.length_append, Text.length_zeros]
  omega

theorem isDigit_fractionWith (d : Decimal) (places : Nat) :
    ∀ c ∈ d.fractionWith places, c.isDigit = true := by
  intro c member
  rcases List.mem_append.mp (List.mem_of_mem_take member) with digit | zero
  · exact d.isDigit_fractionPart c digit
  · exact isDigit_zeros places c zero

theorem fractionWith_take (d : Decimal) {places more : Nat} (le : places ≤ more) :
    (d.fractionWith more).take places = d.fractionWith places := by
  have zeros : Text.zeros more = Text.zeros places ++ Text.zeros (more - places) := by
    rw [Text.zeros, Text.zeros, Text.zeros, List.replicate_append_replicate,
      Nat.add_sub_cancel' le]
  have long : places ≤ (d.fractionPart ++ Text.zeros places).length := by
    rw [List.length_append, Text.length_zeros]
    omega
  rw [fractionWith, fractionWith, List.take_take, Nat.min_eq_left le, zeros, ← List.append_assoc,
    List.take_append_of_le_length long]

theorem exists_dropped (d : Decimal) (places : Nat) :
    ∃ dropped, d.fractionWith places ++ dropped = d.fractionPart ++ Text.zeros places ∧
      dropped.length = d.fractionPart.length ∧ ∀ c ∈ dropped, c.isDigit = true := by
  refine ⟨(d.fractionPart ++ Text.zeros places).drop places, List.take_append_drop places _, ?_, ?_⟩
  · rw [List.length_drop, List.length_append, Text.length_zeros, Nat.add_sub_cancel]
  · intro c member
    rcases List.mem_append.mp (List.mem_of_mem_drop member) with digit | zero
    · exact d.isDigit_fractionPart c digit
    · exact isDigit_zeros places c zero

/-- What is left is the value in units of the last place, rounded down. -/
theorem natural_fractionWith (d : Decimal) (places : Nat) :
    natural (d.wholePart ++ d.fractionWith places) = ⌊d.value * 10 ^ places⌋₊ := by
  obtain ⟨dropped, split, length, digits⟩ := d.exists_dropped places
  have small := natural_lt digits
  have scaled : natural (d.wholePart ++ d.fractionPart) * 10 ^ places =
      10 ^ dropped.length * natural (d.wholePart ++ d.fractionWith places) + natural dropped :=
    calc natural (d.wholePart ++ d.fractionPart) * 10 ^ places
      _ = natural (d.wholePart ++ d.fractionPart ++ Text.zeros places) := by
        rw [natural_append _ (Text.zeros places), natural_zeros, Text.length_zeros, Nat.add_zero]
      _ = natural (d.wholePart ++ d.fractionWith places ++ dropped) := by
        rw [List.append_assoc, List.append_assoc, split]
      _ = _ := by rw [natural_append _ dropped, Nat.mul_comm]
  have ratio : d.value * 10 ^ places =
      (natural (d.wholePart ++ d.fractionPart) * 10 ^ places : ℕ) / (10 ^ dropped.length : ℕ) := by
    rw [← d.value_parts, natural_append, length]
    push_cast
    field_simp
  rw [ratio, Nat.floor_div_eq_div, scaled, Nat.mul_add_div (Nat.zero_lt_of_lt small),
    Nat.div_eq_of_lt small, Nat.add_zero]

theorem natural_wholePart (d : Decimal) : natural d.wholePart = ⌊d.value⌋₊ := by
  have none := d.natural_fractionWith 0
  rwa [fractionWith, List.take_zero, List.append_nil, pow_zero, mul_one] at none

theorem value_nonneg (d : Decimal) : 0 ≤ d.value :=
  mul_nonneg (Nat.cast_nonneg _) (zpow_nonneg (by decide) _)

end Decimal

def Term.IsFinite : Term → Prop
  | .int _ => True
  | .float x => ∃ significand exponent, x.magnitude = .finite significand exponent
  | _ => False

namespace Places

open Numeral

def cut (d : Decimal) (places : Nat) : Text := pointed d.wholePart (d.fractionWith places)

theorem take_padded (fraction : Text) (places : Nat) :
    (NumeralStyle.padded fraction ++ Text.zeros places).take places =
      (fraction ++ Text.zeros places).take places := by
  unfold NumeralStyle.padded
  split
  · next none =>
      have zeros : ['0'] ++ Text.zeros places = Text.zeros (places + 1) := rfl
      rw [zeros, none, List.nil_append, Text.zeros, Text.zeros, List.take_replicate,
        List.take_replicate, Nat.min_self, Nat.min_eq_left (Nat.le_succ places)]
  · rfl

theorem mem_signed (negative : Bool) {c : Char} {text : Text} (member : c ∈ text) :
    c ∈ signed negative text := by
  cases negative with
  | false => exact member
  | true => exact List.mem_cons_of_mem _ member

theorem cutOff_ofInt (n : Int) (places : Nat) :
    cutOff (ofInt n) places = signed (n < 0) (cut (unitsOf 0 n) places) := by
  rw [ofInt_eq_fixedInt, fixedInt_eq, cutOff_pointed (unitsOf 0 n).isDigit_wholePart]
  rfl

/-- A double is cut off from the same decimal, whether its numeral has an exponent or not. -/
theorem cutOff_writtenOut {x : Binary64} {significand : Nat} {exponent : Int}
    (finite : x.magnitude = .finite significand exponent) (places : Nat) :
    cutOff (writtenOut x) places =
      signed x.negative (cut (.ofDouble significand exponent) places) := by
  have numeral : ofDouble .written x =
      signed x.negative (NumeralStyle.written.write (.ofDouble significand exponent)) := by
    rw [ofDouble, finite]
  rw [writtenOut, finite, numeral]
  dsimp only
  generalize Decimal.ofDouble significand exponent = d
  split
  · rw [cutOff_pointed d.isDigit_wholePart]
    rfl
  · next plain =>
      -- a numeral without the letter is positional
      unfold NumeralStyle.write at plain ⊢
      split
      · rw [NumeralStyle.positional_eq, cutOff_pointed d.isDigit_wholePart, take_padded]
        rfl
      · next scientific =>
          rw [if_neg scientific] at plain
          have letter : 'e' ∈ NumeralStyle.written.scientific d :=
            List.mem_append_right _ List.mem_cons_self
          exact absurd (mem_signed x.negative letter) plain

/-- A number that is written from a decimal, with a minus sign if it is `negative`, and cut off from
the same decimal. -/
structure WrittenFrom (t : Term) (negative : Bool) (d : Decimal) : Prop where
  numeral : ∃ text, t.numeral? = some text ∧ decide (text.head? = some '-') = negative ∧
    denoted? text = some (if negative then -d.value else d.value)
  truncated : ∀ places : Nat, truncated t places = .ok (signed negative (cut d places))
  leading : IsWhole d.wholePart

theorem head?_signed {text : Text} (negative : Bool) (unsigned : text.head? ≠ some '-') :
    decide ((signed negative text).head? = some '-') = negative := by
  cases negative with
  | false => exact decide_eq_false unsigned
  | true => rfl

theorem writtenFrom_int (n : Int) : WrittenFrom (.int n) (n < 0) (unitsOf 0 n) where
  numeral := by
    have digits := (unitsOf 0 n).isDigit_wholePart
    have behind := (unitsOf 0 n).isDigit_fractionPart
    refine ⟨_, congrArg some ((ofInt_eq_fixedInt n).trans (fixedInt_eq n 0)), ?_, ?_⟩
    · exact head?_signed _ (unsigned_pointed (Decimal.wholePart_ne_nil _) digits)
    · rw [denoted?_of_plain (notExponent_pointed _ digits behind),
        value?_pointed _ (Decimal.wholePart_ne_nil _) digits behind, Decimal.value_parts]
  truncated places := congrArg Except.ok (cutOff_ofInt n places)
  leading := Decimal.isWhole_wholePart fun _ => Int.le_refl 0

theorem writtenFrom_float {x : Binary64} {significand : Nat} {exponent : Int}
    (finite : x.magnitude = .finite significand exponent) :
    WrittenFrom (.float x) x.negative (.ofDouble significand exponent) where
  numeral := by
    refine ⟨signed x.negative (NumeralStyle.written.write (.ofDouble significand exponent)), ?_,
      head?_signed _ (NumeralStyle.unsigned_write _), NumeralStyle.denoted?_write _ _⟩
    rw [Term.numeral?, ofDouble, finite]
  truncated places := congrArg Except.ok (cutOff_writtenOut finite places)
  leading := Decimal.isWhole_wholePart Decimal.exponent_ofDouble

theorem exists_writtenFrom {t : Term} (finite : t.IsFinite) :
    ∃ negative d, WrittenFrom t negative d := by
  cases t with
  | int n => exact ⟨_, _, writtenFrom_int n⟩
  | float x =>
      obtain ⟨significand, exponent, finite⟩ := finite
      exact ⟨_, _, writtenFrom_float finite⟩
  | _ => exact finite.elim

theorem value?_cut (negative : Bool) {d : Decimal} (leading : IsWhole d.wholePart) (places : Nat) :
    value? (signed negative (cut d places)) =
      let value : ℚ := ⌊d.value * 10 ^ places⌋₊ / 10 ^ places
      some (if negative then -value else value) := by
  have read := value?_of_isWhole negative leading (d.isDigit_fractionWith places)
  rwa [d.natural_fractionWith, d.length_fractionWith, ← cut] at read

theorem hasPlaces_cut (negative : Bool) {d : Decimal} (leading : IsWhole d.wholePart)
    (places : Nat) : HasPlaces places negative (signed negative (cut d places)) := by
  have shown := hasPlaces_pointed negative leading (d.isDigit_fractionWith places)
  rwa [d.length_fractionWith, ← cut] at shown

theorem filter_isDigit {whole fraction : Text} (negative : Bool)
    (front : ∀ c ∈ whole, c.isDigit = true) (behind : ∀ c ∈ fraction, c.isDigit = true) :
    (signed negative (pointed whole fraction)).filter Char.isDigit = whole ++ fraction := by
  have unsigned : (pointed whole fraction).filter Char.isDigit = whole ++ fraction := by
    unfold pointed
    split
    · next none => rw [List.filter_eq_self.mpr front, none, List.append_nil]
    · rw [List.filter_append, List.filter_eq_self.mpr front, List.filter_cons_of_neg (by decide),
        List.filter_eq_self.mpr behind]
  cases negative with
  | false => exact unsigned
  | true => exact unsigned

/-- An integer or a finite double with fixed places is the number denoted by its numeral, cut off
behind as many digits: the whole part and all digits together are rounded towards zero. The sign is
that of the numeral. More places leave the digits as they are. -/
theorem truncated_floor {t : Term} (finite : t.IsFinite) (places : Nat) :
    ∃ written text : Text, ∃ value : ℚ,
      t.numeral? = some written ∧ denoted? written = some value ∧
      truncated t places = .ok text ∧
      (∃ fraction, fraction.length = places ∧ (∀ c ∈ fraction, c.isDigit = true) ∧
        text = signed (written.head? = some '-') (pointed (ofNat ⌊|value|⌋₊) fraction)) ∧
      (value? text).map (|·|) = some (⌊|value| * 10 ^ places⌋₊ / 10 ^ places : ℚ) ∧
      ∀ more : Nat, places ≤ more → ∃ longer, truncated t more = .ok longer ∧
        text.filter Char.isDigit <+: longer.filter Char.isDigit := by
  obtain ⟨negative, d, ⟨written, shown, sign, denoted⟩, cuts, leading⟩ := exists_writtenFrom finite
  have magnitude (value : ℚ) : |(if negative then -value else value)| = |value| := by
    cases negative with
    | false => rfl
    | true => exact abs_neg value
  have positive : |d.value| = d.value := abs_of_nonneg d.value_nonneg
  have digits := d.isDigit_fractionWith
  refine ⟨written, _, _, shown, denoted, cuts places, ?_, ?_, ?_⟩
  · refine ⟨d.fractionWith places, d.length_fractionWith places, digits places, ?_⟩
    rw [sign, magnitude, positive, ← d.natural_wholePart, ← leading.eq_ofNat, cut]
  · rw [value?_cut negative leading places, Option.map_some, magnitude, magnitude, positive,
      abs_of_nonneg (div_nonneg (Nat.cast_nonneg _) (pow_nonneg (by decide) _))]
  · intro more le
    refine ⟨_, cuts more, ?_⟩
    rw [cut, cut, filter_isDigit negative leading.isDigit (digits places),
      filter_isDigit negative leading.isDigit (digits more), ← d.fractionWith_take le]
    exact (List.prefix_append_right_inj d.wholePart).mpr (List.take_prefix places _)

theorem truncated_floor_exponent :
    (Term.float ⟨0xbe8421f5f40d8376⟩).IsFinite ∧
    (Term.float ⟨0xbe8421f5f40d8376⟩).numeral? = some "-1.5e-7".toList ∧
    truncated (.float ⟨0xbe8421f5f40d8376⟩) (9 : Nat) = .ok "-0.000000150".toList ∧
    denoted? "-1.5e-7".toList = some (-3 / 20000000) ∧
    (value? "-0.000000150".toList).map (|·|) =
      some (⌊|(-3 / 20000000 : ℚ)| * 10 ^ 9⌋₊ / 10 ^ 9 : ℚ) := by
  have finite : (Term.float ⟨0xbe8421f5f40d8376⟩).IsFinite := ⟨_, _, rfl⟩
  have numeral : (Term.float ⟨0xbe8421f5f40d8376⟩).numeral? = some "-1.5e-7".toList := by
    decide +kernel
  have cut : truncated (.float ⟨0xbe8421f5f40d8376⟩) (9 : Nat) = .ok "-0.000000150".toList := by
    decide +kernel
  have read : denoted? "-1.5e-7".toList = some (-3 / 20000000) := by decide +kernel
  obtain ⟨written, text, value, shown, denoted, isCut, -, floor, -⟩ := truncated_floor finite 9
  cases numeral.symm.trans shown
  cases cut.symm.trans isCut
  cases read.symm.trans denoted
  exact ⟨finite, numeral, cut, read, floor⟩

end Places

end LogicFormat
