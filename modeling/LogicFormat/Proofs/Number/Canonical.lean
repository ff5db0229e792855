import LogicFormat.Proofs.Number.Fixed
import Mathlib.Tactic.Ring

/-!
# Numerals are determined by their values

Digits without a zero too many in front are the decimal digits of the number that they stand for. So
a numeral with a known sign and a known count of places is determined by its value.
-/

namespace LogicFormat.Numeral

variable {digits : Text}

theorem exists_digitChar {c : Char} (digit : c.isDigit = true) :
    ∃ k, k < 10 ∧ c = Nat.digitChar k := by
  obtain ⟨low, high⟩ := Char.isDigit_iff_toNat.mp digit
  change 48 ≤ c.toNat at low
  change c.toNat ≤ 57 at high
  refine ⟨c.toNat - 48, by omega, ?_⟩
  rw [← Char.toNat_inj, Nat.toNat_digitChar_of_lt_ten (by omega)]
  omega

theorem natural_cons {k : Nat} (small : k < 10) (digits : Text) :
    natural (Nat.digitChar k :: digits) = k * 10 ^ digits.length + natural digits := by
  rw [natural, Nat.ofDigitChars_cons_digitChar_of_lt_ten small,
    Nat.ofDigitChars_eq_ofDigitChars_zero, Nat.mul_zero, Nat.zero_add, Nat.mul_comm]
  rfl

theorem natural_lt (isDigit : ∀ c ∈ digits, c.isDigit = true) :
    natural digits < 10 ^ digits.length := by
  induction digits with
  | nil => exact Nat.one_pos
  | cons c digits ih =>
      rw [List.forall_mem_cons] at isDigit
      obtain ⟨k, small, rfl⟩ := exists_digitChar isDigit.1
      have rest := ih isDigit.2
      have scaled : (k + 1) * 10 ^ digits.length ≤ 10 * 10 ^ digits.length :=
        Nat.mul_le_mul_right _ small
      rw [Nat.succ_mul] at scaled
      rw [natural_cons small, List.length_cons, Nat.pow_succ']
      omega

/-- Digits behind those of a positive number make up the digits of a greater one. -/
theorem ofNat_append {n : Nat} (positive : 0 < n) (isDigit : ∀ c ∈ digits, c.isDigit = true) :
    ofNat n ++ digits = ofNat (n * 10 ^ digits.length + natural digits) := by
  induction digits generalizing n with
  | nil => simp [natural]
  | cons c digits ih =>
      rw [List.forall_mem_cons] at isDigit
      obtain ⟨k, small, rfl⟩ := exists_digitChar isDigit.1
      have longer : ofNat n ++ [Nat.digitChar k] = ofNat (10 * n + k) := by
        rw [ofNat, ofNat, ← Nat.toDigits_append_toDigits (by decide) positive small,
          Nat.toDigits_of_lt_base small]
      have value : (10 * n + k) * 10 ^ digits.length + natural digits =
          n * 10 ^ (digits.length + 1) + (k * 10 ^ digits.length + natural digits) := by
        rw [Nat.pow_succ']
        ring
      rw [natural_cons small, List.length_cons, ← value, ← ih (by omega) isDigit.2, ← longer,
        List.append_assoc, List.singleton_append]

theorem IsWhole.eq_ofNat (leading : IsWhole digits) : digits = ofNat (natural digits) := by
  obtain ⟨nonempty, isDigit, least⟩ := leading
  obtain ⟨c, rest, rfl⟩ := List.exists_cons_of_ne_nil nonempty
  rw [List.forall_mem_cons] at isDigit
  obtain ⟨k, small, rfl⟩ := exists_digitChar isDigit.1
  rw [natural_cons small]
  have first : ofNat k = [Nat.digitChar k] := Nat.toDigits_of_lt_base small
  rcases Nat.eq_zero_or_pos k with rfl | positive
  · obtain ⟨-, rfl⟩ := List.cons.inj (least rfl)
    rfl
  · rw [← ofNat_append positive isDigit.2, first, List.singleton_append]

/-- Equally many digits for the same number are the same digits, zeros in front included. -/
theorem eq_of_natural_eq {other : Text} (length : digits.length = other.length)
    (isDigit : ∀ c ∈ digits, c.isDigit = true) (otherDigits : ∀ c ∈ other, c.isDigit = true)
    (value : natural digits = natural other) : digits = other := by
  have one := ofNat_append Nat.one_pos isDigit
  rw [length, value, ← ofNat_append Nat.one_pos otherDigits] at one
  exact List.append_cancel_left one

theorem natural_append_inj {whole fraction other behind : Text}
    (places : fraction.length = behind.length) (isDigit : ∀ c ∈ fraction, c.isDigit = true)
    (otherDigits : ∀ c ∈ behind, c.isDigit = true)
    (value : natural (whole ++ fraction) = natural (other ++ behind)) :
    natural whole = natural other ∧ natural fraction = natural behind := by
  have small := natural_lt isDigit
  have otherSmall := natural_lt otherDigits
  rw [natural_append, natural_append, places] at value
  rw [places] at small
  have fractions : natural fraction = natural behind := by
    have remainders := congrArg (· % 10 ^ behind.length) value
    simp only [Nat.mul_add_mod', Nat.mod_eq_of_lt small, Nat.mod_eq_of_lt otherSmall] at remainders
    exact remainders
  rw [fractions, Nat.add_right_cancel_iff] at value
  exact ⟨Nat.eq_of_mul_eq_mul_right (Nat.zero_lt_of_lt small) value, fractions⟩

theorem HasPlaces.exists_pointed {places : Nat} {negative : Bool} {text : Text}
    (h : HasPlaces places negative text) :
    ∃ whole fraction, IsWhole whole ∧ fraction.length = places ∧
      (∀ c ∈ fraction, c.isDigit = true) ∧
      text = signed negative (Places.pointed whole fraction) := by
  obtain ⟨whole, fraction, leading, rfl, behind, rfl⟩ := h
  refine ⟨whole, fraction, leading, rfl, behind, ?_⟩
  simp only [Places.pointed, List.length_eq_zero_iff]

theorem value?_of_isWhole {whole fraction : Text} (negative : Bool) (leading : IsWhole whole)
    (behind : ∀ c ∈ fraction, c.isDigit = true) :
    value? (signed negative (Places.pointed whole fraction)) =
      let value : ℚ := natural (whole ++ fraction) / 10 ^ fraction.length
      some (if negative then -value else value) := by
  have joined : (natural whole + natural fraction / 10 ^ fraction.length : ℚ) =
      natural (whole ++ fraction) / 10 ^ fraction.length := by
    rw [natural_append]
    push_cast
    field_simp
  rw [value?_pointed negative leading.ne_nil leading.isDigit behind, joined]

/-- A numeral is known from its sign, its count of places and its value. -/
theorem HasPlaces.unique {places : Nat} {negative : Bool} {text other : Text}
    (one : HasPlaces places negative text) (two : HasPlaces places negative other)
    (value : value? text = value? other) : text = other := by
  obtain ⟨whole, fraction, leading, rfl, digits, rfl⟩ := one.exists_pointed
  obtain ⟨whole', fraction', leading', length, digits', rfl⟩ := two.exists_pointed
  rw [value?_of_isWhole negative leading digits, value?_of_isWhole negative leading' digits',
    length, Option.some.injEq] at value
  have magnitude : (natural (whole ++ fraction) / 10 ^ fraction.length : ℚ) =
      natural (whole' ++ fraction') / 10 ^ fraction.length := by
    cases negative with
    | false => exact value
    | true => exact neg_injective value
  have numbers : natural (whole ++ fraction) = natural (whole' ++ fraction') := by
    exact_mod_cast (div_left_inj' (pow_ne_zero fraction.length (by decide))).mp magnitude
  obtain ⟨wholes, fractions⟩ := natural_append_inj length.symm digits digits' numbers
  rw [leading.eq_ofNat, leading'.eq_ofNat, wholes,
    eq_of_natural_eq length.symm digits digits' fractions]

end LogicFormat.Numeral
