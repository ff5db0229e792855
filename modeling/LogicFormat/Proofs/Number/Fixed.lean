import LogicFormat.Proofs.Number.Value

/-!
# Numbers with fixed places

An integer written with some of its digits behind the point has the digits of a decimal, and is read
as that integer over a power of ten, exactly.
-/

namespace LogicFormat

namespace Numeral

/-- A sign or none, a whole part, and behind a point exactly `places` digits. There is no point
without them. -/
def HasPlaces (places : Nat) (negative : Bool) (text : Text) : Prop :=
  ∃ whole fraction, IsWhole whole ∧ fraction.length = places ∧
    (∀ c ∈ fraction, c.isDigit = true) ∧
    text = signed negative (if places = 0 then whole else whole ++ '.' :: fraction)

theorem hasPlaces_pointed (negative : Bool) {whole fraction : Text} (leading : IsWhole whole)
    (behind : ∀ c ∈ fraction, c.isDigit = true) :
    HasPlaces fraction.length negative (signed negative (Places.pointed whole fraction)) := by
  refine ⟨whole, fraction, leading, rfl, behind, ?_⟩
  simp only [Places.pointed, List.length_eq_zero_iff]

/-! ## Signs and points -/

theorem splitSign_signed (negative : Bool) {text : Text} (unsigned : text.head? ≠ some '-') :
    splitSign (signed negative text) = (signed negative [], text) := by
  cases negative with
  | true => rfl
  | false =>
      show splitSign text = ([], text)
      unfold splitSign
      split
      · exact absurd rfl unsigned
      · rfl

theorem signed_nil_append (negative : Bool) (text : Text) :
    signed negative [] ++ text = signed negative text := by
  cases negative <;> rfl

theorem unsigned_ofNat (n : Nat) : (ofNat n).head? ≠ some '-' := by
  intro first
  exact absurd (Naming.isDigit_ofNat _ (List.mem_of_mem_head? first)) (by decide)

end Numeral

namespace Text

variable {c : Char} {front : Text}

theorem partition_of_not_mem (absent : c ∉ front) : partition c front = (front, [], []) := by
  have apart : ∀ x ∈ front, decide (x ≠ c) = true :=
    fun x member => decide_eq_true fun same => absent (same ▸ member)
  have before := takeWhile_run apart ends_nil
  have behind := dropWhile_run apart ends_nil
  rw [List.append_nil] at before behind
  rw [partition, before, behind]
  rfl

theorem partition_append (absent : c ∉ front) (back : Text) :
    partition c (front ++ c :: back) = (front, [c], back) := by
  have apart : ∀ x ∈ front, decide (x ≠ c) = true :=
    fun x member => decide_eq_true fun same => absent (same ▸ member)
  have ends : Ends (fun x => decide (x ≠ c)) (c :: back) := ends_cons.mpr (by simp)
  rw [partition, takeWhile_run apart ends, dropWhile_run apart ends]
  rfl

end Text

namespace Places

theorem partition_pointed {whole : Text} (digits : ∀ c ∈ whole, c.isDigit = true)
    (negative : Bool) (fraction : Text) :
    Text.partition '.' (Numeral.signed negative (pointed whole fraction)) =
      (Numeral.signed negative whole, if fraction = [] then [] else ['.'], fraction) := by
  have absent : '.' ∉ Numeral.signed negative whole := by
    have point : '.' ∉ whole := fun member => absurd (digits '.' member) (by decide)
    cases negative with
    | false => exact point
    | true => exact fun member => point ((List.mem_cons.mp member).resolve_left (by decide))
  unfold pointed
  split
  · next none => rw [none, Text.partition_of_not_mem absent]
  · have front : Numeral.signed negative (whole ++ '.' :: fraction) =
        Numeral.signed negative whole ++ '.' :: fraction := by
      cases negative <;> rfl
    rw [front, Text.partition_append absent]

/-- A cut leaves of a fraction, filled up with zeros, as many digits as there are places. -/
theorem cutOff_pointed {whole : Text} (digits : ∀ c ∈ whole, c.isDigit = true)
    (negative : Bool) (fraction : Text) (places : Nat) :
    cutOff (Numeral.signed negative (pointed whole fraction)) places =
      Numeral.signed negative (pointed whole ((fraction ++ Text.zeros places).take places)) := by
  rw [cutOff, partition_pointed digits]
  dsimp only
  cases places with
  | zero => rfl
  | succ places =>
      have filled : fraction.take (places + 1) ++ Text.zeros (places + 1 - fraction.length) =
          (fraction ++ Text.zeros (places + 1)).take (places + 1) := by
        rw [List.take_append, Text.zeros, Text.zeros, List.take_replicate,
          Nat.min_eq_left (by omega)]
      have some : (fraction ++ Text.zeros (places + 1)).take (places + 1) ≠ [] := by
        apply List.ne_nil_of_length_pos
        rw [List.length_take, List.length_append, Text.length_zeros]
        omega
      rw [if_neg (Nat.succ_ne_zero places), filled, pointed, if_neg some]
      cases negative <;> rfl

/-! ## Integers in units of their last place -/

/-- An integer as a number of units of its last place. -/
def unitsOf (places : Nat) (n : Int) : Decimal := ⟨n.natAbs, -places⟩

theorem places_unitsOf (places : Nat) (n : Int) : (unitsOf places n).places = places := by
  simp [Decimal.places, unitsOf]

theorem positionalDigits_unitsOf (places : Nat) (n : Int) :
    (unitsOf places n).positionalDigits =
      Text.zeros (places + 1 - (Numeral.ofNat n.natAbs).length) ++ Numeral.ofNat n.natAbs := by
  have unscaled : (unitsOf places n).exponent.toNat = 0 :=
    Int.toNat_of_nonpos (Int.neg_nonpos_of_nonneg (Int.natCast_nonneg places))
  rw [Decimal.positionalDigits, places_unitsOf, unscaled]
  show Text.zeros (places + 1 - (Numeral.ofNat n.natAbs ++ []).length) ++
    (Numeral.ofNat n.natAbs ++ []) = _
  rw [List.append_nil]

theorem split_digits (places : Nat) (n : Int) :
    split (Numeral.ofNat n.natAbs) places =
      pointed (unitsOf places n).wholePart (unitsOf places n).fractionPart := by
  have some : 0 < (Numeral.ofNat n.natAbs).length := Nat.length_toDigits_pos
  rw [Decimal.wholePart, Decimal.fractionPart, places_unitsOf, positionalDigits_unitsOf, split]
  generalize Numeral.ofNat n.natAbs = digits at some
  -- no places at all, no more digits than places, or digits left for the whole part
  split
  · next none =>
      have unpadded : 1 - digits.length = 0 := by omega
      rw [none, Nat.zero_add, unpadded]
      simp [pointed, Text.zeros]
  · split
    · next short =>
        have padded : Text.zeros (places + 1 - digits.length) =
            '0' :: Text.zeros (places - digits.length) := by
          rw [Nat.sub_add_comm short]
          rfl
        have length : (Text.zeros (places + 1 - digits.length) ++ digits).length - places = 1 := by
          rw [List.length_append, Text.length_zeros]
          omega
        rw [length, padded]
        have more : Text.zeros (places - digits.length) ++ digits ≠ [] :=
          List.append_ne_nil_of_right_ne_nil _ (List.ne_nil_of_length_pos some)
        show _ = pointed ['0'] (Text.zeros (places - digits.length) ++ digits)
        rw [pointed, if_neg more]
        rfl
    · next nonzero long =>
        have unpadded : places + 1 - digits.length = 0 := by omega
        have more : digits.drop (digits.length - places) ≠ [] := by
          apply List.ne_nil_of_length_pos
          rw [List.length_drop]
          omega
        rw [unpadded, pointed]
        show _ = if digits.drop (digits.length - places) = [] then _ else _
        rw [if_neg more]
        rfl

theorem fixedInt_eq (n : Int) (places : Nat) :
    fixedInt n places =
      Numeral.signed (n < 0)
        (pointed (unitsOf places n).wholePart (unitsOf places n).fractionPart) := by
  rw [fixedInt, Numeral.ofInt, Numeral.splitSign_signed _ (Numeral.unsigned_ofNat _)]
  dsimp only
  rw [split_digits, Numeral.signed_nil_append]

theorem ofInt_eq_fixedInt (n : Int) : Numeral.ofInt n = fixedInt n 0 :=
  (Numeral.splitSign_append (Numeral.ofInt n)).symm

theorem value_unitsOf (places : Nat) (n : Int) :
    (unitsOf places n).value = (n.natAbs : ℚ) / 10 ^ places := by
  rw [Decimal.value, unitsOf, zpow_neg, zpow_natCast, div_eq_mul_inv]

theorem cast_signed (n : Int) :
    (if decide (n < 0) = true then -(n.natAbs : ℚ) else n.natAbs) = n := by
  by_cases negative : n < 0
  · rw [if_pos (decide_eq_true negative), Nat.cast_natAbs, abs_of_neg negative, Int.cast_neg,
      neg_neg]
  · rw [if_neg (by simpa using negative), Nat.cast_natAbs, abs_of_nonneg (Int.not_lt.mp negative)]

theorem value?_fixedInt (n : Int) (places : Nat) :
    Numeral.value? (fixedInt n places) = some ((n : ℚ) / 10 ^ places) := by
  rw [fixedInt_eq, Numeral.value?_pointed _ (Decimal.wholePart_ne_nil _)
    (Decimal.isDigit_wholePart _) (Decimal.isDigit_fractionPart _)]
  dsimp only
  rw [Decimal.value_parts, value_unitsOf, ← cast_signed n]
  split
  · rw [neg_div]
  · rfl

theorem hasPlaces_fixedInt (n : Int) (places : Nat) :
    Numeral.HasPlaces places (n < 0) (fixedInt n places) := by
  have whole : Numeral.IsWhole (unitsOf places n).wholePart :=
    Decimal.isWhole_wholePart fun _ => Int.neg_nonpos_of_nonneg (Int.natCast_nonneg places)
  have shown := Numeral.hasPlaces_pointed (n < 0) whole (unitsOf places n).isDigit_fractionPart
  rwa [Decimal.length_fractionPart, places_unitsOf, ← fixedInt_eq] at shown

theorem fixedInt_injective (places : Nat) : Function.Injective fun n => fixedInt n places := by
  intro m n same
  have values := congrArg Numeral.value? same
  rw [value?_fixedInt, value?_fixedInt, Option.some.injEq] at values
  exact_mod_cast (div_left_inj' (pow_ne_zero places (by decide))).mp values

/-- An integer with `digits` of its digits behind the point is a numeral with as many places, whose
value is the integer over that power of ten; so the integer can be told from it. A negative count of
digits is refused as such. -/
theorem fixed_exact (n digits : Int) :
    (0 ≤ digits → ∃ text, fixed (.int n) digits = .ok text ∧
      Numeral.HasPlaces digits.toNat (n < 0) text ∧
      Numeral.value? text = some ((n : ℚ) / 10 ^ digits.toNat) ∧
      ∀ m, fixed (.int m) digits = .ok text → m = n) ∧
    (digits < 0 → ∃ fault, fixed (.int n) digits = .error fault ∧
      fault.complaint? = some ⟨.domain, "not_less_than_zero", .int digits⟩) := by
  constructor
  · intro nonnegative
    have written (m : Int) : fixed (.int m) digits = .ok (fixedInt m digits.toNat) := by
      rw [fixed, checked, if_neg (Int.not_lt.mpr nonnegative)]
      rfl
    refine ⟨fixedInt n digits.toNat, written n, hasPlaces_fixedInt n _, value?_fixedInt n _, ?_⟩
    intro m same
    rw [written m, Except.ok.injEq] at same
    exact fixedInt_injective digits.toNat same
  · intro negative
    refine ⟨.negativeCount digits, ?_, rfl⟩
    rw [fixed, checked, if_pos negative]
    rfl

theorem fixed_exact_padded :
    (∃ text, fixed (.int (-5)) 3 = .ok text ∧ text = "-0.005".toList ∧
      Numeral.HasPlaces 3 true text ∧ Numeral.value? text = some (((-5 : Int) : ℚ) / 10 ^ 3)) ∧
      ∃ fault, fixed (.int (-5)) (-1) = .error fault ∧
        fault.complaint? = some ⟨.domain, "not_less_than_zero", .int (-1)⟩ := by
  obtain ⟨text, written, places, value, -⟩ := (fixed_exact (-5) 3).1 (by decide)
  have shown : fixed (.int (-5)) 3 = .ok "-0.005".toList := by decide +kernel
  exact ⟨⟨text, written, Except.ok.inj (written.symm.trans shown), places, value⟩,
    (fixed_exact (-5) (-1)).2 (by decide)⟩

end Places

end LogicFormat
