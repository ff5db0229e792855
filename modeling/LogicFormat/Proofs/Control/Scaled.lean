import LogicFormat.Proofs.Cell.Conservation
import LogicFormat.Proofs.Control.Lines
import LogicFormat.Proofs.Number.Truncated

/-!
# Two ways to write an integer with places

An integer is written with the same digits whether it is given as a number, which is filled up with
zeros, or scaled, as a number of units of its last place. So are the directives that write it.
-/

namespace LogicFormat

namespace Places

open Numeral

theorem value?_cutOff_ofInt (n : Int) (places : Nat) :
    value? (cutOff (ofInt n) places) = some (n : ℚ) := by
  have leading : IsWhole (unitsOf 0 n).wholePart := (writtenFrom_int n).leading
  have units : (unitsOf 0 n).value * 10 ^ places = (n.natAbs * 10 ^ places : ℕ) := by
    rw [value_unitsOf]
    push_cast
    ring
  have whole : ((n.natAbs * 10 ^ places : ℕ) / 10 ^ places : ℚ) = n.natAbs := by
    push_cast
    field_simp
  rw [cutOff_ofInt, value?_cut _ leading, units, Nat.floor_natCast, whole]
  exact congrArg some (cast_signed n)

theorem hasPlaces_cutOff_ofInt (n : Int) (places : Nat) :
    HasPlaces places (n < 0) (cutOff (ofInt n) places) := by
  rw [cutOff_ofInt]
  exact hasPlaces_cut _ (writtenFrom_int n).leading places

theorem cutOff_ofInt_eq_fixedInt (n : Int) (places : Nat) :
    cutOff (ofInt n) places = fixedInt (n * 10 ^ places) places := by
  have power : (0 : Int) < 10 ^ places := by positivity
  have sign : decide (n * 10 ^ places < 0) = decide (n < 0) := by
    rw [decide_eq_decide, ← not_le, ← not_le, mul_nonneg_iff_of_pos_right power]
  have scaled : ((n * 10 ^ places : Int) : ℚ) / 10 ^ places = n := by
    push_cast
    field_simp
  have units := hasPlaces_fixedInt (n * 10 ^ places) places
  rw [sign] at units
  refine (hasPlaces_cutOff_ofInt n places).unique units ?_
  rw [value?_cutOff_ofInt, value?_fixedInt, scaled]

end Places

namespace Control

open Numeral

/-- A text that is one directive, which inserts one argument. -/
theorem format_directive {d : Directive} (whole : d.Whole) {t : Term} {text : Text}
    (inserts : (Piece.directive d).effect [t] = .ok ([.chars text], [])) :
    format d.source [t] = .ok text := by
  have takes : Takes (d.source ++ []) (.directive d) [] := .directive d [] whole
  rw [List.append_nil] at takes
  have effects : Piece.effects (pieces d.source) [t] = .ok ([.chars text], []) := by
    rw [pieces_of_takes takes, pieces, Piece.effects, inserts]
    rfl
  have fixed : ∀ operation ∈ [Operation.chars text], operation.stretches = false :=
    List.forall_mem_singleton.mpr rfl
  rw [format_eq_conclude, effects, Outcome.ok_bind, conclude_eq_ok, Block.renderAll_built fixed,
    List.flatMap_singleton]
  exact ⟨rfl, rfl⟩

theorem whole_numbered (places : Nat) {letter : Char} (notDigit : letter.isDigit = false) :
    Directive.Whole ⟨.number (ofNat places), some letter⟩ :=
  .numbered _ letter Nat.toDigits_ne_nil (fun c member => Naming.isDigit_ofNat c member) notDigit

theorem insertPlaces_number {write : Term → Int → Except Fault Text} {t : Term} {places : Nat}
    {text : Text} (written : write t places = .ok text) (token : Text) :
    Command.insertPlaces write (.number (Parameter.numberValue (ofNat places))) token [t] =
      .ok ([.chars text], []) := by
  have number : Parameter.numberValue (ofNat places) = places := natural_ofNat places
  rw [number, Command.insertPlaces, Count.natural, Count.value, Outcome.ok_bind,
    if_neg (Int.not_lt.mpr (Int.natCast_nonneg places))]
  show Command.insert (write · places) token [t] = _
  rw [Command.insert, Arguments.next_cons, Outcome.ok_bind, written]
  rfl

/-- An integer with places is written as that integer in units of its last place is, and both
directives insert this text, whose value is the integer. -/
theorem format_scaled (n : Int) (places : Nat) :
    ∃ text, Places.truncated (.int n) places = .ok text ∧
      Places.fixed (.int (n * 10 ^ places)) places = .ok text ∧
      format ('~' :: ofNat places ++ ['f']) [.int n] = .ok text ∧
      format ('~' :: ofNat places ++ ['d']) [.int (n * 10 ^ places)] = .ok text ∧
      HasPlaces places (n < 0) text ∧ value? text = some (n : ℚ) := by
  have truncated : Places.truncated (.int n) places =
      .ok (Places.cutOff (ofInt n) places) := rfl
  have fixed : Places.fixed (.int (n * 10 ^ places)) places =
      .ok (Places.cutOff (ofInt n) places) := by
    rw [Places.cutOff_ofInt_eq_fixedInt]
    rfl
  exact ⟨_, truncated, fixed,
    format_directive (whole_numbered places (by decide)) (insertPlaces_number truncated _),
    format_directive (whole_numbered places (by decide)) (insertPlaces_number fixed _),
    Places.hasPlaces_cutOff_ofInt n places, Places.value?_cutOff_ofInt n places⟩

end Control

end LogicFormat
