import LogicFormat.Proofs.Term.Edges
import LogicFormat.Proofs.Term.Written

/-!
# A minus sign before a term

A blank keeps the prefix minus away from a numeral, but not from a power of one: nothing binds
tighter than a power, so no other term shows a digit right behind the sign.
-/

namespace LogicFormat

open Text (Begins begins_cons)

namespace Operator

theorem power_le_level : ∀ op ∈ binaryOperators, 200 ≤ op.level := by
  decide

/-- Only powers are tight enough for the operand of a sign, and their bases are tighter yet. -/
theorem power_of_level : ∀ op ∈ binaryOperators, op.level = 200 →
    (op.name = "^" ∨ op.name = "**") ∧ op.left = .tighter := by
  decide

theorem binary?_power {name : Text} (power : name = "^" ∨ name = "**") :
    ∃ right, binary? name = some ⟨name, 200, .tighter, right⟩ := by
  rcases power with rfl | rfl
  · exact ⟨.equal, by decide⟩
  · exact ⟨.tighter, by decide⟩

end Operator

namespace Style

variable {style : Style} {belongs : Bool}

theorem isNumeral_compound (style : Style) (name : Text) (first : Phrase) (others : List Phrase) :
    (style.compound name first others).isNumeral = false := by
  unfold Style.compound
  split
  · split
    · rfl
    · split <;> rfl
  · split
    · obtain ⟨items, rest, isSequence⟩ := style.exists_sequence first _
      rw [isSequence]
      rfl
    · split <;> rfl
  · rfl

/-- A digit comes right behind a sign if the operand begins with it and is no numeral. -/
theorem begins_behind_sign (op : UnaryOperator) {phrase : Phrase}
    (h : Begins Char.isDigit belongs (style.operand (op.operand.bound op.level) phrase)) :
    ∃ rest, style.unary op phrase = .operation op.level (style.atom op.name ++ rest) ∧
      Begins Char.isDigit (!phrase.isNumeral && belongs) rest := by
  obtain ⟨c, inside, shown, rfl⟩ := h
  rw [Style.unary, shown]
  split
  · next apart =>
      refine ⟨' ' :: c :: inside, rfl, begins_cons ?_ _⟩
      simp only [List.head?_cons, Option.some.injEq, Bool.or_eq_true, decide_eq_true_eq] at apart
      rcases apart with numeral | rfl
      · rw [numeral]
        rfl
      · exact (Bool.and_false _).symm
  · next close =>
      simp only [Bool.or_eq_true, not_or, Bool.not_eq_true] at close
      unfold besides
      split
      · next fuses =>
          refine ⟨' ' :: c :: inside, rfl, begins_cons ?_ _⟩
          simp only [Atom.fuses, List.head?_cons, Option.any_some, Bool.and_eq_true] at fuses
          rw [(Token.symbolChar_not fuses.2).2, Bool.and_false]
          rfl
      · refine ⟨c :: inside, rfl, begins_cons ?_ _⟩
        rw [close.1]
        rfl

end Style

namespace Term

variable {style : Style} {t : Term} {p : Phrase}

theorem isNumeral_phrase (written : t.phrase style = .ok p) :
    p.isNumeral = t.numeral?.isSome := by
  cases t with
  | compound name first others =>
      obtain ⟨one, ps, -, -, rfl⟩ := exists_phrase_of_compound written
      exact style.isNumeral_compound name one ps
  | null =>
      rw [phrase] at written
      cases written
  | list items =>
      obtain ⟨ps, -, rfl⟩ := exists_phrase_of_list written
      rfl
  | tuple items =>
      obtain ⟨ps, -, rfl⟩ := exists_phrase_of_tuple written
      rfl
  | _ =>
      rw [phrase] at written
      cases written
      rfl

/-- Where no operation can stand bare, only a number begins with a digit. -/
theorem beginsWithDigit_tight {bound : Int} (tight : bound < 200) :
    t.beginsWithDigit bound = true ↔
      ∃ d rest, t.numeral? = some (d :: rest) ∧ d.isDigit = true := by
  have number (text : Text) : text.head?.any Char.isDigit = true ↔
      ∃ d rest, some text = some (d :: rest) ∧ d.isDigit = true := by
    cases text <;> simp
  cases t with
  | int n => exact number _
  | float x => exact number _
  | compound name first others =>
      refine iff_of_false (fun begins => ?_) (by simp [numeral?])
      rcases others with _ | ⟨second, _ | ⟨third, others⟩⟩
      · cases begins
      · rw [beginsWithDigit] at begins
        split at begins
        · next op known =>
            have loose := Operator.power_le_level op (Operator.of_binary? known).1
            rw [Bool.and_eq_true, decide_eq_true_eq] at begins
            omega
        · cases begins
      · cases begins
  | _ => simp [beginsWithDigit, numeral?]

/-- A power whose base is a number with a digit at its front. -/
def IsDigitPower (t : Term) : Prop :=
  ∃ name base exponent d rest, (name = "^".toList ∨ name = "**".toList) ∧
    t = .compound name base [exponent] ∧ base.numeral? = some (d :: rest) ∧ d.isDigit = true

theorem IsDigitPower.not_simple (h : t.IsDigitPower) :
    t.numeral? = none ∧ t.isOperator = false := by
  obtain ⟨name, base, exponent, d, rest, -, rfl, -, -⟩ := h
  exact ⟨rfl, rfl⟩

theorem beginsWithDigit_operand (compound : t.numeral? = none) :
    t.beginsWithDigit 200 = true ↔ t.IsDigitPower := by
  constructor
  · intro begins
    cases t with
    | int n => cases compound
    | float x => cases compound
    | compound name base others =>
        rcases others with _ | ⟨exponent, _ | ⟨third, others⟩⟩
        · cases begins
        · rw [beginsWithDigit] at begins
          split at begins
          · next op known =>
              obtain ⟨listed, rfl⟩ := Operator.of_binary? known
              rw [Bool.and_eq_true, Bool.and_eq_true, decide_eq_true_eq] at begins
              obtain ⟨tight, -, inside⟩ := begins
              have level : op.level = 200 := by
                have := Operator.power_le_level op listed
                omega
              obtain ⟨power, left⟩ := Operator.power_of_level op listed level
              rw [level, left, beginsWithDigit_tight (by decide)] at inside
              obtain ⟨d, rest, shown, digit⟩ := inside
              exact ⟨op.name, base, exponent, d, rest, power, rfl, shown, digit⟩
          · cases begins
        · cases begins
    | _ => cases begins
  · rintro ⟨name, base, exponent, d, rest, power, rfl, shown, digit⟩
    obtain ⟨right, known⟩ := Operator.binary?_power power
    have plain : base.isOperator = false := by
      cases base <;> first | rfl | cases shown
    have inside : base.beginsWithDigit 199 = true :=
      (beginsWithDigit_tight (by decide)).mpr ⟨d, rest, shown, digit⟩
    rw [beginsWithDigit, known]
    simp only [plain]
    exact inside

/-- A compound term with the functor minus and one argument is written with a digit right behind
the sign if its argument is a power of a number that begins with one, and in no other case. -/
theorem write_minus (writable : .null ∉ t.subterms) :
    ∃ text, (compound ['-'] t []).write ⟨true, []⟩ = .ok text ∧
      ((∃ d rest, text = '-' :: d :: rest ∧ d.isDigit = true) ↔ t.IsDigitPower) := by
  obtain ⟨p, written⟩ := (refuses_phrase ⟨true, []⟩ t).written (mt mem_subterms.mpr writable)
  have edge := Style.edge_operand Style.begins_inBrackets
    (begins_phrase rfl Naming.regular_nil t p written 200)
  rw [(level_phrase written).2] at edge
  obtain ⟨rest, shown, c, inside, rfl, digit⟩ :=
    Style.begins_behind_sign ⟨['-'], 200, .equal⟩ edge
  rw [isNumeral_phrase written] at digit
  refine ⟨'-' :: c :: inside, ?_, ?_⟩
  · have minus : Style.compound ⟨true, []⟩ ['-'] p [] = .operation 200 ('-' :: c :: inside) := shown
    rw [write, writeWithin, phrase, written, Outcome.ok_bind, phrases, Outcome.ok_bind]
    exact congrArg (fun whole => Except.ok (Style.within ⟨true, []⟩ termLevel whole)) minus
  · have front : (∃ d rest, '-' :: c :: inside = '-' :: d :: rest ∧ d.isDigit = true) ↔
        c.isDigit = true := by simp
    rw [front, digit, Bool.and_eq_true, Bool.and_eq_true]
    constructor
    · rintro ⟨compound, -, begins⟩
      exact (beginsWithDigit_operand (by simpa using compound)).mp begins
    · intro power
      obtain ⟨compound, plain⟩ := power.not_simple
      rw [compound, plain]
      exact ⟨rfl, rfl, (beginsWithDigit_operand compound).mpr power⟩

/-- The sign stands right before a digit, as in the numeral of a negative number. -/
theorem write_minus_power :
    (compound ['-'] (compound ['^'] (.int 2) [.int 3]) []).write ⟨true, []⟩ =
      .ok "-2^3".toList := by
  decide +kernel

theorem write_minus_negative :
    .null ∉ (compound ['^'] (.int (-2)) [.int 3]).subterms ∧
      (compound ['-'] (compound ['^'] (.int (-2)) [.int 3]) []).write ⟨true, []⟩ =
        .ok "- -2^3".toList ∧
      ∃ text, (compound ['-'] (compound ['^'] (.int (-2)) [.int 3]) []).write ⟨true, []⟩ =
        .ok text ∧ ((∃ d rest, text = '-' :: d :: rest ∧ d.isDigit = true) ↔
          (compound ['^'] (.int (-2)) [.int 3]).IsDigitPower) := by
  have writable : .null ∉ (compound ['^'] (.int (-2)) [.int 3]).subterms := by
    rw [mem_subterms]
    decide
  exact ⟨writable, by decide +kernel, write_minus writable⟩

end Term

end LogicFormat
