import LogicFormat.Proofs.Notation.Lossless
import LogicFormat.Proofs.Number.Digits
import LogicFormat.Proofs.Term.Written
import LogicFormat.Proofs.Text.Runs

/-!
# The edges of written terms

The last character of a quoted term is a symbol character if an atom of symbol characters stands
bare at the end of its last operands; the first one is a digit if a number stands at the front of
its first operands. Whatever is put in brackets on the way shows a bracket instead.
-/

namespace LogicFormat

open Text (Begins Finishes begins_cons finishes_concat finishes_of_all)

namespace Naming.Regular

variable {names : Naming} (regular : names.Regular)

include regular

theorem plain (n : Nat) : ∀ c ∈ names.nameOf n, Atom.isSymbolChar c = false ∧ c ≠ '(' := by
  rcases regular n with name | ⟨i, name⟩ <;> rw [name]
  · exact Token.symbol_of_name legible_displayVar n
  · exact Token.symbol_of_name legible_generated i

theorem begins (n : Nat) : Begins Char.isDigit false (names.nameOf n) := by
  rcases regular n with name | ⟨i, name⟩ <;> rw [name]
  · exact begins_cons rfl _
  · rw [generated_eq]
    exact begins_cons (letter_table (i % 26) (Nat.mod_lt i (by decide))).2.2.1 _

theorem finishes (n : Nat) : Finishes Atom.isSymbolChar false (names.nameOf n) := by
  obtain ⟨c, rest, shown, -⟩ := regular.begins n
  refine finishes_of_all ?_ fun c hc => (regular.plain n c hc).1
  rw [shown]
  exact List.cons_ne_nil c rest

end Naming.Regular

namespace Numeral

theorem finishes_digits {text : Text} (nonempty : text ≠ []) (h : ∀ c ∈ text, c.isDigit = true) :
    Finishes Atom.isSymbolChar false text :=
  finishes_of_all nonempty fun c hc => Token.symbol_of_isDigit (h c hc)

theorem finishes_ofNat (n : Nat) : Finishes Atom.isSymbolChar false (ofNat n) :=
  finishes_digits Nat.toDigits_ne_nil Naming.isDigit_ofNat

theorem finishes_signed (negative : Bool) {text : Text}
    (h : Finishes Atom.isSymbolChar false text) :
    Finishes Atom.isSymbolChar false (signed negative text) := by
  cases negative with
  | false => exact h
  | true => exact h.cons '-'

theorem finishes_ofInt (n : Int) : Finishes Atom.isSymbolChar false (ofInt n) :=
  finishes_signed _ (finishes_ofNat _)

theorem finishes_positional (d : Decimal) :
    Finishes Atom.isSymbolChar false (NumeralStyle.positional d) := by
  refine (Finishes.cons '.' ?_).append d.wholePart
  split
  · exact finishes_concat [] rfl
  · next some =>
      exact finishes_digits some fun c hc =>
        d.isDigit_positionalDigits c (List.drop_subset _ _ hc)

theorem finishes_write (style : NumeralStyle) (d : Decimal) :
    Finishes Atom.isSymbolChar false (style.write d) := by
  unfold NumeralStyle.write
  split
  · exact finishes_positional d
  · exact (((finishes_ofNat _).append _).cons 'e').append _

theorem finishes_ofDouble (style : NumeralStyle) (x : Binary64) :
    Finishes Atom.isSymbolChar false (ofDouble style x) := by
  unfold ofDouble
  split
  · exact finishes_signed _ (finishes_write style _)
  · exact finishes_signed _ (finishes_concat ['i', 'n'] rfl)
  · exact finishes_concat ['n', 'a'] rfl

end Numeral

namespace Atom

theorem begins_quoted (name : Text) : Begins Char.isDigit false (quoted name) := by
  have nonempty : quoted name ≠ [] := Token.text_ne_nil (.atom name)
  obtain ⟨c, rest, shown⟩ := List.exists_cons_of_ne_nil nonempty
  rw [shown]
  refine begins_cons ?_ rest
  have front : c ∈ (quoted name).head? := by
    rw [shown]
    rfl
  rcases start_quoted c front with mark | lower | symbol
  · have table : starts.all (fun c => !c.isDigit) = true := by decide
    simpa using List.all_eq_true.mp table c mark
  · exact Bool.eq_false_iff.mpr fun digit =>
      Bool.eq_false_iff.mp (Token.isLower_of_isDigit digit) lower
  · exact (Token.symbolChar_not symbol.2).2

theorem symbol_of_isWordChar {c : Char} (h : isWordChar c = true) : isSymbolChar c = false := by
  have table : symbolChars.all (fun c => !isWordChar c) = true := by decide
  refine Bool.eq_false_iff.mpr fun symbol => ?_
  have listed : c ∈ symbolChars := by simpa [isSymbolChar] using symbol
  have := List.all_eq_true.mp table c listed
  rw [h] at this
  exact Bool.false_ne_true this

/-- Only a run of symbol characters ends with one. -/
theorem finishes_quoted (name : Text) : Finishes isSymbolChar (isSymbol name) (quoted name) := by
  rcases symbol : isSymbol name with _ | _
  · unfold quoted
    split
    · exact finishes_concat _ rfl
    next bare =>
      simp only [needsQuotes, symbol, Bool.or_false, Bool.not_eq_true, Bool.not_eq_false',
        Bool.or_eq_true] at bare
      rcases bare with solo | word
      · simp only [isSolo, Bool.or_eq_true, decide_eq_true_eq] at solo
        rcases solo with ((rfl | rfl) | rfl) | rfl
        · exact finishes_concat ['['] rfl
        · exact finishes_concat ['\x7b'] rfl
        · exact finishes_concat [] rfl
        · exact finishes_concat [] rfl
      · cases name with
        | nil => cases word
        | cons c rest =>
            simp only [isWord, Bool.and_eq_true, List.all_eq_true] at word
            refine finishes_of_all (List.cons_ne_nil c rest) (List.forall_mem_cons.mpr ⟨?_, ?_⟩)
            · exact Token.symbol_of_isLower word.1
            · exact fun d hd => symbol_of_isWordChar (word.2 d hd)
  · rw [quoted_symbol symbol]
    simp only [isSymbol, Bool.and_eq_true, decide_eq_true_eq, List.all_eq_true] at symbol
    exact finishes_of_all symbol.1.1 symbol.1.2

end Atom

namespace Style

variable {style : Style} {p : Char → Bool} {belongs : Bool} {bound : Int}

theorem atom_of_quoted (quoted : style.quoted = true) (name : Text) :
    style.atom name = Atom.quoted name := if_pos quoted

theorem begins_besides {left : Text} (h : Begins p belongs left) (right : Text) :
    Begins p belongs (besides left right) := by
  unfold besides
  split
  · exact h.append _
  · exact h.append _

theorem finishes_besides (left : Text) {right : Text} (h : Finishes p belongs right) :
    Finishes p belongs (besides left right) := by
  unfold besides
  split
  · exact (h.cons ' ').append left
  · exact h.append left

theorem finishes_sequence (style : Style) (items : List Item) (tail : Option Text) :
    Finishes Atom.isSymbolChar false (style.sequence items tail) := by
  unfold Style.sequence
  split
  · exact finishes_concat ['['] rfl
  split
  · exact finishes_concat _ rfl
  · split
    · exact finishes_concat _ rfl
    · exact finishes_concat _ rfl

theorem begins_sequence (style : Style) (items : List Item) (tail : Option Text) :
    Begins Char.isDigit false (style.sequence items tail) := by
  unfold Style.sequence
  split
  · exact begins_cons rfl _
  split
  · exact begins_cons rfl _
  · split
    · exact begins_cons rfl _
    · exact begins_cons rfl _

theorem exists_sequence (style : Style) (head tail : Phrase) :
    ∃ items rest, style.pair head tail = .sequence items rest := by
  unfold Style.pair
  split
  · exact ⟨_, _, rfl⟩
  · split <;> exact ⟨_, _, rfl⟩
  · exact ⟨_, _, rfl⟩

section Edge

variable {Edge : Bool → Text → Prop} (brackets : ∀ text, Edge false (inBrackets text))

include brackets

theorem edge_operation (style : Style) (level : Nat) {text : Text} (h : Edge belongs text)
    (bound : Int) :
    Edge (decide (level ≤ bound) && belongs) (style.within bound (.operation level text)) := by
  rw [Style.within]
  split
  · next loose =>
      rw [decide_eq_false (Int.not_le.mpr loose)]
      exact brackets text
  · next tight =>
      rw [decide_eq_true (Int.not_lt.mp tight)]
      exact h

theorem edge_operand {phrase : Phrase} (h : Edge belongs (style.within bound phrase)) :
    Edge (!phrase.isOperator && belongs) (style.operand bound phrase) := by
  unfold Style.operand
  dsimp only
  split
  · next operator =>
      rw [operator]
      exact brackets _
  · next plain =>
      rw [Bool.eq_false_iff.mpr plain]
      exact h

end Edge

theorem finishes_inBrackets (text : Text) : Finishes Atom.isSymbolChar false (inBrackets text) :=
  finishes_concat ('(' :: text) rfl

theorem begins_inBrackets (text : Text) : Begins Char.isDigit false (inBrackets text) :=
  begins_cons rfl _

theorem finishes_applied (style : Style) (name : Text) (arguments : List Phrase) (bound : Int) :
    Finishes Atom.isSymbolChar false (style.within bound (style.applied name arguments)) :=
  (finishes_inBrackets _).append _

theorem finishes_binary (op : BinaryOperator) (left : Phrase) {right : Phrase}
    (h : Finishes p belongs (style.operand (op.right.bound op.level) right)) :
    ∃ text, style.binary op left right = .operation op.level text ∧ Finishes p belongs text := by
  refine ⟨_, rfl, ?_⟩
  split
  · exact (h.cons ' ').append _
  · exact finishes_besides _ h

theorem finishes_unary (op : UnaryOperator) {phrase : Phrase}
    (h : Finishes p belongs (style.operand (op.operand.bound op.level) phrase)) :
    ∃ text, style.unary op phrase = .operation op.level text ∧ Finishes p belongs text := by
  refine ⟨_, rfl, ?_⟩
  split
  · exact (h.cons ' ').append _
  · exact finishes_besides _ h

theorem begins_applied (style : Style) (quoted : style.quoted = true) (name : Text)
    (arguments : List Phrase) (bound : Int) :
    Begins Char.isDigit false (style.within bound (style.applied name arguments)) := by
  refine Begins.append ?_ _
  rw [atom_of_quoted quoted]
  exact Atom.begins_quoted name

theorem begins_unary (quoted : style.quoted = true) (op : UnaryOperator) (phrase : Phrase) :
    ∃ text, style.unary op phrase = .operation op.level text ∧ Begins Char.isDigit false text := by
  refine ⟨_, rfl, ?_⟩
  have sign : Begins Char.isDigit false (style.atom op.name) := by
    rw [atom_of_quoted quoted]
    exact Atom.begins_quoted op.name
  split
  · exact sign.append _
  · exact begins_besides sign _

theorem begins_binary (op : BinaryOperator) {left : Phrase} (right : Phrase)
    (h : Begins p belongs (style.operand (op.left.bound op.level) left)) :
    ∃ text, style.binary op left right = .operation op.level text ∧ Begins p belongs text := by
  refine ⟨_, rfl, ?_⟩
  split
  · exact (h.append _).append _
  · exact begins_besides (begins_besides h _) _

end Style

namespace Term

/-- Whether the term ends with a bare atom of symbol characters, where nothing looser than `bound`
may stand: it is one, or an operation without brackets around it whose last operand ends so. -/
def endsInSymbol : Term → Int → Bool
  | .atom name, _ => Atom.isSymbol name
  | .compound name operand [], bound =>
      match Operator.unary? name with
      | some op =>
          op.level ≤ bound &&
            (!operand.isOperator && operand.endsInSymbol (op.operand.bound op.level))
      | none => false
  | .compound name _ [right], bound =>
      match Operator.binary? name with
      | some op =>
          op.level ≤ bound &&
            (!right.isOperator && right.endsInSymbol (op.right.bound op.level))
      | none => false
  | _, _ => false

/-- Whether the term begins with the digit of a number, where nothing looser than `bound` may
stand: it is such a number, or an operation without brackets around it whose first operand begins
so. -/
def beginsWithDigit : Term → Int → Bool
  | .int n, _ => (Numeral.ofInt n).head?.any Char.isDigit
  | .float x, _ => (Numeral.ofDouble .written x).head?.any Char.isDigit
  | .compound name left [_], bound =>
      match Operator.binary? name with
      | some op =>
          op.level ≤ bound && (!left.isOperator && left.beginsWithDigit (op.left.bound op.level))
      | none => false
  | _, _ => false

variable {style : Style}

theorem finishes_phrase (quoted : style.quoted = true) (regular : style.names.Regular) :
    (t : Term) → (p : Phrase) → t.phrase style = .ok p → (bound : Int) →
      Finishes Atom.isSymbolChar (t.endsInSymbol bound) (style.within bound p)
  | .compound name operand [], p, written, bound => by
      obtain ⟨one, ps, isOne, all, rfl⟩ := exists_phrase_of_compound written
      have inside := finishes_phrase quoted regular operand one isOne
      have operator := (level_phrase isOne).2
      cases all
      rw [Style.compound, endsInSymbol, ← operator]
      by_cases braces : name = "\x7b\x7d".toList
      · subst braces
        exact finishes_concat _ rfl
      rw [if_neg braces]
      cases Operator.unary? name with
      | none => exact style.finishes_applied name [one] bound
      | some op =>
          obtain ⟨text, isOperation, last⟩ :=
            Style.finishes_unary op (Style.edge_operand Style.finishes_inBrackets (inside _))
          simp only [isOperation]
          exact Style.edge_operation Style.finishes_inBrackets style op.level last bound
  | .compound name first [right], p, written, bound => by
      obtain ⟨one, ps, isOne, all, rfl⟩ := exists_phrase_of_compound written
      obtain ⟨two, isTwo, rfl⟩ := exists_phrase_of_singleton all
      have inside := finishes_phrase quoted regular right two isTwo
      have operator := (level_phrase isTwo).2
      rw [Style.compound, endsInSymbol, ← operator]
      by_cases pair : name = ['.']
      · subst pair
        obtain ⟨items, rest, isSequence⟩ := style.exists_sequence one two
        rw [if_pos rfl, isSequence]
        exact style.finishes_sequence items rest
      rw [if_neg pair]
      cases Operator.binary? name with
      | none => exact style.finishes_applied name [one, two] bound
      | some op =>
          obtain ⟨text, isOperation, last⟩ := Style.finishes_binary op one
            (Style.edge_operand Style.finishes_inBrackets (inside _))
          simp only [isOperation]
          exact Style.edge_operation Style.finishes_inBrackets style op.level last bound
  | .compound name first (second :: third :: others), p, written, bound => by
      obtain ⟨one, ps, isOne, all, rfl⟩ := exists_phrase_of_compound written
      obtain ⟨two, ps, -, more, rfl⟩ := exists_phrases_of_cons all
      obtain ⟨three, ps, -, -, rfl⟩ := exists_phrases_of_cons more
      exact style.finishes_applied name (one :: two :: three :: ps) bound
  | .var n, p, written, bound => by
      rw [phrase] at written
      cases written
      exact regular.finishes n
  | .atom name, p, written, bound => by
      rw [phrase] at written
      cases written
      rw [endsInSymbol, Style.within, Style.atom_of_quoted quoted]
      exact Atom.finishes_quoted name
  | .int n, p, written, bound => by
      rw [phrase] at written
      cases written
      exact Numeral.finishes_ofInt n
  | .float x, p, written, bound => by
      rw [phrase] at written
      cases written
      exact Numeral.finishes_ofDouble _ x
  | .bool b, p, written, bound => by
      rw [phrase] at written
      cases written
      cases b
      · exact finishes_concat ['f', 'a', 'l', 's'] rfl
      · exact finishes_concat ['t', 'r', 'u'] rfl
  | .null, p, written, bound => by
      rw [phrase] at written
      cases written
  | .list items, p, written, bound => by
      obtain ⟨ps, -, rfl⟩ := exists_phrase_of_list written
      exact style.finishes_sequence _ _
  | .tuple items, p, written, bound => by
      obtain ⟨ps, -, rfl⟩ := exists_phrase_of_tuple written
      exact style.finishes_sequence _ _

theorem begins_phrase (quoted : style.quoted = true) (regular : style.names.Regular) :
    (t : Term) → (p : Phrase) → t.phrase style = .ok p → (bound : Int) →
      Begins Char.isDigit (t.beginsWithDigit bound) (style.within bound p)
  | .compound name operand [], p, written, bound => by
      obtain ⟨one, ps, isOne, all, rfl⟩ := exists_phrase_of_compound written
      cases all
      have never : (compound name operand []).beginsWithDigit bound = false := rfl
      rw [Style.compound, never]
      by_cases braces : name = "\x7b\x7d".toList
      · rw [if_pos braces]
        exact begins_cons rfl _
      rw [if_neg braces]
      cases Operator.unary? name with
      | none => exact style.begins_applied quoted name [one] bound
      | some op =>
          obtain ⟨text, isOperation, first⟩ := Style.begins_unary quoted op one
          have edge := Style.edge_operation Style.begins_inBrackets style op.level first bound
          rw [Bool.and_false] at edge
          simpa only [isOperation] using edge
  | .compound name left [right], p, written, bound => by
      obtain ⟨one, ps, isOne, all, rfl⟩ := exists_phrase_of_compound written
      obtain ⟨two, -, rfl⟩ := exists_phrase_of_singleton all
      have inside := begins_phrase quoted regular left one isOne
      have operator := (level_phrase isOne).2
      rw [Style.compound, beginsWithDigit, ← operator]
      by_cases pair : name = ['.']
      · subst pair
        obtain ⟨items, rest, isSequence⟩ := style.exists_sequence one two
        rw [if_pos rfl, isSequence]
        exact style.begins_sequence items rest
      rw [if_neg pair]
      cases Operator.binary? name with
      | none => exact style.begins_applied quoted name [one, two] bound
      | some op =>
          obtain ⟨text, isOperation, first⟩ := Style.begins_binary op two
            (Style.edge_operand Style.begins_inBrackets (inside _))
          simp only [isOperation]
          exact Style.edge_operation Style.begins_inBrackets style op.level first bound
  | .compound name first (second :: third :: others), p, written, bound => by
      obtain ⟨one, ps, -, all, rfl⟩ := exists_phrase_of_compound written
      obtain ⟨two, ps, -, more, rfl⟩ := exists_phrases_of_cons all
      obtain ⟨three, ps, -, -, rfl⟩ := exists_phrases_of_cons more
      exact style.begins_applied quoted name (one :: two :: three :: ps) bound
  | .var n, p, written, bound => by
      rw [phrase] at written
      cases written
      exact regular.begins n
  | .atom name, p, written, bound => by
      rw [phrase] at written
      cases written
      rw [Style.within, Style.atom_of_quoted quoted]
      exact Atom.begins_quoted name
  | .int n, p, written, bound => by
      rw [phrase] at written
      cases written
      exact Text.begins_head (Numeral.finishes_ofInt n).ne_nil
  | .float x, p, written, bound => by
      rw [phrase] at written
      cases written
      exact Text.begins_head (Numeral.finishes_ofDouble _ x).ne_nil
  | .bool b, p, written, bound => by
      rw [phrase] at written
      cases written
      cases b <;> exact begins_cons rfl _
  | .null, p, written, bound => by
      rw [phrase] at written
      cases written
  | .list items, p, written, bound => by
      obtain ⟨ps, -, rfl⟩ := exists_phrase_of_list written
      exact style.begins_sequence _ _
  | .tuple items, p, written, bound => by
      obtain ⟨ps, -, rfl⟩ := exists_phrase_of_tuple written
      exact style.begins_sequence _ _

end Term

end LogicFormat
