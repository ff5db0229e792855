import LogicFormat.Proofs.Notation.Escape
import LogicFormat.Proofs.Number.Digits
import LogicFormat.Proofs.Term.Written
import LogicFormat.Proofs.Text.Free
import LogicFormat.Proofs.Text.Lines

/-!
# Control characters in quoted terms

A control character of an atom is written as an escape, and nothing else in a term holds any. A
quoted term is therefore free of every class of control characters that the names of its variables
are free of. In particular it stays on one line.
-/

namespace LogicFormat

open Text (Free OfControls isControl free_nil free_append free_cons free_enclosed free_intercalate
  free_word free_symbol free_letters free_digits)

namespace Numeral

theorem free_ofNat (n : Nat) : Free isControl (ofNat n) := free_digits Naming.isDigit_ofNat

theorem free_zeros (n : Nat) : Free isControl (Text.zeros n) := by
  intro c hc
  rw [List.eq_of_mem_replicate hc]
  rfl

theorem free_signed (negative : Bool) {text : Text} (h : Free isControl text) :
    Free isControl (signed negative text) := by
  cases negative with
  | false => exact h
  | true => exact free_cons.mpr ⟨rfl, h⟩

theorem free_ofInt (n : Int) : Free isControl (ofInt n) := free_signed _ (free_ofNat _)

theorem free_positional (d : Decimal) : Free isControl (NumeralStyle.positional d) := by
  refine free_append.mpr ⟨free_digits d.isDigit_wholePart, free_cons.mpr ⟨rfl, ?_⟩⟩
  split
  · decide
  · exact free_digits d.isDigit_fractionPart

theorem free_mantissa (style : NumeralStyle) {digits : Text} (h : Free isControl digits) :
    Free isControl (style.mantissa digits) := by
  unfold NumeralStyle.mantissa
  split
  · exact h
  · split
    · exact free_cons.mpr ⟨(free_cons.mp h).1, by decide⟩
    · exact h
  · have parts := free_cons.mp h
    exact free_cons.mpr ⟨parts.1, free_cons.mpr ⟨rfl, parts.2⟩⟩

theorem free_exponentText (style : NumeralStyle) (order : Int) :
    Free isControl (style.exponentText order) := by
  refine free_append.mpr ⟨free_append.mpr ⟨?_, free_zeros _⟩, free_ofNat _⟩
  split
  · decide
  · split <;> decide

theorem free_write (style : NumeralStyle) (d : Decimal) : Free isControl (style.write d) := by
  unfold NumeralStyle.write
  split
  · exact free_positional d
  · exact free_append.mpr ⟨free_mantissa style (free_ofNat d.significand),
      free_cons.mpr ⟨rfl, free_exponentText style _⟩⟩

theorem free_ofDouble (style : NumeralStyle) (x : Binary64) :
    Free isControl (ofDouble style x) := by
  unfold ofDouble
  split
  · exact free_signed _ (free_write style _)
  · exact free_signed _ (by decide)
  · decide

end Numeral

namespace Atom

theorem free_hexadecimal {digits : Text} (h : ∀ c ∈ digits, isHexDigit c = true) :
    Free isControl digits := by
  intro c hc
  have hex := h c hc
  simp only [isHexDigit, Bool.or_eq_true, Bool.and_eq_true, decide_eq_true_eq] at hex
  rcases hex with digit | ⟨low, high⟩
  · exact free_digits (List.forall_mem_singleton.mpr digit) c List.mem_cons_self
  · have low : 97 ≤ c.toNat := low
    have high : c.toNat ≤ 102 := high
    simp only [isControl, Bool.or_eq_false_iff, decide_eq_false_iff_not]
    omega

theorem free_escaped {quote : Char} (plain : isControl quote = false) (c : Char) :
    Free isControl (escaped quote c) := by
  unfold escaped
  split
  · next h =>
      simp only [Bool.or_eq_true, decide_eq_true_eq] at h
      refine free_cons.mpr ⟨rfl, free_cons.mpr ⟨?_, free_nil⟩⟩
      rcases h with rfl | rfl
      · exact plain
      · rfl
  -- the eight escapes by a letter
  iterate 8
    split
    · decide
  split
  · next control =>
      have low : c.toNat < 128 := by
        simp only [Bool.or_eq_true, decide_eq_true_eq] at control
        omega
      have digits := List.all_eq_true.mp (hexadecimal_control c.toNat low).1
      exact free_append.mpr
        ⟨free_append.mpr ⟨by decide, free_hexadecimal digits⟩, by decide⟩
  · next plain => exact free_cons.mpr ⟨by simpa [isControl] using plain, free_nil⟩

theorem free_between {quote : Char} (plain : isControl quote = false) (text : Text) :
    Free isControl (between quote text) := by
  refine free_enclosed plain plain fun d hd => ?_
  obtain ⟨c, -, hd⟩ := List.mem_flatMap.mp hd
  exact free_escaped plain c d hd

theorem free_of_not_needsQuotes {name : Text} (h : needsQuotes name = false) :
    Free isControl name := by
  simp only [needsQuotes, Bool.not_eq_false', Bool.or_eq_true] at h
  rcases h with (solo | word) | symbol
  · simp only [isSolo, Bool.or_eq_true, decide_eq_true_eq] at solo
    rcases solo with ((rfl | rfl) | rfl) | rfl <;> decide
  · cases name with
    | nil => exact free_nil
    | cons c rest =>
        simp only [isWord, Bool.and_eq_true, List.all_eq_true] at word
        have letter : c.isAlpha = true := Bool.or_eq_true_iff.mpr (.inr word.1)
        have first := free_letters (List.forall_mem_singleton.mpr letter)
        exact free_append.mpr ⟨first, free_word word.2⟩
  · simp only [isSymbol, Bool.and_eq_true, List.all_eq_true] at symbol
    exact free_symbol symbol.1.2

theorem free_quoted (name : Text) : Free isControl (quoted name) := by
  unfold quoted
  split
  · exact free_between rfl name
  · next plain => exact free_of_not_needsQuotes (by simpa using plain)

end Atom

/-- What a phrase is put together from is free of the class; a bare atom is still to be quoted. -/
def Phrase.Free (p : Char → Bool) : Phrase → Prop
  | .numeral text => Text.Free p text
  | .atom _ => True
  | .closed text => Text.Free p text
  | .operation _ text => Text.Free p text
  | .sequence items tail =>
      (∀ item ∈ items, Text.Free p item.text) ∧ ∀ rest ∈ tail, Text.Free p rest

structure Style.Free (p : Char → Bool) (style : Style) : Prop where
  quoted : style.quoted = true
  names : ∀ n, Text.Free p (style.names.nameOf n)

section

variable {p : Char → Bool} (controls : OfControls p)

include controls

theorem Style.free_sequence (style : Style) {items : List Item} {tail : Option Text}
    (free : (Phrase.sequence items tail).Free p) : Text.Free p (style.sequence items tail) := by
  have comma : Text.Free p [','] := free_cons.mpr ⟨controls ',' rfl, free_nil⟩
  have inside : Text.Free p ([','].intercalate (items.map Item.text)) :=
    free_intercalate comma (List.forall_mem_map.mpr free.1)
  have enclosed {text : Text} (h : Text.Free p text) : Text.Free p ('[' :: text ++ [']']) :=
    free_enclosed (controls '[' rfl) (controls ']' rfl) h
  unfold Style.sequence
  split
  · exact enclosed free_nil
  split
  · exact (Atom.free_between rfl _).mono controls
  · split
    · exact enclosed inside
    · next rest _ =>
        have parts : Text.Free p ([','].intercalate (items.map Item.text) ++ '|' :: rest) :=
          free_append.mpr ⟨inside, free_cons.mpr ⟨controls '|' rfl, free.2 rest rfl⟩⟩
        exact enclosed parts

theorem free_inBrackets {text : Text} (h : Text.Free p text) : Text.Free p (inBrackets text) :=
  free_enclosed (controls '(' rfl) (controls ')' rfl) h

theorem free_spaced {left right : Text} (hleft : Text.Free p left) (hright : Text.Free p right) :
    Text.Free p (left ++ ' ' :: right) :=
  free_append.mpr ⟨hleft, free_cons.mpr ⟨controls ' ' rfl, hright⟩⟩

theorem free_besides {left right : Text} (hleft : Text.Free p left) (hright : Text.Free p right) :
    Text.Free p (besides left right) := by
  unfold besides
  split
  · exact free_spaced controls hleft hright
  · exact free_append.mpr ⟨hleft, hright⟩

end

namespace Style.Free

variable {p : Char → Bool} {style : Style} (controls : OfControls p) (h : style.Free p)

include controls h

theorem atom (name : Text) : Text.Free p (style.atom name) := by
  rw [Style.atom, if_pos h.quoted]
  exact (Atom.free_quoted name).mono controls

theorem within (bound : Int) {phrase : Phrase} (free : phrase.Free p) :
    Text.Free p (style.within bound phrase) := by
  cases phrase with
  | numeral text => exact free
  | atom name => exact h.atom controls name
  | closed text => exact free
  | operation level text =>
      rw [Style.within]
      split
      · exact free_inBrackets controls free
      · exact free
  | sequence items tail => exact style.free_sequence controls free

theorem operand (bound : Int) {phrase : Phrase} (free : phrase.Free p) :
    Text.Free p (style.operand bound phrase) := by
  have text := h.within controls bound free
  unfold Style.operand
  dsimp only
  split
  · exact free_inBrackets controls text
  · exact text

theorem item {phrase : Phrase} (free : phrase.Free p) : Text.Free p (style.item phrase).text :=
  h.within controls argumentLevel free

theorem pair {head tail : Phrase} (freeHead : head.Free p) (freeTail : tail.Free p) :
    (style.pair head tail).Free p := by
  have front : ∀ item ∈ [style.item head], Text.Free p item.text :=
    List.forall_mem_singleton.mpr (h.item controls freeHead)
  have behind : ∀ rest ∈ some (style.within argumentLevel tail), Text.Free p rest := by
    rintro _ ⟨⟩
    exact h.within controls argumentLevel freeTail
  unfold Style.pair
  split
  · exact ⟨List.forall_mem_cons.mpr ⟨h.item controls freeHead, freeTail.1⟩, freeTail.2⟩
  · split
    · exact ⟨front, nofun⟩
    · exact ⟨front, behind⟩
  · exact ⟨front, behind⟩

theorem sign (name : Text) : Text.Free p (style.sign name) := by
  unfold Style.sign
  split
  · next plain =>
      simp only [Bool.or_eq_true, decide_eq_true_eq] at plain
      rcases plain with rfl | rfl
      · exact free_cons.mpr ⟨controls ',' rfl, free_nil⟩
      · exact free_cons.mpr ⟨controls '|' rfl, free_nil⟩
  · exact h.atom controls name

theorem binary (op : BinaryOperator) {left right : Phrase} (freeLeft : left.Free p)
    (freeRight : right.Free p) : (style.binary op left right).Free p := by
  have leftText := h.operand controls (op.left.bound op.level) freeLeft
  have rightText := h.operand controls (op.right.bound op.level) freeRight
  have sign := h.sign controls op.name
  unfold Style.binary
  dsimp only [Phrase.Free]
  split
  · exact free_spaced controls (free_spaced controls leftText sign) rightText
  · exact free_besides controls (free_besides controls leftText sign) rightText

theorem unary (op : UnaryOperator) {phrase : Phrase} (free : phrase.Free p) :
    (style.unary op phrase).Free p := by
  have text := h.operand controls (op.operand.bound op.level) free
  have sign := h.atom controls op.name
  unfold Style.unary
  dsimp only [Phrase.Free]
  split
  · exact free_spaced controls sign text
  · exact free_besides controls sign text

theorem applied (name : Text) {arguments : List Phrase} (free : ∀ a ∈ arguments, a.Free p) :
    (style.applied name arguments).Free p := by
  have comma : Text.Free p [','] := free_cons.mpr ⟨controls ',' rfl, free_nil⟩
  have inside : ∀ part ∈ arguments.map (style.within argumentLevel), Text.Free p part :=
    List.forall_mem_map.mpr fun a ha => h.within controls argumentLevel (free a ha)
  exact free_append.mpr
    ⟨h.atom controls name, free_inBrackets controls (free_intercalate comma inside)⟩

theorem braced {phrase : Phrase} (free : phrase.Free p) : (style.braced phrase).Free p :=
  free_enclosed (controls '\x7b' rfl) (controls '\x7d' rfl) (h.within controls termLevel free)

theorem compound (name : Text) {first : Phrase} {others : List Phrase}
    (free : ∀ a ∈ first :: others, a.Free p) : (style.compound name first others).Free p := by
  have freeFirst := (List.forall_mem_cons.mp free).1
  unfold Style.compound
  split
  · split
    · exact h.braced controls freeFirst
    · split
      · exact h.unary controls _ freeFirst
      · exact h.applied controls name free
  · next second =>
      have freeSecond := free second (List.mem_cons_of_mem _ List.mem_cons_self)
      split
      · exact h.pair controls freeFirst freeSecond
      · split
        · exact h.binary controls _ freeFirst freeSecond
        · exact h.applied controls name free
  · exact h.applied controls name free

end Style.Free

namespace Term

variable {p : Char → Bool} {style : Style}

mutual

theorem free_phrase (controls : OfControls p) (h : style.Free p) :
    (t : Term) → ∀ a, t.phrase style = .ok a → a.Free p
  | .var n, a, written => by
      rw [phrase] at written
      cases written
      exact h.names n
  | .atom name, a, written => by
      rw [phrase] at written
      cases written
      trivial
  | .int n, a, written => by
      rw [phrase] at written
      cases written
      exact (Numeral.free_ofInt n).mono controls
  | .float x, a, written => by
      rw [phrase] at written
      cases written
      exact (Numeral.free_ofDouble _ x).mono controls
  | .bool b, a, written => by
      rw [phrase] at written
      cases written
      have name : Text.Free isControl (boolName b) := by cases b <;> decide
      exact name.mono controls
  | .null, a, written => by
      rw [phrase] at written
      cases written
  | .list items, a, written => by
      obtain ⟨ps, all, rfl⟩ := exists_phrase_of_list written
      have each : ∀ q ∈ ps, q.Free p := free_phrases controls h items ps all
      exact ⟨List.forall_mem_map.mpr fun q hq => h.item controls (each q hq), nofun⟩
  | .tuple items, a, written => by
      obtain ⟨ps, all, rfl⟩ := exists_phrase_of_tuple written
      have each : ∀ q ∈ ps, q.Free p := free_phrases controls h items ps all
      exact style.free_sequence controls
        ⟨List.forall_mem_map.mpr fun q hq => h.item controls (each q hq), nofun⟩
  | .compound name first others, a, written => by
      obtain ⟨one, ps, isOne, all, rfl⟩ := exists_phrase_of_compound written
      refine h.compound controls name (List.forall_mem_cons.mpr ⟨?_, ?_⟩)
      · exact free_phrase controls h first one isOne
      · exact free_phrases controls h others ps all

theorem free_phrases (controls : OfControls p) (h : style.Free p) :
    (ts : List Term) → ∀ ps, phrases style ts = .ok ps → ∀ a ∈ ps, a.Free p
  | [], ps, written => by
      rw [phrases] at written
      cases written
      exact nofun
  | t :: ts, ps, written => by
      obtain ⟨one, others, isOne, all, rfl⟩ := exists_phrases_of_cons written
      refine List.forall_mem_cons.mpr ⟨?_, ?_⟩
      · exact free_phrase controls h t one isOne
      · exact free_phrases controls h ts others all

end

theorem free_write (controls : OfControls p) (h : style.Free p) {t : Term} {text : Text}
    (written : t.write style = .ok text) : Text.Free p text := by
  obtain ⟨a, isPhrase, rfl⟩ := exists_phrase_of_write written
  exact h.within controls termLevel (free_phrase controls h t a isPhrase)

end Term

namespace Naming.Regular

theorem free {names : Naming} (regular : names.Regular) (n : Nat) :
    Text.Free isControl (names.nameOf n) := by
  rcases regular n with name | ⟨i, name⟩ <;> rw [name]
  · exact free_cons.mpr ⟨rfl, Numeral.free_ofNat n⟩
  · have upper := (letter_table (i % 26) (Nat.mod_lt i (by decide))).1
    have letter : (Char.ofNat ('A'.toNat + i % 26)).isAlpha = true :=
      Bool.or_eq_true_iff.mpr (.inl upper)
    have first := free_letters (List.forall_mem_singleton.mpr letter)
    rw [generated_eq]
    exact free_append.mpr ⟨first, free_digits isDigit_digits⟩

end Naming.Regular

/-! ## One line -/

namespace Text

def isNewline (c : Char) : Bool := c = '\n'

theorem ofControls_isNewline : OfControls isNewline := by
  intro c plain
  refine decide_eq_false ?_
  rintro rfl
  cases plain

theorem oneLine_iff_free {text : Text} : OneLine text ↔ Free isNewline text := by
  simp [OneLine, Free, isNewline, ← List.forall_mem_ne']

end Text

structure Style.OneLine (style : Style) : Prop where
  quoted : style.quoted = true
  names : ∀ n, Text.OneLine (style.names.nameOf n)

theorem Term.oneLine_write {style : Style} (h : style.OneLine) {t : Term} {text : Text}
    (written : t.write style = .ok text) : Text.OneLine text := by
  have free : style.Free Text.isNewline :=
    ⟨h.quoted, fun n => Text.oneLine_iff_free.mp (h.names n)⟩
  exact Text.oneLine_iff_free.mpr (free_write Text.ofControls_isNewline free written)

theorem Naming.oneLine_ofTerm (t : Term) : Style.OneLine ⟨true, ofTerm t⟩ :=
  ⟨rfl, fun n => Text.oneLine_iff_free.mpr
    (((regular_ofTerm t).free n).mono Text.ofControls_isNewline)⟩

end LogicFormat
