import LogicFormat.Proofs.Notation.Token
import LogicFormat.Proofs.Term.Controls

/-!
# Quotation

A quoted atom is its own name if that can be read back as it stands. Any other atom, and any list of
one-character atoms, is written between quotes, so that nothing of it is hidden and it is read back
by undoing its escapes.
-/

namespace LogicFormat

open Text (Free isControl)

namespace Atom

/-- The names that can be read back as they stand. -/
inductive Bare : Text → Prop
  | solo {name : Text} : name ∈ (["[]", "\x7b\x7d", "!", ";"] : List Text) → Bare name
  | word {c : Char} {rest : Text} :
      c.isLower = true → (∀ d ∈ rest, isWordChar d = true) → Bare (c :: rest)
  | symbol {name : Text} :
      name ≠ [] → (∀ c ∈ name, c ∈ symbolChars) → name ≠ ['.'] → Bare name

/-- What stands between quotes spells a text: it holds no control character, and undoing its escapes
gives the text, the closing quote being the first that has no backslash. -/
structure Spells (quote : Char) (inside text : Text) : Prop where
  visible : Free isControl inside
  undone : readQuoted quote (inside ++ [quote]) = some (text, [])

variable {quote : Char} {inside name text other : Text}

theorem bare_iff : Bare name ↔ needsQuotes name = false := by
  simp only [needsQuotes, Bool.not_eq_false', Bool.or_eq_true]
  constructor
  · rintro (solo | ⟨letter, rest⟩ | ⟨nonempty, symbols, apart⟩)
    · have listed : isSolo name = true := by
        simpa [isSolo, or_assoc] using solo
      exact .inl (.inl listed)
    · exact .inl (.inr (Bool.and_eq_true_iff.mpr ⟨letter, List.all_eq_true.mpr rest⟩))
    · have run : isSymbol name = true := by
        simpa [isSymbol, isSymbolChar, nonempty, apart] using symbols
      exact .inr run
  · rintro ((solo | word) | symbol)
    · exact .solo (by simpa [isSolo, or_assoc] using solo)
    · cases name with
      | nil => cases word
      | cons c rest =>
          have parts := Bool.and_eq_true_iff.mp word
          exact .word parts.1 (List.all_eq_true.mp parts.2)
    · simp only [isSymbol, Bool.and_eq_true, decide_eq_true_eq, List.all_eq_true] at symbol
      refine .symbol symbol.1.1 (fun c hc => ?_) symbol.2
      exact List.contains_iff_mem.mp (symbol.1.2 c hc)

theorem quoted_of_bare (bare : Bare name) : quoted name = name := by
  rw [quoted, bare_iff.mp bare]
  rfl

theorem quoted_of_not_bare (bare : ¬Bare name) : quoted name = between '\x27' name := by
  rw [bare_iff, Bool.not_eq_false] at bare
  rw [quoted, if_pos bare]

theorem exists_spells (hquote : quote = '\x27' ∨ quote = '"') (text : Text) :
    ∃ inside, between quote text = quote :: inside ++ [quote] ∧ Spells quote inside text := by
  have plain : isControl quote = false := by
    rcases hquote with rfl | rfl <;> rfl
  refine ⟨text.flatMap (escaped quote), rfl, fun d hd => ?_, readQuoted_between hquote text []⟩
  obtain ⟨c, -, hd⟩ := List.mem_flatMap.mp hd
  exact free_escaped plain c d hd

theorem quoted_injective (h : quoted name = quoted other) : name = other := by
  have read (name : Text) : Token.scan (quoted name) = some (.atom name, []) := by
    rw [← List.append_nil (quoted name)]
    exact Token.scan_atom name Text.ends_nil
  have same : some (Token.atom name, ([] : Text)) = some (.atom other, []) := by
    rw [← read name, ← read other, h]
  cases same
  rfl

end Atom

namespace Term

/-- A list of one-character atoms, given by its items or by the pairs it consists of. -/
inductive Characters : Term → Text → Prop
  | list (chars : Text) : Characters (.list (chars.map fun c => .atom [c])) chars
  | nil : Characters (.atom "[]") []
  | pair {c : Char} {tail : Term} {chars : Text} :
      Characters tail chars → Characters (.compound "." (.atom [c]) [tail]) (c :: chars)

variable {t : Term} {chars : Text}

theorem phrases_characters (style : Style) (chars : Text) :
    phrases style (chars.map fun c => .atom [c]) = .ok (chars.map fun c => .atom [c]) := by
  induction chars with
  | nil => rfl
  | cons c chars ih =>
      rw [List.map_cons, phrases, phrase, ih]
      rfl

/-- The phrase of a list of characters is the list of their items, but for the empty list. -/
theorem phrase_characters (style : Style) (h : t.Characters chars) :
    chars = [] ∧ t = .atom "[]" ∨
      t.phrase style = .ok (.sequence (chars.map fun c => style.item (.atom [c])) none) := by
  induction h with
  | list chars =>
      right
      rw [phrase, phrases_characters, Outcome.ok_bind, List.map_map]
      rfl
  | nil => exact .inl ⟨rfl, rfl⟩
  | pair _ ih =>
      right
      rcases ih with ⟨rfl, rfl⟩ | ih
      · rfl
      · rw [phrase, phrases, ih]
        rfl

theorem sequence_characters (style : Style) (quoted : style.quoted = true)
    (nonempty : chars ≠ []) :
    style.sequence (chars.map fun c => style.item (.atom [c])) none = Atom.between '"' chars := by
  have each (chars : Text) :
      (chars.map fun c => style.item (.atom [c])).mapM Item.char? = some chars := by
    induction chars with
    | nil => rfl
    | cons c chars ih =>
        rw [List.map_cons, List.mapM_cons, ih]
        rfl
  have items : (chars.map fun c => style.item (.atom [c])).isEmpty = false := by
    simpa using nonempty
  have string : style.string? (chars.map fun c => style.item (.atom [c])) none = some chars := by
    rw [Style.string?, quoted]
    exact each chars
  rw [Style.sequence, items, string]
  rfl

/-- A quoted atom is its own name where that can stand bare. Otherwise its name is read back from
between quotes, like the characters of a list of them. No two atoms are written alike. -/
theorem writeWithin_quoted (names : Naming) (bound : Int) :
    (∀ name : Text,
      Atom.Bare name ∧ (atom name).writeWithin ⟨true, names⟩ bound = .ok name ∨
      ¬Atom.Bare name ∧ ∃ inside, Atom.Spells '\x27' inside name ∧
        (atom name).writeWithin ⟨true, names⟩ bound = .ok ('\x27' :: inside ++ ['\x27'])) ∧
    (∀ (t : Term) (chars : Text), t.Characters chars → chars ≠ [] →
      ∃ inside, Atom.Spells '"' inside chars ∧
        t.writeWithin ⟨true, names⟩ bound = .ok ('"' :: inside ++ ['"'])) ∧
    ∀ name other : Text, (atom name).writeWithin ⟨true, names⟩ bound =
      (atom other).writeWithin ⟨true, names⟩ bound → name = other := by
  have written (name : Text) :
      (atom name).writeWithin ⟨true, names⟩ bound = .ok (Atom.quoted name) := rfl
  refine ⟨fun name => ?_, fun t chars list nonempty => ?_, fun name other same => ?_⟩
  · rw [written]
    rcases Classical.em (Atom.Bare name) with bare | bare
    · exact .inl ⟨bare, congrArg _ (Atom.quoted_of_bare bare)⟩
    · obtain ⟨inside, enclosed, spells⟩ := Atom.exists_spells (.inl rfl) name
      exact .inr ⟨bare, inside, spells,
        congrArg _ ((Atom.quoted_of_not_bare bare).trans enclosed)⟩
  · obtain ⟨inside, enclosed, spells⟩ := Atom.exists_spells (.inr rfl) chars
    refine ⟨inside, spells, ?_⟩
    rcases phrase_characters ⟨true, names⟩ list with ⟨empty, -⟩ | isPhrase
    · exact absurd empty nonempty
    · rw [writeWithin, isPhrase, ← enclosed, ← sequence_characters ⟨true, names⟩ rfl nonempty]
      rfl
  · rw [written, written] at same
    exact Atom.quoted_injective (Except.ok.inj same)

theorem writeWithin_quoted_escapes :
    (∃ inside, Atom.Spells '"' inside ['"', '\x01', '\\', '1', '\\'] ∧
      (compound "." (atom ['"']) [compound "." (atom ['\x01'])
        [list [atom ['\\'], atom ['1'], atom ['\\']]]]).writeWithin ⟨true, []⟩ 999 =
        .ok ('"' :: inside ++ ['"'])) ∧
    (compound "." (atom ['"']) [compound "." (atom ['\x01'])
      [list [atom ['\\'], atom ['1'], atom ['\\']]]]).writeWithin ⟨true, []⟩ 999 =
      .ok "\"\\\"\\x1\\\\\\1\\\\\"" := by
  refine ⟨?_, by decide +kernel⟩
  exact (writeWithin_quoted [] 999).2.1 _ _ (.pair (.pair (.list ['\\', '1', '\\']))) (by decide)

end Term

end LogicFormat
