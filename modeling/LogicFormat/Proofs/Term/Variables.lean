import LogicFormat.Proofs.Term.Edges
import LogicFormat.Proofs.Term.Renaming
import LogicFormat.Proofs.Text.Renamed

/-!
# Variables of written terms

A term is written alike under all names for its variables: neither brackets nor blanks nor quotes
depend on them. The names stand in its text in the order in which the variables occur in it.
-/

namespace LogicFormat

open Text.Renamed (Avoids)

/-- Names that never need a blank or a bracket beside them. -/
structure Naming.Plain (names : Nat → Text) : Prop where
  symbol : Avoids Atom.isSymbolChar names
  bracket : Avoids (· == '(') names

theorem Naming.Regular.plainNames {names : Naming} (regular : names.Regular) :
    Plain names.nameOf := by
  have nonempty (n : Nat) : names.nameOf n ≠ [] := (regular.finishes n).ne_nil
  refine ⟨fun n => ⟨nonempty n, fun c hc => (regular.plain n c hc).1⟩,
    fun n => ⟨nonempty n, fun c hc => ?_⟩⟩
  exact beq_false_of_ne (regular.plain n c hc).2

/-- Items that are alike but for names. No variable is in an item that is a single character. -/
structure Item.Renamed (f g : Nat → Text) (ns : List Nat) (i j : Item) : Prop where
  text : Text.Renamed f g ns i.text j.text
  char : i.char? = j.char?
  bare : i.char? ≠ none → ns = []

inductive Phrase.Renamed (f g : Nat → Text) : List Nat → Phrase → Phrase → Prop
  | numeral (text : Text) : Renamed f g [] (.numeral text) (.numeral text)
  | atom (name : Text) : Renamed f g [] (.atom name) (.atom name)
  | closed {ns : List Nat} {s t : Text} (h : Text.Renamed f g ns s t) :
      Renamed f g ns (.closed s) (.closed t)
  | operation {ns : List Nat} {s t : Text} (level : Nat) (h : Text.Renamed f g ns s t) :
      Renamed f g ns (.operation level s) (.operation level t)
  | sequence {ns : List Nat} {is js : List Item} (items : Shared (Item.Renamed f g) ns is js) :
      Renamed f g ns (.sequence is none) (.sequence js none)
  | opened {ns ms : List Nat} {is js : List Item} {s t : Text}
      (items : Shared (Item.Renamed f g) ns is js) (more : is ≠ [])
      (tail : Text.Renamed f g ms s t) :
      Renamed f g (ns ++ ms) (.sequence is (some s)) (.sequence js (some t))

variable {f g : Nat → Text} {ns ms : List Nat} {s t u v : Text} {p q p' q' : Phrase}
  {ps qs : List Phrase} {is js : List Item}

theorem Text.Renamed.inBrackets (h : Text.Renamed f g ns s t) :
    Text.Renamed f g ns (inBrackets s) (inBrackets t) := (h.before ['(']).after [')']

namespace Style

variable (style : Style)

/-! ## Lists -/

theorem renamed_chars (items : Shared (Item.Renamed f g) ns is js) :
    is.mapM Item.char? = js.mapM Item.char? ∧ (is.mapM Item.char? ≠ none → ns = []) := by
  induction items with
  | nil => exact ⟨rfl, fun _ => rfl⟩
  | @cons ns ms i j is js first rest ih =>
      rw [List.mapM_cons, List.mapM_cons, first.char, ih.1]
      refine ⟨rfl, fun all => ?_⟩
      cases char : j.char? with
      | none =>
          rw [char] at all
          exact absurd rfl all
      | some c =>
          rw [char] at all
          have others : js.mapM Item.char? ≠ none := by
            intro none
            rw [none] at all
            exact absurd rfl all
          rw [first.bare (by rw [first.char, char]; exact Option.some_ne_none c),
            ih.2 (by rwa [ih.1])]
          rfl

theorem renamed_inside (items : Shared (Item.Renamed f g) ns is js) :
    Text.Renamed f g ns ([','].intercalate (is.map Item.text))
      ([','].intercalate (js.map Item.text)) :=
  .intercalate [','] (items.map Item.Renamed.text)

theorem renamed_sequence (items : Shared (Item.Renamed f g) ns is js) :
    Text.Renamed f g ns (style.sequence is none) (style.sequence js none) := by
  obtain ⟨chars, bare⟩ := renamed_chars items
  unfold Style.sequence Style.string?
  rw [← items.isEmpty_eq, chars]
  split
  · next empty =>
      cases items with
      | nil => exact .same _
      | cons => cases empty
  split
  · next text shown =>
      split at shown
      · rw [bare (by rw [chars, shown]; exact Option.some_ne_none text)]
        exact .same _
      · cases shown
  · exact ((renamed_inside items).before ['[']).after [']']

theorem renamed_opened (items : Shared (Item.Renamed f g) ns is js) (more : is ≠ [])
    (tail : Text.Renamed f g ms s t) :
    Text.Renamed f g (ns ++ ms) (style.sequence is (some s)) (style.sequence js (some t)) := by
  have never (l : List Item) (rest : Text) : style.string? l (some rest) = none := by
    simp [Style.string?]
  unfold Style.sequence
  rw [← items.isEmpty_eq, never, never, if_neg (by simpa using more), if_neg (by simpa using more)]
  exact (((renamed_inside items).before ['[']).append (tail.before ['|'])).after [']']

/-! ## Phrases in their places -/

theorem renamed_within (h : Phrase.Renamed f g ns p q) (bound : Int) :
    Text.Renamed f g ns (style.within bound p) (style.within bound q) := by
  cases h with
  | numeral text => exact .same text
  | atom name => exact .same _
  | closed h => exact h
  | operation level h =>
      rw [Style.within, Style.within]
      split
      · exact h.inBrackets
      · exact h
  | sequence items => exact style.renamed_sequence items
  | opened items more tail => exact style.renamed_opened items more tail

theorem renamed_operand (h : Phrase.Renamed f g ns p q) (bound : Int) :
    Text.Renamed f g ns (style.operand bound p) (style.operand bound q) := by
  have operator : p.isOperator = q.isOperator := by
    cases h <;> rfl
  have inside := style.renamed_within h bound
  unfold Style.operand
  rw [operator]
  dsimp only
  split
  · exact inside.inBrackets
  · exact inside

theorem renamed_item (h : Phrase.Renamed f g ns p q) :
    Item.Renamed f g ns (style.item p) (style.item q) := by
  refine ⟨style.renamed_within h argumentLevel, ?_, ?_⟩
  · show p.char? = q.char?
    cases h <;> rfl
  · intro bare
    cases h with
    | atom name => rfl
    | numeral text => rfl
    | closed h => exact absurd rfl bare
    | operation level h => exact absurd rfl bare
    | sequence items => exact absurd rfl bare
    | opened items more tail => exact absurd rfl bare

theorem renamed_pair (head : Phrase.Renamed f g ns p q) (tail : Phrase.Renamed f g ms p' q') :
    Phrase.Renamed f g (ns ++ ms) (style.pair p p') (style.pair q q') := by
  have first := Shared.single (style.renamed_item head)
  have ended := style.renamed_within tail argumentLevel
  have one (i : Item) : [i] ≠ [] := List.cons_ne_nil i []
  -- a list takes the head in, the empty list ends it, and anything else stands behind a bar
  cases tail with
  | numeral text => exact .opened first (one _) ended
  | atom name =>
      unfold Style.pair
      dsimp only
      split
      · rw [List.append_nil]
        exact .sequence first
      · exact .opened first (one _) ended
  | closed h => exact .opened first (one _) ended
  | operation level h => exact .opened first (one _) ended
  | sequence items => exact .sequence (.cons (style.renamed_item head) items)
  | opened items more rest =>
      rw [← List.append_assoc]
      exact .opened (.cons (style.renamed_item head) items) (List.cons_ne_nil _ _) rest

theorem renamed_applied (name : Text) (arguments : Shared (Phrase.Renamed f g) ns ps qs) :
    Phrase.Renamed f g ns (style.applied name ps) (style.applied name qs) := by
  have inside : Shared (Text.Renamed f g) ns (ps.map (style.within argumentLevel))
      (qs.map (style.within argumentLevel)) :=
    arguments.map fun h => style.renamed_within h argumentLevel
  exact .closed ((Text.Renamed.intercalate [','] inside).inBrackets.before _)

theorem renamed_braced (h : Phrase.Renamed f g ns p q) :
    Phrase.Renamed f g ns (style.braced p) (style.braced q) :=
  .closed (((style.renamed_within h termLevel).before _).after _)

/-! ## Operators -/

section Plain

variable (first : Naming.Plain f) (second : Naming.Plain g)

include first second

theorem renamed_besides (left : Text.Renamed f g ns s t) (right : Text.Renamed f g ms u v) :
    Text.Renamed f g (ns ++ ms) (besides s u) (besides t v) := by
  have fuses : Atom.fuses s u = Atom.fuses t v := by
    unfold Atom.fuses
    rw [left.last_any first.symbol second.symbol, right.head_any first.symbol second.symbol]
  unfold besides
  rw [fuses]
  split
  · exact left.append (right.before [' '])
  · exact left.append right

theorem renamed_binary (op : BinaryOperator) (left : Phrase.Renamed f g ns p q)
    (right : Phrase.Renamed f g ms p' q') :
    Phrase.Renamed f g (ns ++ ms) (style.binary op p p') (style.binary op q q') := by
  have one := style.renamed_operand left (op.left.bound op.level)
  have two := style.renamed_operand right (op.right.bound op.level)
  unfold Style.binary
  dsimp only
  split
  · exact .operation _ ((one.after _).append (two.before [' ']))
  · have sign := Text.Renamed.same (f := f) (g := g) (style.sign op.name)
    have signed := renamed_besides first second one sign
    rw [List.append_nil] at signed
    exact .operation _ (renamed_besides first second signed two)

theorem renamed_unary (op : UnaryOperator) (h : Phrase.Renamed f g ns p q) :
    Phrase.Renamed f g ns (style.unary op p) (style.unary op q) := by
  have inside := style.renamed_operand h (op.operand.bound op.level)
  have numeral : p.isNumeral = q.isNumeral := by
    cases h <;> rfl
  have bracket (text : Text) : text.head? = some '(' ↔ text.head?.any (· == '(') = true := by
    cases text <;> simp
  unfold Style.unary
  simp only [numeral, bracket, inside.head_any first.bracket second.bracket]
  split
  · exact .operation _ ((inside.before [' ']).before _)
  · exact .operation _ (renamed_besides first second (.same _) inside)

theorem renamed_compound (name : Text) (one : Phrase.Renamed f g ns p q)
    (others : Shared (Phrase.Renamed f g) ms ps qs) :
    Phrase.Renamed f g (ns ++ ms) (style.compound name p ps) (style.compound name q qs) := by
  have all := Shared.cons one others
  -- the number of arguments decides on the notation
  cases others with
  | nil =>
      rw [List.append_nil] at all ⊢
      unfold Style.compound
      dsimp only
      split
      · exact style.renamed_braced one
      · split
        · exact style.renamed_unary first second _ one
        · exact style.renamed_applied name all
  | cons two more =>
      cases more with
      | nil =>
          unfold Style.compound
          dsimp only
          rw [List.append_nil] at all ⊢
          split
          · exact style.renamed_pair one two
          · split
            · exact style.renamed_binary first second _ one two
            · exact style.renamed_applied name all
      | cons three more => exact style.renamed_applied name all

end Plain

end Style

namespace Term

variable {style : Style} (names : Naming)

mutual

/-- A term that can be written under some names is written under any others in the same way. -/
theorem renamed_phrase (first : Naming.Plain style.names.nameOf)
    (second : Naming.Plain names.nameOf) : (t : Term) → (p : Phrase) → t.phrase style = .ok p →
      ∃ q, t.phrase ⟨style.quoted, names⟩ = .ok q ∧
        Phrase.Renamed style.names.nameOf names.nameOf t.occurrences p q
  | .var n, p, written => by
      rw [phrase] at written ⊢
      cases written
      exact ⟨_, rfl, .closed (.single n)⟩
  | .atom name, p, written => by
      rw [phrase] at written ⊢
      cases written
      exact ⟨_, rfl, .atom name⟩
  | .int n, p, written => by
      rw [phrase] at written ⊢
      cases written
      exact ⟨_, rfl, .numeral _⟩
  | .float x, p, written => by
      rw [phrase] at written ⊢
      cases written
      exact ⟨_, rfl, .numeral _⟩
  | .bool b, p, written => by
      rw [phrase] at written ⊢
      cases written
      exact ⟨_, rfl, .closed (.same _)⟩
  | .null, p, written => by
      rw [phrase] at written
      cases written
  | .list items, p, written => by
      obtain ⟨ps, all, rfl⟩ := exists_phrase_of_list written
      obtain ⟨qs, same, related⟩ := renamed_phrases first second items ps all
      rw [phrase, same]
      exact ⟨_, rfl, .sequence (related.map style.renamed_item)⟩
  | .tuple items, p, written => by
      obtain ⟨ps, all, rfl⟩ := exists_phrase_of_tuple written
      obtain ⟨qs, same, related⟩ := renamed_phrases first second items ps all
      rw [phrase, same]
      exact ⟨_, rfl, .closed (style.renamed_sequence (related.map style.renamed_item))⟩
  | .compound name one others, p, written => by
      obtain ⟨p, ps, isOne, all, rfl⟩ := exists_phrase_of_compound written
      obtain ⟨q, sameOne, related⟩ := renamed_phrase first second one p isOne
      obtain ⟨qs, same, rest⟩ := renamed_phrases first second others ps all
      rw [phrase, sameOne, Outcome.ok_bind, same, occurrences_compound]
      exact ⟨_, rfl, style.renamed_compound first second name related rest⟩

theorem renamed_phrases (first : Naming.Plain style.names.nameOf)
    (second : Naming.Plain names.nameOf) : (ts : List Term) → (ps : List Phrase) →
      phrases style ts = .ok ps →
      ∃ qs, phrases ⟨style.quoted, names⟩ ts = .ok qs ∧
        Shared (Phrase.Renamed style.names.nameOf names.nameOf)
          ((preorderAll ts).filterMap var?) ps qs
  | [], ps, written => by
      rw [phrases] at written ⊢
      cases written
      exact ⟨[], rfl, .nil⟩
  | t :: ts, ps, written => by
      obtain ⟨p, ps, isOne, all, rfl⟩ := exists_phrases_of_cons written
      obtain ⟨q, sameOne, related⟩ := renamed_phrase first second t p isOne
      obtain ⟨qs, same, rest⟩ := renamed_phrases first second ts ps all
      rw [phrases, sameOne, Outcome.ok_bind, same, preorderAll, List.filterMap_append]
      exact ⟨_, rfl, .cons related rest⟩

end

theorem renamed_write (first : Naming.Plain style.names.nameOf)
    (second : Naming.Plain names.nameOf) {t : Term} {text : Text}
    (written : t.write style = .ok text) :
    ∃ other, t.write ⟨style.quoted, names⟩ = .ok other ∧
      Text.Renamed style.names.nameOf names.nameOf t.occurrences text other := by
  obtain ⟨p, isPhrase, rfl⟩ := exists_phrase_of_write written
  obtain ⟨q, same, related⟩ := renamed_phrase names first second t p isPhrase
  refine ⟨_, ?_, style.renamed_within related termLevel⟩
  rw [write, writeWithin, same]
  rfl

end Term

end LogicFormat
