import LogicFormat.Term.Written
import LogicFormat.Proofs.Notation.Spacing
import LogicFormat.Proofs.Notation.Unambiguous

/-!
# Phrases of notation trees

A phrase tells all that is known of a term where it is placed, and the tree the term is
written from tells the same. Every way of putting phrases together puts trees together. This holds
of every quoted style whose names can be read back.
-/

namespace LogicFormat

namespace Style

def plain : Style := ⟨true, []⟩

structure Legible (style : Style) : Prop where
  quoted : style.quoted = true
  names : Naming.Legible style.names.nameOf

theorem legible_plain : plain.Legible := ⟨rfl, Naming.legible_displayVar⟩

theorem Legible.atom {style : Style} (legible : style.Legible) (name : Text) :
    style.atom name = Atom.quoted name := by
  rw [Style.atom, legible.quoted, if_pos rfl]

end Style

namespace Token

variable {names : Nat → Text}

theorem symbol_of_name (legible : Naming.Legible names) (n : Nat) :
    ∀ c ∈ names n, Atom.isSymbolChar c = false ∧ c ≠ '(' := by
  have ofDigit (c : Char) (digit : c.isDigit = true) :
      Atom.isSymbolChar c = false ∧ c ≠ '(' := by
    refine ⟨symbol_of_isDigit digit, ?_⟩
    rintro rfl
    exact nomatch digit
  intro c hc
  rcases legible n with name | name <;> rw [name] at hc
  · rcases List.mem_cons.mp hc with rfl | hc
    · decide
    · exact ofDigit c (Naming.isDigit_ofNat c hc)
  · rw [Naming.generated_eq] at hc
    rcases List.mem_cons.mp hc with rfl | hc
    · obtain ⟨upper, -, -, symbol, -, -⟩ :=
        Naming.letter_table (n % 26) (Nat.mod_lt n (by decide))
      refine ⟨symbol, fun bracket => ?_⟩
      rw [bracket] at upper
      exact nomatch upper
    · exact ofDigit c (Naming.isDigit_digits c hc)

def Unnamed (p : Char → Bool) : Prop :=
  ∀ names, Naming.Legible names → ∀ n, ∀ c ∈ names n, p c = false

theorem unnamed_symbol : Unnamed Atom.isSymbolChar :=
  fun _ legible n c hc => (symbol_of_name legible n c hc).1

theorem unnamed_parenOpen : Unnamed (· = '(') :=
  fun _ legible n c hc => decide_eq_false (symbol_of_name legible n c hc).2

theorem any_textIn {p : Char → Bool} (unnamed : Unnamed p) (legible : Naming.Legible names)
    (pick : Text → Option Char) (picks : ∀ text, ∀ c ∈ pick text, c ∈ text) (t : Token) :
    (pick (t.textIn names)).any p = (pick t.text).any p := by
  have never {names' : Nat → Text} (legible' : Naming.Legible names') (n : Nat) :
      (pick (names' n)).any p = false := by
    rcases picked : pick (names' n) with _ | c
    · rfl
    · exact unnamed names' legible' n c (picks _ c picked)
  by_cases named : ∃ n, t = .var n
  · obtain ⟨n, rfl⟩ := named
    exact (never legible n).trans (never Naming.legible_displayVar n).symm
  · rw [textIn_of_ne_var fun n same => named ⟨n, same⟩]

theorem head_renderIn {p : Char → Bool} (unnamed : Unnamed p) (legible : Naming.Legible names)
    (ts : List Token) : (renderIn names ts).head?.any p = (render ts).head?.any p := by
  cases ts with
  | nil => rfl
  | cons t ts =>
      rw [head?_renderIn legible, head?_render]
      exact any_textIn unnamed legible List.head? (fun _ _ => List.mem_of_mem_head?) t

theorem last_renderIn {p : Char → Bool} (unnamed : Unnamed p) (legible : Naming.Legible names)
    (ts : List Token) : (renderIn names ts).getLast?.any p = (render ts).getLast?.any p := by
  induction ts using List.reverseRecOn with
  | nil => rfl
  | append_singleton ts t _ =>
      rw [renderIn_append, render_append, renderIn_cons, render_cons, renderIn_nil, render_nil,
        List.append_nil, List.append_nil,
        List.getLast?_append_of_ne_nil _ (t.textIn_ne_nil legible),
        List.getLast?_append_of_ne_nil _ t.text_ne_nil]
      exact any_textIn unnamed legible List.getLast? (fun _ _ => List.mem_of_getLast?) t

theorem fuses_renderIn_left (legible : Naming.Legible names) (ts : List Token) (right : Text) :
    Atom.fuses (renderIn names ts) right = Atom.fuses (render ts) right := by
  rw [Atom.fuses, last_renderIn unnamed_symbol legible, Atom.fuses]

theorem fuses_renderIn_right (legible : Naming.Legible names) (left : Text) (ts : List Token) :
    Atom.fuses left (renderIn names ts) = Atom.fuses left (render ts) := by
  rw [Atom.fuses, head_renderIn unnamed_symbol legible, Atom.fuses]

theorem parenOpen_renderIn (legible : Naming.Legible names) (ts : List Token) :
    decide ((renderIn names ts).head? = some '(') = decide ((render ts).head? = some '(') := by
  have any (text : Text) : decide (text.head? = some '(') = text.head?.any (· = '(') := by
    cases text <;> simp
  rw [any, any]
  exact head_renderIn unnamed_parenOpen legible ts

end Token

def Phrase.level : Phrase → Nat
  | .operation level _ => level
  | _ => 0

namespace Tree

open Token

def within (bound : Int) (t : Tree) : Tree := if bound < t.level then .bracketed t else t

def operand (bound : Int) (t : Tree) : Tree :=
  if t.isOperator then .bracketed (t.within bound) else t.within bound

def char? : Tree → Option Char
  | .atom [c] => some c
  | _ => none

/-- Whether a phrase is what its surroundings know of a well-formed tree. -/
structure Notates (style : Style) (t : Tree) (phrase : Phrase) : Prop where
  formed : t.WellFormed
  text : ∀ bound : Int, 0 ≤ bound →
    style.within bound phrase = renderIn style.names.nameOf (t.within bound).tokens
  level : phrase.level = t.level
  isNumeral : phrase.isNumeral = t.isNumeral
  isOperator : phrase.isOperator = t.isOperator
  char? : phrase.char? = t.char?

variable {names : Nat → Text} {style : Style} {t : Tree} {phrase : Phrase} {bound : Int}

theorem within_termLevel (formed : t.WellFormed) : t.within termLevel = t := by
  have := level_le_termLevel formed
  rw [within, if_neg (by omega)]

theorem term_within (bound : Int) (t : Tree) : (t.within bound).term = t.term := by
  unfold within
  split <;> rfl

theorem within_formed (formed : t.WellFormed) (bound : Int) : (t.within bound).WellFormed := by
  unfold within
  split
  · exact .bracketed formed
  · exact formed

theorem level_within (nonneg : 0 ≤ bound) (t : Tree) : ((t.within bound).level : Int) ≤ bound := by
  unfold within
  split
  · exact nonneg
  · omega

theorem term_operand (bound : Int) (t : Tree) : (t.operand bound).term = t.term := by
  unfold operand
  split
  · exact term_within bound t
  · exact term_within bound t

theorem operand_formed (formed : t.WellFormed) (bound : Int) : (t.operand bound).WellFormed := by
  unfold operand
  split
  · exact .bracketed (within_formed formed bound)
  · exact within_formed formed bound

theorem isOperator_within (h : t.isOperator = false) : (t.within bound).isOperator = false := by
  unfold within
  split
  · rfl
  · exact h

theorem operand_suits (nonneg : 0 ≤ bound) (t : Tree) : (t.operand bound).Suits bound := by
  unfold operand
  split
  · exact ⟨nonneg, rfl⟩
  · next h => exact ⟨level_within nonneg t, isOperator_within (by simpa using h)⟩

theorem render_bracketed (names : Nat → Text) (t : Tree) :
    renderIn names (Tree.bracketed t).tokens = inBrackets (renderIn names t.tokens) := by
  simp [tokens, inBrackets, textIn, Token.text]

theorem within_simple (simple : t.simple = true) (nonneg : 0 ≤ bound) : t.within bound = t := by
  rw [within, level_of_simple simple, if_neg (by omega)]

theorem renderIn_gap (needed : Bool) (ts : List Token) :
    renderIn names (gap needed ++ ts) =
      if needed then ' ' :: renderIn names ts else renderIn names ts := by
  cases needed <;> rfl

theorem besides_eq (legible : Naming.Legible names) (left : Text) (ts : List Token) :
    besides left (renderIn names ts) =
      left ++ renderIn names (gap (Atom.fuses left (render ts)) ++ ts) := by
  rw [besides, renderIn_gap, fuses_renderIn_right legible]
  split <;> rfl

theorem render_before (legible : Naming.Legible names) (op : UnaryOperator) (numeral : Bool)
    (ts : List Token) :
    renderIn names (.atom op.name :: (gap (spacedBefore op numeral (render ts)) ++ ts)) =
      if numeral || (renderIn names ts).head? = some '(' then
        Atom.quoted op.name ++ ' ' :: renderIn names ts
      else besides (Atom.quoted op.name) (renderIn names ts) := by
  rw [renderIn_cons, spacedBefore, parenOpen_renderIn legible]
  rcases spaced : numeral || decide ((render ts).head? = some '(') with _ | _
  · rw [Bool.false_or, if_neg Bool.false_ne_true, besides_eq legible]
    rfl
  · rw [Bool.true_or, if_pos rfl, renderIn_gap, if_pos rfl]
    rfl

theorem sign_text (legible : style.Legible) (op : BinaryOperator) :
    (sign op).text = style.sign op.name := by
  unfold sign Style.sign
  split
  · next comma =>
      rw [comma]
      rfl
  split
  · next bar =>
      rw [bar]
      rfl
  · next comma bar =>
      rw [if_neg (by simp [comma, bar]), legible.atom]
      rfl

theorem fuses_besides {left middle : Text} (nonempty : middle ≠ []) (right : Text) :
    Atom.fuses (besides left middle) right = Atom.fuses middle right := by
  unfold besides Atom.fuses
  split
  · rw [List.append_cons, List.getLast?_append_of_ne_nil _ nonempty]
  · rw [List.getLast?_append_of_ne_nil _ nonempty]

theorem render_between (legible : Naming.Legible names) (op : BinaryOperator)
    (ts us : List Token) :
    renderIn names (tokensBetween op ts us) =
      if Atom.isWord (sign op).text then
        renderIn names ts ++ ' ' :: (sign op).text ++ ' ' :: renderIn names us
      else besides (besides (renderIn names ts) (sign op).text) (renderIn names us) := by
  rw [tokensBetween, List.append_assoc, renderIn_append, renderIn_gap, renderIn_cons,
    renderIn_gap, textIn_sign]
  rcases word : Atom.isWord (sign op).text with _ | _
  · rw [Bool.false_or, Bool.false_or, if_neg Bool.false_ne_true, besides,
      fuses_besides (sign op).text_ne_nil, besides, fuses_renderIn_left legible,
      fuses_renderIn_right legible]
    split <;> split <;> simp
  · rw [Bool.true_or, Bool.true_or, if_pos rfl, if_pos rfl, if_pos rfl]
    simp

theorem isNumeral_operand (nonneg : 0 ≤ bound) (t : Tree) :
    (t.operand bound).isNumeral = t.isNumeral := by
  cases t with
  | int n => rw [operand, within_simple rfl nonneg]; rfl
  | _ => 
    unfold operand within
    split <;> split <;> rfl

namespace Notates

theorem operand (h : Notates style t phrase) (nonneg : 0 ≤ bound) :
    style.operand bound phrase = renderIn style.names.nameOf (t.operand bound).tokens := by
  rw [Style.operand, Tree.operand, h.isOperator, h.text bound nonneg]
  split
  · exact (render_bracketed _ _).symm
  · rfl

theorem closed (formed : t.WellFormed) (simple : t.simple = true) (numeral : t.isNumeral = false)
    (operator : t.isOperator = false) (char : t.char? = none) :
    Notates style t (.closed (renderIn style.names.nameOf t.tokens)) where
  formed := formed
  text bound nonneg := by
    rw [within_simple simple nonneg]
    rfl
  level := (level_of_simple simple).symm
  isNumeral := numeral.symm
  isOperator := operator.symm
  char? := char.symm

theorem operation (formed : t.WellFormed) (simple : t.simple = false) :
    Notates style t (.operation t.level (renderIn style.names.nameOf t.tokens)) where
  formed := formed
  text bound nonneg := by
    rw [Style.within, within]
    split
    · exact (render_bracketed _ t).symm
    · rfl
  level := rfl
  isNumeral := by cases t <;> first | rfl | exact nomatch simple
  isOperator := by cases t <;> first | rfl | exact nomatch simple
  char? := by cases t <;> first | rfl | exact nomatch simple

theorem var (n : Nat) : Notates style (.var n) (.closed (style.names.nameOf n)) := by
  have rendered : renderIn style.names.nameOf (Tree.var n).tokens = style.names.nameOf n := by
    rw [tokens, renderIn_cons, renderIn_nil, List.append_nil]
    rfl
  rw [← rendered]
  exact closed (.var n) rfl rfl rfl rfl

theorem atom (legible : style.Legible) (name : Text) :
    Notates style (.atom name) (.atom name) where
  formed := .atom name
  text bound nonneg := by
    rw [within_simple rfl nonneg, tokens, renderIn_cons, renderIn_nil, List.append_nil]
    exact legible.atom name
  level := rfl
  isNumeral := rfl
  isOperator := rfl
  char? := by
    unfold Phrase.char? Tree.char?
    split <;> split <;> simp_all

theorem int {n : Int} (nonneg : 0 ≤ n) :
    Notates style (.int n.toNat) (.numeral (Numeral.ofInt n)) where
  formed := .int n.toNat
  text bound above := by
    have sign : ¬ n < 0 := by omega
    have digits : n.natAbs = n.toNat := by omega
    rw [within_simple rfl above, tokens, renderIn_cons, renderIn_nil, List.append_nil]
    simp [Style.within, Numeral.ofInt, sign, digits, Numeral.signed, textIn, Token.text]
  level := rfl
  isNumeral := rfl
  isOperator := rfl
  char? := rfl

theorem unary (legible : style.Legible) {op : UnaryOperator}
    (known : op ∈ Operator.unaryOperators) (h : Notates style t phrase) :
    Notates style (.before op (t.operand (op.operand.bound op.level))) (style.unary op phrase) := by
  have nonneg := op.operand.bound_nonneg (Operator.unary_level op known).1
  have formed : WellFormed (.before op (t.operand (op.operand.bound op.level))) :=
    .before known (operand_formed h.formed _) (operand_suits nonneg t)
  have written : style.unary op phrase = .operation op.level (renderIn style.names.nameOf
      (Tree.before op (t.operand (op.operand.bound op.level))).tokens) := by
    rw [Style.unary, h.operand nonneg, h.isNumeral, ← isNumeral_operand nonneg t, tokens,
      render_before legible.names, legible.atom]
  rw [written]
  exact operation formed rfl

theorem binary (legible : style.Legible) {op : BinaryOperator}
    (known : op ∈ Operator.binaryOperators) {t' : Tree} {phrase' : Phrase}
    (h : Notates style t phrase) (h' : Notates style t' phrase') :
    Notates style (.between op (t.operand (op.left.bound op.level))
      (t'.operand (op.right.bound op.level))) (style.binary op phrase phrase') := by
  have level := (Operator.binary_level op known).1
  have left := op.left.bound_nonneg level
  have right := op.right.bound_nonneg level
  have formed : WellFormed (.between op (t.operand (op.left.bound op.level))
      (t'.operand (op.right.bound op.level))) :=
    .between known (operand_formed h.formed _) (operand_formed h'.formed _)
      (operand_suits left t) (operand_suits right t')
  have written : style.binary op phrase phrase' = .operation op.level
      (renderIn style.names.nameOf (Tree.between op (t.operand (op.left.bound op.level))
        (t'.operand (op.right.bound op.level))).tokens) := by
    rw [Style.binary, h.operand left, h'.operand right, tokens, render_between legible.names,
      sign_text legible]
  rw [written]
  exact operation formed rfl

theorem braced (h : Notates style t phrase) :
    Notates style (.braced t) (style.braced phrase) := by
  have written : style.braced phrase =
      .closed (renderIn style.names.nameOf (Tree.braced t).tokens) := by
    rw [Style.braced, h.text termLevel (by decide), within_termLevel h.formed]
    simp [tokens, textIn, Token.text]
  rw [written]
  exact closed (.braced h.formed) rfl rfl rfl rfl

end Notates

theorem intercalate_cons (text : Text) (texts : List Text) :
    [','].intercalate (text :: texts) = text ++ texts.flatMap (',' :: ·) := by
  induction texts generalizing text with
  | nil => simp
  | cons next texts ih =>
      rw [List.intercalate_cons_cons, ih]
      simp

theorem render_behind (names : Nat → Text) (ts : List Tree) :
    renderIn names (tokensBehind ts) =
      (ts.map fun t => renderIn names t.tokens).flatMap (',' :: ·) := by
  induction ts with
  | nil => rfl
  | cons t ts ih =>
      simp [tokensBehind, ih, textIn, Token.text]

theorem render_arguments (names : Nat → Text) (first : Tree) (others : List Tree) :
    renderIn names (first.tokens ++ tokensBehind others) =
      [','].intercalate ((first :: others).map fun t => renderIn names t.tokens) := by
  rw [List.map_cons, intercalate_cons, renderIn_append, render_behind]

def argument (t : Tree) : Tree := t.within argumentLevel

theorem term_argument (t : Tree) : t.argument.term = t.term := term_within argumentLevel t

theorem char?_of_eq {t : Tree} {c : Char} (h : t.char? = some c) : t = .atom [c] := by
  unfold Tree.char? at h
  split at h
  · cases h
    rfl
  · exact nomatch h

namespace Notates

variable {first : Tree × Phrase} {others : List (Tree × Phrase)}

theorem arguments_formed (h : ∀ row ∈ first :: others, Notates style row.1 row.2) :
    ∀ t ∈ first.1.argument :: others.map (argument ·.1), t.WellFormed := by
  intro t ht
  rw [← List.map_cons (f := fun row : Tree × Phrase => row.1.argument)] at ht
  obtain ⟨row, found, rfl⟩ := List.mem_map.mp ht
  exact within_formed (h row found).formed argumentLevel

theorem arguments_tight :
    ∀ t ∈ first.1.argument :: others.map (argument ·.1), (t.level : Int) ≤ argumentLevel := by
  intro t ht
  rw [← List.map_cons (f := fun row : Tree × Phrase => row.1.argument)] at ht
  obtain ⟨row, found, rfl⟩ := List.mem_map.mp ht
  exact level_within (by decide) row.1

theorem arguments_text (h : ∀ row ∈ first :: others, Notates style row.1 row.2) :
    (first.2 :: others.map Prod.snd).map (style.within argumentLevel) =
      (first.1.argument :: others.map (argument ·.1)).map
        fun t => renderIn style.names.nameOf t.tokens := by
  have each : ∀ row ∈ first :: others, style.within argumentLevel row.2 =
      renderIn style.names.nameOf row.1.argument.tokens :=
    fun row found => (h row found).text argumentLevel (by decide)
  simpa using each

theorem applied (legible : style.Legible) (name : Text)
    (h : ∀ row ∈ first :: others, Notates style row.1 row.2) :
    Notates style (.applied name first.1.argument (others.map (argument ·.1)))
      (style.applied name (first.2 :: others.map Prod.snd)) := by
  have written : style.applied name (first.2 :: others.map Prod.snd) =
      .closed (renderIn style.names.nameOf
        (Tree.applied name first.1.argument (others.map (argument ·.1))).tokens) := by
    rw [Style.applied, arguments_text h, ← render_arguments, legible.atom]
    simp [tokens, inBrackets, textIn, Token.text]
  rw [written]
  exact closed (.applied (arguments_formed h) arguments_tight) rfl rfl rfl rfl

theorem terms_of_chars {rows : List (Tree × Phrase)} {text : Text}
    (h : (rows.map fun row => row.1.char?).mapM id = some text) :
    rows.map (·.1.term) = text.map fun c => .atom [c] := by
  induction rows generalizing text with
  | nil =>
      cases h
      rfl
  | cons row rows ih =>
      simp only [List.map_cons, List.mapM_cons, id, Option.bind_eq_bind,
        Option.bind_eq_some_iff] at h
      obtain ⟨c, hc, rest, hrest, h⟩ := h
      cases h
      rw [List.map_cons, List.map_cons, ih hrest, char?_of_eq hc]
      rfl

theorem string_eq (legible : style.Legible)
    (h : ∀ row ∈ first :: others, Notates style row.1 row.2) :
    style.string? ((first.2 :: others.map Prod.snd).map style.item) none =
      ((first :: others).map fun row => row.1.char?).mapM id := by
  have each : ∀ row ∈ first :: others, row.2.char? = row.1.char? :=
    fun row found => (h row found).char?
  have chars : ((first.2 :: others.map Prod.snd).map style.item).map Item.char? =
      (first :: others).map fun row => row.1.char? := by
    simpa [Style.item] using each
  rw [← chars, List.mapM_map, Function.id_comp, Style.string?, legible.quoted]
  rfl

theorem sequence {items : List Item} (formed : t.WellFormed) (simple : t.simple = true)
    (numeral : t.isNumeral = false) (operator : t.isOperator = false) (char : t.char? = none)
    (written : style.sequence items none = renderIn style.names.nameOf t.tokens) :
    Notates style t (.sequence items none) where
  formed := formed
  text bound nonneg := by
    rw [within_simple simple nonneg]
    exact written
  level := (level_of_simple simple).symm
  isNumeral := numeral.symm
  isOperator := operator.symm
  char? := char.symm

theorem list (legible : style.Legible)
    (h : ∀ row ∈ first :: others, Notates style row.1 row.2) :
    ∃ t : Tree, t.term = .list (first.1.term :: others.map (·.1.term)) ∧
      Notates style t (.sequence ((first.2 :: others.map Prod.snd).map style.item) none) := by
  have string := string_eq legible h
  have texts : ((first.2 :: others.map Prod.snd).map style.item).map Item.text =
      (first.1.argument :: others.map (argument ·.1)).map
        fun t => renderIn style.names.nameOf t.tokens := by
    rw [← arguments_text h, List.map_map]
    rfl
  rcases chars : ((first :: others).map fun row => row.1.char?).mapM id with _ | text
  · refine ⟨.list first.1.argument (others.map (argument ·.1)), ?_, ?_⟩
    · simp [term, terms_eq_map, term_argument, Function.comp_def]
    apply sequence (.list (arguments_formed h) arguments_tight) rfl rfl rfl rfl
    rw [Style.sequence, string, chars, texts, ← render_arguments]
    simp [tokens, textIn, Token.text]
  · refine ⟨.chars text, ?_, ?_⟩
    · rw [term, ← terms_of_chars chars]
      rfl
    apply sequence (.chars text) rfl rfl rfl rfl
    rw [Style.sequence, string, chars]
    simp [tokens, textIn, Token.text]

theorem applied_term (name : Text) (first : Tree × Phrase) (others : List (Tree × Phrase)) :
    (Tree.applied name first.1.argument (others.map (argument ·.1))).term =
      .compound name first.1.term (others.map (·.1.term)) := by
  simp [term, terms_eq_map, term_argument, Function.comp_def]

/-- A compound term is written from a tree of its own, whichever notation its name and the
number of its arguments ask for. -/
theorem compound (legible : style.Legible) {name : Text}
    (pairless : ¬ (name = ['.'] ∧ others.length = 1))
    (h : ∀ row ∈ first :: others, Notates style row.1 row.2) :
    ∃ t : Tree, t.term = .compound name first.1.term (others.map (·.1.term)) ∧
      Notates style t (style.compound name first.2 (others.map Prod.snd)) := by
  have usual : ∃ t : Tree, t.term = .compound name first.1.term (others.map (·.1.term)) ∧
      Notates style t (style.applied name (first.2 :: others.map Prod.snd)) :=
    ⟨_, applied_term name first others, applied legible name h⟩
  rcases others with _ | ⟨second, _ | ⟨third, others⟩⟩
  · simp only [List.map_nil, Style.compound]
    split
    · next braces =>
        refine ⟨.braced first.1, ?_, (h first (by simp)).braced⟩
        rw [braces]
        rfl
    rcases found : Operator.unary? name with _ | op
    · exact usual
    · obtain ⟨known, named⟩ := Operator.of_unary? found
      refine ⟨_, ?_, (h first (by simp)).unary legible known⟩
      rw [term, term_operand, named]
  · simp only [List.map_cons, List.map_nil, Style.compound]
    rw [if_neg fun pair => pairless ⟨pair, rfl⟩]
    rcases found : Operator.binary? name with _ | op
    · exact usual
    · obtain ⟨known, named⟩ := Operator.of_binary? found
      refine ⟨_, ?_, (h first (by simp)).binary legible known (h second (by simp))⟩
      rw [term, term_operand, term_operand, named]
  · exact usual

end Notates

end Tree

end LogicFormat
