import LogicFormat.Term.Basic
import LogicFormat.Proofs.Notation.Escape
import LogicFormat.Proofs.Term.Naming
import Mathlib.Data.List.Chain

/-!
# Tokens

The pieces a written term is put together from. A token is read off the front of a text as
far as its characters reach, so that tokens written one behind another can be told apart
wherever no token goes on with the first character of the next.
-/

namespace LogicFormat

inductive Token where
  | var (n : Nat)
  | int (n : Nat)
  | atom (name : Text)
  | chars (text : Text)
  | blank
  | parenOpen
  | parenClose
  | bracketOpen
  | bracketClose
  | braceOpen
  | braceClose
  | comma
  | bar
  deriving DecidableEq

namespace Token

def text : Token → Text
  | .var n => Term.displayVar n
  | .int n => Numeral.ofNat n
  | .atom name => Atom.quoted name
  | .chars text => Atom.between '"' text
  | .blank => [' ']
  | .parenOpen => ['(']
  | .parenClose => [')']
  | .bracketOpen => ['[']
  | .bracketClose => [']']
  | .braceOpen => ['\x7b']
  | .braceClose => ['\x7d']
  | .comma => [',']
  | .bar => ['|']

def textIn (names : Nat → Text) : Token → Text
  | .var n => names n
  | t => t.text

/-- Whether a character right behind the token would be read as a part of it. -/
def absorbs : Token → Char → Bool
  | .var _, c => c.isDigit
  | .int _, c => c.isDigit
  | .atom name, c =>
      if Atom.isWord name then Atom.isWordChar c
      else Atom.isSymbol name && Atom.isSymbolChar c
  | .bracketOpen, c => c = ']'
  | .braceOpen, c => c = '\x7d'
  | _, _ => false

def render (tokens : List Token) : Text := tokens.flatMap text

@[simp] theorem render_nil : render [] = [] := rfl

@[simp] theorem render_cons (t : Token) (ts : List Token) :
    render (t :: ts) = t.text ++ render ts := rfl

@[simp] theorem render_append (ts us : List Token) :
    render (ts ++ us) = render ts ++ render us := List.flatMap_append

def renderIn (names : Nat → Text) (tokens : List Token) : Text := tokens.flatMap (textIn names)

@[simp] theorem renderIn_nil (names : Nat → Text) : renderIn names [] = [] := rfl

@[simp] theorem renderIn_cons (names : Nat → Text) (t : Token) (ts : List Token) :
    renderIn names (t :: ts) = t.textIn names ++ renderIn names ts := rfl

@[simp] theorem renderIn_append (names : Nat → Text) (ts us : List Token) :
    renderIn names (ts ++ us) = renderIn names ts ++ renderIn names us := List.flatMap_append

theorem textIn_of_ne_var {t : Token} (named : ∀ n, t ≠ .var n) (names : Nat → Text) :
    t.textIn names = t.text := by
  cases t with
  | var n => exact absurd rfl (named n)
  | _ => rfl

theorem textIn_displayVar : textIn Term.displayVar = text := by
  funext t
  cases t <;> rfl

theorem renderIn_displayVar : renderIn Term.displayVar = render := by
  funext ts
  rw [renderIn, textIn_displayVar, render]

/-- A mark of one character, or one of the two empty pairs of brackets. -/
def scanMark : Text → Option (Token × Text)
  | '[' :: ']' :: rest => some (.atom ['[', ']'], rest)
  | '[' :: rest => some (.bracketOpen, rest)
  | ']' :: rest => some (.bracketClose, rest)
  | '\x7b' :: '\x7d' :: rest => some (.atom ['\x7b', '\x7d'], rest)
  | '\x7b' :: rest => some (.braceOpen, rest)
  | '\x7d' :: rest => some (.braceClose, rest)
  | '(' :: rest => some (.parenOpen, rest)
  | ')' :: rest => some (.parenClose, rest)
  | ',' :: rest => some (.comma, rest)
  | '|' :: rest => some (.bar, rest)
  | ' ' :: rest => some (.blank, rest)
  | '!' :: rest => some (.atom ['!'], rest)
  | ';' :: rest => some (.atom [';'], rest)
  | _ => none

/-- The first token of a text and the text behind it. -/
def scan : Text → Option (Token × Text)
  | [] => none
  | c :: rest =>
      if c.isLower then
        some (.atom (c :: rest.takeWhile Atom.isWordChar), rest.dropWhile Atom.isWordChar)
      else if c.isDigit then
        some (.int (Nat.ofDigitChars 10 ((c :: rest).takeWhile Char.isDigit) 0),
          (c :: rest).dropWhile Char.isDigit)
      else if Atom.isSymbolChar c then
        some (.atom ((c :: rest).takeWhile Atom.isSymbolChar),
          (c :: rest).dropWhile Atom.isSymbolChar)
      else if c = '_' then
        some (.var (Nat.ofDigitChars 10 (rest.takeWhile Char.isDigit) 0),
          rest.dropWhile Char.isDigit)
      else if c.isUpper then
        some (.var (Naming.number c (rest.takeWhile Char.isDigit)), rest.dropWhile Char.isDigit)
      else if c = '\x27' then
        (Atom.readQuoted c rest).map fun read => (.atom read.1, read.2)
      else if c = '"' then
        (Atom.readQuoted c rest).map fun read => (.chars read.1, read.2)
      else scanMark (c :: rest)

theorem isLower_of_isDigit {c : Char} (h : c.isDigit = true) : c.isLower = false := by
  have digit : (decide ('0'.val ≤ c.val) && decide (c.val ≤ '9'.val)) = true := h
  show (decide ('a'.val ≤ c.val) && decide (c.val ≤ 'z'.val)) = false
  simp only [Bool.and_eq_true, decide_eq_true_eq, Bool.and_eq_false_imp,
    decide_eq_false_iff_not] at digit ⊢
  intro low high
  have := UInt32.le_trans low digit.2
  exact absurd this (by decide)

theorem symbolChar_not {c : Char} (h : Atom.isSymbolChar c = true) :
    c.isLower = false ∧ c.isDigit = false := by
  have table : Atom.symbolChars.all (fun c => !c.isLower && !c.isDigit) = true := by
    decide
  have listed : c ∈ Atom.symbolChars := by simpa [Atom.isSymbolChar] using h
  simpa using List.all_eq_true.mp table c listed

theorem symbol_of_isLower {c : Char} (h : c.isLower = true) : Atom.isSymbolChar c = false :=
  Bool.eq_false_iff.mpr fun symbol => Bool.eq_false_iff.mp (symbolChar_not symbol).1 h

theorem symbol_of_isDigit {c : Char} (h : c.isDigit = true) : Atom.isSymbolChar c = false :=
  Bool.eq_false_iff.mpr fun symbol => Bool.eq_false_iff.mp (symbolChar_not symbol).2 h

theorem scan_word {c : Char} {name rest : Text} (hc : c.isLower = true)
    (inside : ∀ d ∈ name, Atom.isWordChar d = true) (ends : Text.Ends Atom.isWordChar rest) :
    scan (c :: (name ++ rest)) = some (.atom (c :: name), rest) := by
  rw [scan, if_pos hc, Text.takeWhile_run inside ends, Text.dropWhile_run inside ends]

theorem scan_symbol {name rest : Text} (nonempty : name ≠ [])
    (inside : ∀ d ∈ name, Atom.isSymbolChar d = true)
    (ends : Text.Ends Atom.isSymbolChar rest) :
    scan (name ++ rest) = some (.atom name, rest) := by
  obtain ⟨c, name, rfl⟩ := List.exists_cons_of_ne_nil nonempty
  have hc : Atom.isSymbolChar c = true := inside c (by simp)
  obtain ⟨lower, digit⟩ := symbolChar_not hc
  rw [List.cons_append, scan, if_neg (by simp [lower]), if_neg (by simp [digit]), if_pos hc,
    ← List.cons_append, Text.takeWhile_run inside ends, Text.dropWhile_run inside ends]

theorem scan_int (n : Nat) {rest : Text} (ends : Text.Ends Char.isDigit rest) :
    scan (Numeral.ofNat n ++ rest) = some (.int n, rest) := by
  have inside : ∀ d ∈ Numeral.ofNat n, d.isDigit = true := Naming.isDigit_ofNat
  obtain ⟨c, digits, spelled⟩ := List.exists_cons_of_ne_nil (Nat.toDigits_ne_nil (b := 10) (n := n))
  have spelled : Numeral.ofNat n = c :: digits := spelled
  have hc : c.isDigit = true := inside c (by simp [spelled])
  have scanned : scan (c :: (digits ++ rest)) =
      some (.int (Nat.ofDigitChars 10 ((c :: (digits ++ rest)).takeWhile Char.isDigit) 0),
        (c :: (digits ++ rest)).dropWhile Char.isDigit) := by
    rw [scan, if_neg (by simp [isLower_of_isDigit hc]), if_pos hc]
  rw [← List.cons_append, ← spelled, Text.takeWhile_run inside ends,
    Text.dropWhile_run inside ends] at scanned
  rw [scanned, Numeral.ofNat, Nat.ofDigitChars_ten_toDigits]

theorem scan_var (n : Nat) {rest : Text} (ends : Text.Ends Char.isDigit rest) :
    scan (Term.displayVar n ++ rest) = some (.var n, rest) := by
  rw [Term.displayVar, List.cons_append, scan, if_neg (by decide), if_neg (by decide),
    if_neg (by decide), if_pos rfl, Text.takeWhile_run Naming.isDigit_ofNat ends,
    Text.dropWhile_run Naming.isDigit_ofNat ends, Numeral.ofNat, Nat.ofDigitChars_ten_toDigits]

theorem scan_generated (n : Nat) {rest : Text} (ends : Text.Ends Char.isDigit rest) :
    scan (Naming.generated n ++ rest) = some (.var n, rest) := by
  obtain ⟨upper, lower, digit, symbol, apart, -⟩ :=
    Naming.letter_table (n % 26) (Nat.mod_lt n (by decide))
  rw [Naming.generated_eq, List.cons_append, scan, lower, digit, symbol,
    if_neg Bool.false_ne_true, if_neg Bool.false_ne_true, if_neg Bool.false_ne_true,
    if_neg apart, if_pos upper, Text.takeWhile_run Naming.isDigit_digits ends,
    Text.dropWhile_run Naming.isDigit_digits ends, Naming.number_generated]

theorem scan_between (text rest : Text) :
    scan (Atom.between '"' text ++ rest) = some (.chars text, rest) := by
  have read := Atom.readQuoted_between (.inr rfl) text rest
  simp only [Atom.between, List.cons_append, List.append_assoc, List.nil_append]
  rw [scan, if_neg (by decide), if_neg (by decide), if_neg (by decide), if_neg (by decide),
    if_neg (by decide), if_neg (by decide), if_pos rfl, read]
  rfl

theorem scan_quotes (name rest : Text) :
    scan (Atom.between '\x27' name ++ rest) = some (.atom name, rest) := by
  have read := Atom.readQuoted_between (.inl rfl) name rest
  simp only [Atom.between, List.cons_append, List.append_assoc, List.nil_append]
  rw [scan, if_neg (by decide), if_neg (by decide), if_neg (by decide), if_neg (by decide),
    if_neg (by decide), if_pos rfl, read]
  rfl

theorem symbol_not_word {name : Text} (h : Atom.isSymbol name = true) :
    Atom.isWord name = false := by
  cases name with
  | nil => rfl
  | cons c name =>
      simp only [Atom.isSymbol, List.all_cons, Bool.and_eq_true] at h
      simp [Atom.isWord, (symbolChar_not h.1.2.1).1]

theorem absorbs_word {name : Text} (h : Atom.isWord name = true) :
    absorbs (.atom name) = Atom.isWordChar := by
  funext c
  simp [absorbs, h]

theorem absorbs_symbol {name : Text} (h : Atom.isSymbol name = true) :
    absorbs (.atom name) = Atom.isSymbolChar := by
  funext c
  simp [absorbs, h, symbol_not_word h]

theorem scan_atom (name : Text) {rest : Text} (ends : Text.Ends (absorbs (.atom name)) rest) :
    scan (Atom.quoted name ++ rest) = some (.atom name, rest) := by
  unfold Atom.quoted
  split
  · exact scan_quotes name rest
  next bare =>
    simp only [Atom.needsQuotes, Bool.not_eq_true, Bool.not_eq_false', Bool.or_eq_true] at bare
    rcases bare with (solo | word) | symbol
    · simp only [Atom.isSolo, Bool.or_eq_true, decide_eq_true_eq] at solo
      rcases solo with ((rfl | rfl) | rfl) | rfl <;> rfl
    · rw [absorbs_word word] at ends
      cases name with
      | nil => exact nomatch word
      | cons c name =>
          simp only [Atom.isWord, Bool.and_eq_true, List.all_eq_true] at word
          exact scan_word word.1 word.2 ends
    · rw [absorbs_symbol symbol] at ends
      simp only [Atom.isSymbol, Bool.and_eq_true, decide_eq_true_eq, List.all_eq_true] at symbol
      exact scan_symbol symbol.1.1 symbol.1.2 ends

/-- A token is read back where what stands behind it does not go on with it. -/
theorem scan_text (t : Token) {rest : Text} (ends : Text.Ends t.absorbs rest) :
    scan (t.text ++ rest) = some (t, rest) := by
  cases t with
  | var n => exact scan_var n ends
  | int n => exact scan_int n ends
  | atom name => exact scan_atom name ends
  | chars text => exact scan_between text rest
  | bracketOpen =>
      cases rest with
      | nil => rfl
      | cons c rest =>
          have hc : c ≠ ']' := by simpa [absorbs] using Text.ends_cons.mp ends
          have symbol : Atom.isSymbolChar '[' = false := rfl
          simp [text, scan, scanMark, hc, symbol]
  | braceOpen =>
      cases rest with
      | nil => rfl
      | cons c rest =>
          have hc : c ≠ '\x7d' := by simpa [absorbs] using Text.ends_cons.mp ends
          have symbol : Atom.isSymbolChar '\x7b' = false := rfl
          simp [text, scan, scanMark, hc, symbol]
  | _ => rfl

theorem scan_textIn {names : Nat → Text} (legible : Naming.Legible names) (t : Token) {rest : Text}
    (ends : Text.Ends t.absorbs rest) : scan (t.textIn names ++ rest) = some (t, rest) := by
  cases t with
  | var n =>
      rw [textIn]
      rcases legible n with name | name <;> rw [name]
      · exact scan_var n ends
      · exact scan_generated n ends
  | _ => exact scan_text _ ends

/-- Whether a token can be written right before another and still be told from it. -/
def Fits (t u : Token) : Prop := Text.Ends t.absorbs u.text

/-- What can be written before an underscore can be written before a capital letter. -/
theorem absorbs_letter {t : Token} (h : t.absorbs '_' = false) {k : Nat} (letter : k < 26) :
    t.absorbs (Char.ofNat ('A'.toNat + k)) = false := by
  obtain ⟨upper, -, digit, symbol, -, -⟩ := Naming.letter_table k letter
  cases t with
  | var n => exact digit
  | int n => exact digit
  | atom name =>
      rcases word : Atom.isWord name with _ | _
      · rw [absorbs, word, if_neg Bool.false_ne_true, symbol, Bool.and_false]
      · rw [absorbs_word word] at h
        exact nomatch h
  | bracketOpen =>
      refine decide_eq_false fun bracket => ?_
      rw [bracket] at upper
      exact nomatch upper
  | braceOpen =>
      refine decide_eq_false fun brace => ?_
      rw [brace] at upper
      exact nomatch upper
  | _ => rfl

theorem Fits.textIn {names : Nat → Text} (legible : Naming.Legible names) {t u : Token}
    (fits : t.Fits u) : Text.Ends t.absorbs (u.textIn names) := by
  cases u with
  | var n =>
      rw [Token.textIn]
      rcases legible n with name | name <;> rw [name]
      · exact fits
      · rw [Naming.generated_eq]
        exact Text.ends_cons.mpr
          (absorbs_letter (Text.ends_cons.mp fits) (Nat.mod_lt n (by decide)))
  | _ => exact fits

theorem text_ne_nil (t : Token) : t.text ≠ [] := by
  cases t with
  | int n => exact Nat.toDigits_ne_nil
  | atom name =>
      simp only [text, Atom.quoted]
      split
      · exact List.cons_ne_nil _ _
      · next bare =>
          rintro rfl
          exact bare rfl
  | _ => exact List.cons_ne_nil _ _

theorem textIn_ne_nil {names : Nat → Text} (legible : Naming.Legible names) (t : Token) :
    t.textIn names ≠ [] := by
  by_cases named : ∃ n, t = .var n
  · obtain ⟨n, rfl⟩ := named
    rw [textIn]
    rcases legible n with name | name <;> rw [name] <;> exact List.cons_ne_nil _ _
  · rw [textIn_of_ne_var fun n same => named ⟨n, same⟩]
    exact t.text_ne_nil

theorem head?_render (t : Token) (ts : List Token) :
    (render (t :: ts)).head? = t.text.head? := by
  rw [render_cons, List.head?_append_of_ne_nil _ t.text_ne_nil]

section Named

variable {names names' : Nat → Text} {t : Token} {ts us : List Token}

theorem head?_renderIn (legible : Naming.Legible names) (t : Token) (ts : List Token) :
    (renderIn names (t :: ts)).head? = (t.textIn names).head? := by
  rw [renderIn_cons, List.head?_append_of_ne_nil _ (t.textIn_ne_nil legible)]

theorem scan_renderIn (legible : Naming.Legible names) (fits : (t :: ts).IsChain Fits) :
    scan (renderIn names (t :: ts)) = some (t, renderIn names ts) := by
  refine scan_textIn legible t ?_
  cases ts with
  | nil => exact Text.ends_nil
  | cons u ts =>
      have next : t.Fits u := (List.isChain_cons_cons.mp fits).1
      intro c hc
      exact next.textIn legible c (head?_renderIn legible u ts ▸ hc)

/-- The tokens of a text are settled by the text, whichever names its variables have. -/
theorem renderIn_injective (legible : Naming.Legible names) (legible' : Naming.Legible names')
    (hts : ts.IsChain Fits) (hus : us.IsChain Fits)
    (same : renderIn names ts = renderIn names' us) : ts = us := by
  induction ts generalizing us with
  | nil =>
      cases us with
      | nil => rfl
      | cons u us =>
          exact absurd (List.append_eq_nil_iff.mp same.symm).1 (u.textIn_ne_nil legible')
  | cons t ts ih =>
      cases us with
      | nil => exact absurd (List.append_eq_nil_iff.mp same).1 (t.textIn_ne_nil legible)
      | cons u us =>
          have scanned := scan_renderIn legible hts
          rw [same, scan_renderIn legible' hus] at scanned
          simp only [Option.some.injEq, Prod.mk.injEq] at scanned
          obtain ⟨rfl, behind⟩ := scanned
          rw [ih (List.isChain_of_isChain_cons hts) (List.isChain_of_isChain_cons hus) behind.symm]

end Named

theorem render_injective {ts us : List Token} (hts : ts.IsChain Fits) (hus : us.IsChain Fits)
    (same : render ts = render us) : ts = us := by
  rw [← renderIn_displayVar] at same
  exact renderIn_injective Naming.legible_displayVar Naming.legible_displayVar hts hus same

end Token

end LogicFormat
