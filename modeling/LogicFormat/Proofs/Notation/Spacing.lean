import LogicFormat.Proofs.Notation.Spelling

/-!
# Blanks where they are needed

No token of a well-formed tree goes on with the first character of the next: brackets, commas
and bars never do, and where an operator would, a blank stands in between.
-/

namespace LogicFormat

namespace Atom

variable {name : Text}

theorem quoted_word (word : isWord name = true) : quoted name = name := by
  simp [quoted, needsQuotes, word]

theorem quoted_symbol (symbol : isSymbol name = true) : quoted name = name := by
  simp [quoted, needsQuotes, symbol]

/-- What an atom can begin with that is neither a word nor a symbol. -/
def starts : Text := "'[\x7b!;"

theorem start_quoted : ∀ c ∈ (quoted name).head?,
    c ∈ starts ∨ c.isLower = true ∨ isSymbol name = true ∧ isSymbolChar c = true := by
  intro c hc
  unfold quoted at hc
  split at hc
  · cases hc
    exact .inl (by decide)
  next bare =>
    simp only [needsQuotes, Bool.not_eq_true, Bool.not_eq_false', Bool.or_eq_true] at bare
    obtain ⟨rest, rfl⟩ := List.head?_eq_some_iff.mp hc
    rcases bare with (solo | word) | symbol
    · simp only [isSolo, Bool.or_eq_true, decide_eq_true_eq] at solo
      left
      rcases solo with ((same | same) | same) | same <;> cases same <;> decide
    · simp only [isWord, Bool.and_eq_true] at word
      exact .inr (.inl word.1)
    · have all := symbol
      simp only [isSymbol, List.all_cons, Bool.and_eq_true] at all
      exact .inr (.inr ⟨symbol, all.1.2.1⟩)

end Atom

namespace Token

/-- Whether a tree can end with the token. -/
def finishes : Token → Bool
  | .blank | .parenOpen | .bracketOpen | .braceOpen | .comma | .bar => false
  | _ => true

theorem isWordChar_of_isDigit {c : Char} (h : Atom.isWordChar c = false) :
    c.isDigit = false := by
  simp only [Atom.isWordChar, Char.isAlphanum, Bool.or_eq_false_iff] at h
  exact h.1.2

theorem absorbs_mark {t : Token} {c : Char} (finishes : t.finishes = true)
    (word : Atom.isWordChar c = false) (symbol : Atom.isSymbolChar c = false) :
    t.absorbs c = false := by
  cases t with
  | var n => exact isWordChar_of_isDigit word
  | int n => exact isWordChar_of_isDigit word
  | atom name => simp [absorbs, word, symbol]
  | bracketOpen => cases finishes
  | braceOpen => cases finishes
  | _ => rfl

theorem fits_mark {t u : Token} (finishes : t.finishes = true) (mark : u.opens = false) :
    t.Fits u := by
  cases u with
  | blank => exact Text.ends_cons.mpr (absorbs_mark finishes rfl rfl)
  | parenClose => exact Text.ends_cons.mpr (absorbs_mark finishes rfl rfl)
  | bracketClose => exact Text.ends_cons.mpr (absorbs_mark finishes rfl rfl)
  | braceClose => exact Text.ends_cons.mpr (absorbs_mark finishes rfl rfl)
  | comma => exact Text.ends_cons.mpr (absorbs_mark finishes rfl rfl)
  | bar => exact Text.ends_cons.mpr (absorbs_mark finishes rfl rfl)
  | _ => exact nomatch mark

theorem fits_parenOpen (name : Text) : (atom name).Fits .parenOpen :=
  Text.ends_cons.mpr (absorbs_mark rfl rfl rfl)

theorem head_quoted (name : Text) :
    ∀ c ∈ (Atom.quoted name).head?, c ≠ ']' ∧ c ≠ '\x7d' := by
  intro c hc
  rcases Atom.start_quoted c hc with mark | lower | symbol
  · have table : Atom.starts.all (fun d => d ≠ ']' && d ≠ '\x7d') = true := by
      decide
    simpa using List.all_eq_true.mp table c mark
  · constructor <;> rintro rfl <;> cases lower
  · constructor <;> rintro rfl <;> cases symbol.2

theorem head_of_opens {u : Token} (opens : u.opens = true) :
    ∀ c ∈ u.text.head?, c ≠ ']' ∧ c ≠ '\x7d' := by
  intro c hc
  cases u with
  | int n =>
      have digit := Naming.isDigit_ofNat c (List.mem_of_mem_head? hc)
      constructor <;> rintro rfl <;> exact nomatch digit
  | atom name => exact head_quoted name c hc
  | var n => cases hc; decide
  | chars text => cases hc; decide
  | parenOpen => cases hc; decide
  | bracketOpen => cases hc; decide
  | braceOpen => cases hc; decide
  | _ => exact nomatch opens

theorem fits_start {t u : Token} (starts : t.finishes = false) (opens : u.opens = true) :
    t.Fits u := by
  intro c hc
  have head := head_of_opens opens c hc
  cases t with
  | bracketOpen => simp [absorbs, head.1]
  | braceOpen => simp [absorbs, head.2]
  | blank => rfl
  | parenOpen => rfl
  | comma => rfl
  | bar => rfl
  | _ => cases starts

/-- An operator that is no word fits where its last character and the next are not read as
one token. -/
theorem fits_operator {name : Text} {u : Token} (word : Atom.isWord name = false)
    (apart : Atom.fuses (Atom.quoted name) u.text = false) : (atom name).Fits u := by
  intro c hc
  rcases symbol : Atom.isSymbol name with _ | _
  · simp [absorbs, word, symbol]
  rw [absorbs_symbol symbol]
  have bare := Atom.quoted_symbol symbol
  simp only [Atom.isSymbol, Bool.and_eq_true, decide_eq_true_eq, List.all_eq_true] at symbol
  have last : name.getLast?.any Atom.isSymbolChar = true := by
    rw [List.getLast?_eq_some_getLast symbol.1.1]
    exact symbol.1.2 _ (List.getLast_mem _)
  rw [bare, Atom.fuses, last, Bool.true_and, Option.mem_def.mp hc] at apart
  exact apart

/-- Whatever a tree ends with fits an operator that begins with no letter, digit or underscore,
unless both would be read as one token. -/
theorem fits_sign {t u : Token} (finishes : t.finishes = true)
    (plain : ∀ c ∈ u.text.head?, Atom.isWordChar c = false)
    (apart : Atom.fuses t.text u.text = false) : t.Fits u := by
  cases t with
  | atom name =>
      rcases word : Atom.isWord name with _ | _
      · exact fits_operator word apart
      · intro c hc
        rw [absorbs_word word]
        exact plain c hc
  | var n => exact fun c hc => isWordChar_of_isDigit (plain c hc)
  | int n => exact fun c hc => isWordChar_of_isDigit (plain c hc)
  | bracketOpen => exact nomatch finishes
  | braceOpen => exact nomatch finishes
  | _ => exact fun _ _ => rfl

/-- Tokens that can be told apart, and begin and end as a tree does. -/
structure Spaced (tokens : List Token) : Prop where
  chain : tokens.IsChain Fits
  nonempty : tokens ≠ []
  first : ∀ t ∈ tokens.head?, t.opens = true
  last : ∀ t ∈ tokens.getLast?, t.finishes = true

namespace Spaced

variable {ts us : List Token}

theorem single {t : Token} (opens : t.opens = true) (finishes : t.finishes = true) :
    Spaced [t] where
  chain := List.isChain_singleton t
  nonempty := List.cons_ne_nil _ _
  first := by
    intro u hu
    cases hu
    exact opens
  last := by
    intro u hu
    cases hu
    exact finishes

theorem append (hts : Spaced ts) (hus : Spaced us)
    (fits : ∀ t ∈ ts.getLast?, ∀ u ∈ us.head?, t.Fits u) : Spaced (ts ++ us) where
  chain := hts.chain.append hus.chain fits
  nonempty := List.append_ne_nil_of_left_ne_nil hts.nonempty us
  first := by
    rw [List.head?_append_of_ne_nil ts hts.nonempty]
    exact hts.first
  last := by
    rw [List.getLast?_append_of_ne_nil ts hus.nonempty]
    exact hus.last

/-- A mark no tree begins or ends with can stand between any two. -/
theorem joined {mark : Token} (opens : mark.opens = false) (finishes : mark.finishes = false)
    (hts : Spaced ts) (hus : Spaced us) : Spaced (ts ++ mark :: us) where
  chain := by
    refine hts.chain.append (List.isChain_cons.mpr ⟨?_, hus.chain⟩) ?_
    · exact fun u hu => fits_start finishes (hus.first u hu)
    · intro t ht u hu
      cases hu
      exact fits_mark (hts.last t ht) opens
  nonempty := List.append_ne_nil_of_left_ne_nil hts.nonempty _
  first := by
    rw [List.head?_append_of_ne_nil ts hts.nonempty]
    exact hts.first
  last := by
    rw [List.getLast?_append_of_ne_nil ts (List.cons_ne_nil mark us),
      List.getLast?_cons_of_ne_nil hus.nonempty]
    exact hus.last

theorem gapped {needed : Bool} (hts : Spaced ts) (hus : Spaced us)
    (fits : needed = false → ∀ t ∈ ts.getLast?, ∀ u ∈ us.head?, t.Fits u) :
    Spaced (ts ++ (Tree.gap needed ++ us)) := by
  cases needed with
  | true => exact hts.joined rfl rfl hus
  | false => exact hts.append hus (fits rfl)

theorem enclosed {opening closing : Token} (opens : opening.opens = true)
    (starts : opening.finishes = false) (closes : closing.opens = false)
    (finishes : closing.finishes = true) (hts : Spaced ts) :
    Spaced (opening :: (ts ++ [closing])) where
  chain := by
    refine List.isChain_cons.mpr ⟨?_, hts.chain.append (List.isChain_singleton closing) ?_⟩
    · rw [List.head?_append_of_ne_nil ts hts.nonempty]
      exact fun u hu => fits_start starts (hts.first u hu)
    · intro t ht u hu
      cases hu
      exact fits_mark (hts.last t ht) closes
  nonempty := List.cons_ne_nil _ _
  first := by
    intro u hu
    cases hu
    exact opens
  last := by
    intro u hu
    rw [← List.cons_append, List.getLast?_concat] at hu
    cases hu
    exact finishes

end Spaced

end Token

namespace Tree

open Token

variable {ts us : List Token}

theorem fuses_last {t : Token} (h : t ∈ ts.getLast?) (text : Text) :
    Atom.fuses (render ts) text = Atom.fuses t.text text := by
  obtain ⟨init, rfl⟩ := List.getLast?_eq_some_iff.mp h
  simp [Atom.fuses, List.getLast?_append_of_ne_nil _ t.text_ne_nil]

theorem fuses_first {u : Token} (h : u ∈ us.head?) (text : Text) :
    Atom.fuses text (render us) = Atom.fuses text u.text := by
  obtain ⟨rest, rfl⟩ := List.head?_eq_some_iff.mp h
  rw [Atom.fuses, head?_render, Atom.fuses]

theorem isWord_quoted {name : Text} (h : Atom.isWord (Atom.quoted name) = false) :
    Atom.isWord name = false := by
  rcases word : Atom.isWord name with _ | _
  · rfl
  · rw [Atom.quoted_word word, word] at h
    cases h

theorem spaced_before {op : UnaryOperator} (known : op ∈ Operator.unaryOperators)
    (numeral : Bool) (hts : Spaced ts) :
    Spaced (.atom op.name :: (gap (spacedBefore op numeral (render ts)) ++ ts)) := by
  refine Spaced.gapped (Spaced.single rfl rfl) hts ?_
  intro tight t ht u hu
  cases ht
  simp only [spacedBefore, Bool.or_eq_false_iff] at tight
  exact fits_operator (Operator.unary_not_word op known) (fuses_first hu _ ▸ tight.2)

theorem tokensBetween_mark {op : BinaryOperator} (mark : sign op = .comma ∨ sign op = .bar) :
    tokensBetween op ts us = ts ++ sign op :: us := by
  have comma : Atom.isSymbolChar ',' = false := rfl
  have bar : Atom.isSymbolChar '|' = false := rfl
  rcases mark with mark | mark
  · simp [tokensBetween, mark, Token.text, Atom.isWord, Atom.fuses, gap, comma]
  · simp [tokensBetween, mark, Token.text, Atom.isWord, Atom.fuses, gap, bar]

theorem sign_plain {op : BinaryOperator} (known : op ∈ Operator.binaryOperators)
    (word : Atom.isWord (sign op).text = false) :
    ∀ c ∈ (sign op).text.head?, Atom.isWordChar c = false := by
  have table : ∀ op ∈ Operator.binaryOperators, Atom.isWord (sign op).text = false →
      (sign op).text.head?.all (fun c => !Atom.isWordChar c) = true := by
    decide
  intro c hc
  have plain := table op known word
  rw [Option.mem_def.mp hc] at plain
  simpa using plain

theorem spaced_between {op : BinaryOperator} (known : op ∈ Operator.binaryOperators)
    (hts : Spaced ts) (hus : Spaced us) : Spaced (tokensBetween op ts us) := by
  rcases sign_cases op with mark | atom
  · rw [tokensBetween_mark mark]
    rcases mark with mark | mark <;> rw [mark] <;> exact hts.joined rfl rfl hus
  rw [tokensBetween, List.append_assoc]
  have single : Spaced [sign op] := by
    rw [atom]
    exact .single rfl rfl
  refine hts.gapped (single.gapped hus ?_) ?_
  · intro tight t ht u hu
    cases ht
    rw [Bool.or_eq_false_iff, fuses_first hu] at tight
    rw [atom] at tight ⊢
    exact fits_operator (isWord_quoted tight.1) tight.2
  · intro tight t ht u hu
    cases hu
    rw [Bool.or_eq_false_iff, fuses_last ht] at tight
    exact fits_sign (hts.last t ht) (sign_plain known tight.1) tight.2

theorem spaced_behind (hts : Spaced ts) {trees : List Tree}
    (spaced : ∀ t ∈ trees, Spaced t.tokens) : Spaced (ts ++ tokensBehind trees) := by
  induction trees generalizing ts with
  | nil => simpa [tokensBehind] using hts
  | cons t trees ih =>
      rw [List.forall_mem_cons] at spaced
      have longer : Spaced (ts ++ .comma :: t.tokens) := hts.joined rfl rfl spaced.1
      simpa [tokensBehind] using ih longer spaced.2

theorem tokens_spaced {t : Tree} (formed : t.WellFormed) : Spaced t.tokens := by
  induction formed with
  | var n => exact .single rfl rfl
  | int n => exact .single rfl rfl
  | atom name => exact .single rfl rfl
  | chars text => exact .single rfl rfl
  | list _ _ ih =>
      rw [List.forall_mem_cons] at ih
      exact (spaced_behind ih.1 ih.2).enclosed rfl rfl rfl rfl
  | braced _ ih => exact ih.enclosed rfl rfl rfl rfl
  | applied _ _ ih =>
      rw [List.forall_mem_cons] at ih
      refine (Spaced.single rfl rfl).append
        ((spaced_behind ih.1 ih.2).enclosed rfl rfl rfl rfl) ?_
      intro t ht u hu
      cases ht
      cases hu
      exact fits_parenOpen _
  | bracketed _ ih => exact ih.enclosed rfl rfl rfl rfl
  | before known _ _ ih => exact spaced_before known _ ih
  | between known _ _ _ _ ihLeft ihRight => exact spaced_between known ihLeft ihRight

end Tree

end LogicFormat
