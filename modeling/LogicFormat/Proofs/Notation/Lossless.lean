import LogicFormat.Proofs.Notation.Writing
import LogicFormat.Proofs.Term.Written

/-!
# Quoted writing loses nothing

Every readable term is written as the tokens of a well-formed tree of that term. Tokens are
settled by their text, trees by their tokens, and so two readable terms with one text are the
same term.
-/

namespace LogicFormat.Term

/-- Terms whose quoted text can be read back: their lists are not empty, their integers are
not negative, and no list is built from pairs. -/
inductive Readable : Term → Prop where
  | var (n : Nat) : Readable (.var n)
  | atom (name : Text) : Readable (.atom name)
  | int {n : Int} (nonneg : 0 ≤ n) : Readable (.int n)
  | list {items : List Term} (nonempty : items ≠ []) (readable : ∀ t ∈ items, Readable t) :
      Readable (.list items)
  | compound {name : Text} {first : Term} {others : List Term}
      (pairless : ¬ (name = ['.'] ∧ others.length = 1))
      (readable : ∀ t ∈ first :: others, Readable t) : Readable (.compound name first others)

def level : Term → Nat
  | .compound name _ [] =>
      match Operator.unary? name with
      | some op => op.level
      | none => 0
  | .compound name _ [_] =>
      match Operator.binary? name with
      | some op => op.level
      | none => 0
  | _ => 0

def isOperator : Term → Bool
  | .atom name => Operator.isOperator name
  | _ => false

theorem level_compound (style : Style) (name : Text) (first : Term) (phrase : Phrase)
    {others : List Term} {phrases : List Phrase} (length : phrases.length = others.length) :
    (style.compound name phrase phrases).level = (Term.compound name first others).level ∧
      (style.compound name phrase phrases).isOperator = false := by
  rcases others with _ | ⟨second, _ | ⟨third, others⟩⟩
  · rw [List.eq_nil_of_length_eq_zero length, Style.compound, level]
    split
    · next braces =>
        rw [braces]
        exact ⟨rfl, rfl⟩
    · cases Operator.unary? name <;> exact ⟨rfl, rfl⟩
  · obtain ⟨phrase', rfl⟩ := List.length_eq_one_iff.mp length
    rw [Style.compound, level]
    split
    · next pair =>
        rw [pair]
        unfold Style.pair
        split
        · exact ⟨rfl, rfl⟩
        · split <;> exact ⟨rfl, rfl⟩
        · exact ⟨rfl, rfl⟩
    · cases Operator.binary? name <;> exact ⟨rfl, rfl⟩
  · obtain ⟨phrase', rest, rfl⟩ := List.exists_cons_of_length_eq_add_one length
    obtain ⟨phrase'', rest, rfl⟩ := List.exists_cons_of_length_eq_add_one (Nat.succ.inj length)
    exact ⟨rfl, rfl⟩

/-- A phrase knows how loosely its term binds, and whether it is an operator. -/
theorem level_phrase {style : Style} {t : Term} {phrase : Phrase}
    (h : t.phrase style = .ok phrase) :
    phrase.level = t.level ∧ phrase.isOperator = t.isOperator := by
  cases t with
  | null =>
      rw [Term.phrase] at h
      cases h
  | list items =>
      obtain ⟨written, -, rfl⟩ := exists_phrase_of_list h
      exact ⟨rfl, rfl⟩
  | tuple items =>
      obtain ⟨written, -, rfl⟩ := exists_phrase_of_tuple h
      exact ⟨rfl, rfl⟩
  | compound name first others =>
      obtain ⟨phrase, written, -, all, rfl⟩ := exists_phrase_of_compound h
      exact level_compound style name first phrase (length_phrases all)
  | _ =>
      rw [Term.phrase] at h
      cases h
      exact ⟨rfl, rfl⟩

/-- Whether the phrase of a term is that of a tree of the term. -/
def Written (style : Style) (t : Term) (tree : Tree) (phrase : Phrase) : Prop :=
  tree.term = t ∧ t.phrase style = .ok phrase ∧ tree.Notates style phrase

variable {style : Style} {t : Term} {tree : Tree} {phrase : Phrase}

theorem phrases_written {ts : List Term}
    (h : ∀ t ∈ ts, ∃ tree phrase, Written style t tree phrase) :
    ∃ rows : List (Tree × Phrase), rows.map (·.1.term) = ts ∧
      phrases style ts = .ok (rows.map Prod.snd) ∧ ∀ row ∈ rows, row.1.Notates style row.2 := by
  induction ts with
  | nil => exact ⟨[], rfl, by rw [phrases]; rfl, nofun⟩
  | cons t ts ih =>
      rw [List.forall_mem_cons] at h
      obtain ⟨tree, phrase, isTerm, written, notates⟩ := h.1
      obtain ⟨rows, areTerms, allWritten, allNotate⟩ := ih h.2
      refine ⟨(tree, phrase) :: rows, ?_, ?_, List.forall_mem_cons.mpr ⟨notates, allNotate⟩⟩
      · rw [List.map_cons, isTerm, areTerms]
      · rw [phrases, written, allWritten]
        rfl

/-- Every readable term is written, and from a well-formed tree of its own. -/
theorem exists_writtenIn (legible : style.Legible) (readable : t.Readable) :
    ∃ tree phrase, Written style t tree phrase := by
  induction readable with
  | var n => exact ⟨_, _, rfl, by rw [Term.phrase], .var n⟩
  | atom name => exact ⟨_, _, rfl, by rw [Term.phrase], .atom legible name⟩
  | int nonneg =>
      refine ⟨_, _, ?_, by rw [Term.phrase], .int nonneg⟩
      rw [Tree.term, Int.toNat_of_nonneg nonneg]
  | list nonempty _ ih =>
      obtain ⟨rows, rfl, written, notate⟩ := phrases_written ih
      rcases rows with _ | ⟨first, others⟩
      · exact absurd rfl nonempty
      obtain ⟨tree, isTerm, notates⟩ := Tree.Notates.list legible notate
      refine ⟨tree, _, isTerm, ?_, notates⟩
      rw [Term.phrase, written]
      rfl
  | @compound name first others pairless _ ih =>
      rw [List.forall_mem_cons] at ih
      obtain ⟨tree, phrase, rfl, written, notates⟩ := ih.1
      obtain ⟨rows, rfl, allWritten, allNotate⟩ := phrases_written ih.2
      rw [List.length_map] at pairless
      have notate : ∀ row ∈ (tree, phrase) :: rows, row.1.Notates style row.2 :=
        List.forall_mem_cons.mpr ⟨notates, allNotate⟩
      obtain ⟨whole, isTerm, wholeNotates⟩ := Tree.Notates.compound legible pairless notate
      refine ⟨whole, _, isTerm, ?_, wholeNotates⟩
      rw [Term.phrase, written, allWritten]
      rfl

theorem exists_written (readable : t.Readable) :
    ∃ tree phrase, Written Style.plain t tree phrase :=
  exists_writtenIn Style.legible_plain readable

theorem write_of_writtenIn (h : Written style t tree phrase) :
    t.write style = .ok (Token.renderIn style.names.nameOf tree.tokens) := by
  obtain ⟨_, written, notates⟩ := h
  rw [write, writeWithin, written, Outcome.ok_bind, notates.text termLevel (by decide),
    Tree.within_termLevel notates.formed]
  rfl

theorem write_of_written (h : Written Style.plain t tree phrase) :
    t.write Style.plain = .ok (Token.render tree.tokens) := by
  rw [write_of_writtenIn h, ← Token.renderIn_displayVar]
  rfl

/-- Two readable terms are written, and if their quoted texts are the same they are the same
term. -/
theorem write_quoted_injective {s t : Term} (hs : s.Readable) (ht : t.Readable) :
    ∃ textS textT, s.write ⟨true, []⟩ = .ok textS ∧ t.write ⟨true, []⟩ = .ok textT ∧
      (textS = textT → s = t) := by
  obtain ⟨tree, phrase, written⟩ := exists_written hs
  obtain ⟨tree', phrase', written'⟩ := exists_written ht
  refine ⟨_, _, write_of_written written, write_of_written written', fun sameText => ?_⟩
  obtain ⟨rfl, _, notates⟩ := written
  obtain ⟨rfl, _, notates'⟩ := written'
  have sameTokens := Token.render_injective (Tree.tokens_spaced notates.formed).chain
    (Tree.tokens_spaced notates'.formed).chain sameText
  rw [Tree.tokens_injective notates.formed notates'.formed sameTokens]

theorem write_quoted_injective_conjunction :
    ((Term.compound ['f'] (.compound [','] (.atom ['a']) [.int 1]) []).Readable ∧
      (Term.compound ['f'] (.atom ['a']) [.int 1]).Readable) ∧
      ∃ textS textT,
        (Term.compound ['f'] (.compound [','] (.atom ['a']) [.int 1]) []).write ⟨true, []⟩ =
          .ok textS ∧
        (Term.compound ['f'] (.atom ['a']) [.int 1]).write ⟨true, []⟩ = .ok textT ∧
        (textS = textT → Term.compound ['f'] (.compound [','] (.atom ['a']) [.int 1]) [] =
          Term.compound ['f'] (.atom ['a']) [.int 1]) := by
  have parts : ∀ t ∈ [Term.atom ['a'], .int 1], t.Readable := by
    rw [List.forall_mem_cons, List.forall_mem_singleton]
    exact ⟨.atom ['a'], .int (by decide)⟩
  have grouped : ∀ t ∈ [Term.compound [','] (.atom ['a']) [.int 1]], t.Readable := by
    rw [List.forall_mem_singleton]
    exact .compound (by decide) parts
  have one : (Term.compound ['f'] (.compound [','] (.atom ['a']) [.int 1]) []).Readable :=
    .compound (by decide) grouped
  have two : (Term.compound ['f'] (.atom ['a']) [.int 1]).Readable :=
    .compound (by decide) parts
  exact ⟨⟨one, two⟩, write_quoted_injective one two⟩

end LogicFormat.Term
