import LogicFormat.Proofs.Clause.Columns
import LogicFormat.Proofs.Clause.Mapping
import LogicFormat.Proofs.Clause.Row

/-!
# Clauses are told apart

Without its line breaks, a rule is a row of tokens: its head, its neck and its body. Where head and
goals are admitted in their places, the row tells the rule, up to the names of its variables and the
association of its conjunctions. No brackets are put around what is not admitted in its place, and
rules are confused there.
-/

namespace LogicFormat.Clause

open Token (renderIn)

def neckOperator (neck : Text) : BinaryOperator := ⟨neck, 1200, .tighter, .tighter⟩

theorem neck_table {neck : Text} (rule : neck = ":-" ∨ neck = "-->") :
    neckOperator neck ∈ Operator.binaryOperators ∧
      (neckOperator neck).name ∈ Operator.lineBreaking ∧ Text.OneLine (' ' :: neck) := by
  rcases rule with rfl | rfl <;> decide

/-- Whether the head and the goals of a rule are admitted in their places. -/
structure Placed (head goals : Term) : Prop where
  head : (Goal.literal head).Places 1199
  goals : (Goal.ofTerm goals).Places 1199

theorem Placed.rename {head goals : Term} (h : Placed head goals) (r : Nat → Nat) :
    Placed (head.rename r) (goals.rename r) := by
  refine ⟨h.head.rename r, ?_⟩
  rw [Goal.ofTerm_rename]
  exact h.goals.rename r

variable {names : Naming} {neck : Text} {head goals : Term}

/-- The marks of a rule put the row of a tree on the page, and a full stop. -/
theorem exists_row (rule : neck = ":-" ∨ neck = "-->")
    (legible : Style.Legible ⟨true, names⟩) (one : Style.OneLine ⟨true, names⟩)
    (readable : (Term.compound neck head [goals]).Readable) (placed : Placed head goals)
    (indent : Int) :
    ∃ front back tokens, Tree.Row (.between (neckOperator neck) front back) tokens ∧
      front.term = head ∧ goals.Reassociated back.term ∧
      Mark.Unbroken names false (header head neck ++ body indent goals ++ fullStop) true
        (renderIn names.nameOf tokens ++ ['.']) := by
  obtain ⟨-, readableHead, readableGoals⟩ := Term.readable_pair.mp readable
  obtain ⟨front, isHead, level, row, text⟩ :=
    Term.exists_row legible one readableHead placed.head.2
  rw [← Goal.term_ofTerm goals] at readableGoals
  obtain ⟨back, backTokens, rowed⟩ := Goal.exists_rowed legible one readableGoals placed.goals
  obtain ⟨known, breaks, line⟩ := neck_table rule
  have tight : (front.level : Int) ≤ 1199 := by
    rw [level]
    exact placed.head.1
  obtain ⟨tokens, whole, shown⟩ := row.exists_breaking rowed.row known breaks tight rowed.level
  refine ⟨front, back, tokens, whole, isHead, ?_, ?_⟩
  · rw [← Goal.term_ofTerm goals]
    exact rowed.alike
  · have lines := (text false).append
      ((Mark.Unbroken.lineEnd line).append (rowed.text true 0 indent (.inl rfl)))
    have point : Text.OneLine ['.'] := by decide
    have stop : Mark.Unbroken names false fullStop true ['.'] := .lineEnd point
    rw [shown]
    exact lines.append stop

variable {bodyIndent : Term} {indent : Int}

/-- A rule is portrayed as the row of a tree, in which its variables are their own positions. -/
theorem exists_portrayed {t : Term} (isRule : t = .compound neck head [goals])
    (rule : neck = ":-" ∨ neck = "-->") (width : indentation bodyIndent = .ok indent)
    (readable : t.Readable) (placed : Placed head goals) :
    ∃ text front back tokens, portray bodyIndent t = .ok text ∧
      text.unbroken = renderIn (Naming.ofTerm (t.rename t.position)).nameOf tokens ++ ['.'] ∧
      Tree.Row (.between (neckOperator neck) front back) tokens ∧
      front.term = head.rename t.position ∧
      (goals.rename t.position).Reassociated back.term := by
  have renamed : t.rename t.position =
      .compound neck (head.rename t.position) [goals.rename t.position] := by
    rw [isRule, Term.rename, Term.renameAll, Term.renameAll]
  have legible : Style.Legible ⟨true, Naming.ofTerm (t.rename t.position)⟩ :=
    ⟨rfl, t.legible_position⟩
  have readable' := readable.rename t.position
  rw [renamed] at readable'
  obtain ⟨front, back, tokens, row, isHead, alike, text, emitted, kept⟩ := exists_row rule legible
    (Naming.oneLine_ofTerm _) readable' (placed.rename t.position) indent
  refine ⟨text, front, back, tokens, ?_, ?_, row, isHead, alike⟩
  · rw [← portray_rename t.apart_position bodyIndent]
    rw [renamed] at emitted ⊢
    exact portray_rule rule width emitted
  · have whole := kept []
    rw [List.append_nil] at whole
    rw [Text.unbroken, whole]
    exact List.append_nil _

variable {neck' : Text} {head' goals' bodyIndent' : Term} {indent' : Int}

/-- Rules whose head and goals are admitted in their places are portrayed, and where the texts are
the same without their line breaks, the rules are the same up to a renaming of variables and the
association of conjunctions. -/
theorem portray_told_apart (rule : neck = ":-" ∨ neck = "-->")
    (rule' : neck' = ":-" ∨ neck' = "-->") (width : indentation bodyIndent = .ok indent)
    (width' : indentation bodyIndent' = .ok indent')
    (readable : (Term.compound neck head [goals]).Readable)
    (readable' : (Term.compound neck' head' [goals']).Readable)
    (placed : Placed head goals) (placed' : Placed head' goals') :
    ∃ text text', portray bodyIndent (.compound neck head [goals]) = .ok text ∧
      portray bodyIndent' (.compound neck' head' [goals']) = .ok text' ∧
      (text.unbroken = text'.unbroken → neck = neck' ∧ ∃ r r',
        (Term.compound neck head [goals]).Apart r ∧ (Term.compound neck' head' [goals']).Apart r' ∧
        head.rename r = head'.rename r' ∧
        (goals.rename r).Reassociated (goals'.rename r')) := by
  obtain ⟨text, front, back, tokens, portrayed, shown, row, isHead, alike⟩ :=
    exists_portrayed rfl rule width readable placed
  obtain ⟨text', front', back', tokens', portrayed', shown', row', isHead', alike'⟩ :=
    exists_portrayed rfl rule' width' readable' placed'
  refine ⟨text, text', portrayed, portrayed', fun same => ?_⟩
  -- the text is read back as tokens, the tokens as a tree, and the tree has the head and the body
  rw [shown, shown'] at same
  have tokens := Token.renderIn_injective (Term.legible_position _) (Term.legible_position _)
    row.spaced.chain row'.spaced.chain (List.append_cancel_right same)
  subst tokens
  have trees := Tree.LaidOut.eq row.formed row'.formed row.laid row'.laid
  rw [Tree.between.injEq] at trees
  obtain ⟨necks, rfl, rfl⟩ := trees
  refine ⟨congrArg BinaryOperator.name necks, _, _, Term.apart_position _, Term.apart_position _,
    isHead.symm.trans isHead', alike.trans alike'.symm⟩

def leftGoals : Term :=
  .compound [','] (.compound [','] (.atom ['a']) [.var 7]) [.atom ['b']]

def rightGoals : Term :=
  .compound [','] (.atom ['a']) [.compound [','] (.var 3) [.atom ['b']]]

theorem portray_told_apart_row :
    let s := Term.compound ":-" (.compound ['h'] (.var 7) []) [leftGoals]
    let t := Term.compound ":-" (.compound ['h'] (.var 3) []) [rightGoals]
    portray (.int 3) s = .ok "h(A) :-\n   a,\n   A,\n   b.\n".toList ∧
      portray (.int 0) t = .ok "h(A) :-\na,\nA,\nb.\n".toList ∧
      ∃ r r', s.Apart r ∧ t.Apart r' ∧
        (Term.compound ['h'] (.var 7) []).rename r = (Term.compound ['h'] (.var 3) []).rename r' ∧
        (leftGoals.rename r).Reassociated (rightGoals.rename r') := by
  intro s t
  have shown : portray (.int 3) s = .ok "h(A) :-\n   a,\n   A,\n   b.\n".toList := by cbv
  have shown' : portray (.int 0) t = .ok "h(A) :-\na,\nA,\nb.\n".toList := by cbv
  have head (n : Nat) : (Term.compound ['h'] (.var n) []).Readable :=
    .compound (by decide) (List.forall_mem_singleton.mpr (.var n))
  have readable : s.Readable := Term.readable_pair.mpr ⟨by decide, head 7, Term.readable_pair.mpr
    ⟨by decide, Term.readable_pair.mpr ⟨by decide, .atom _, .var 7⟩, .atom _⟩⟩
  have readable' : t.Readable := Term.readable_pair.mpr ⟨by decide, head 3, Term.readable_pair.mpr
    ⟨by decide, .atom _, Term.readable_pair.mpr ⟨by decide, .var 3, .atom _⟩⟩⟩
  have placed : Placed (.compound ['h'] (.var 7) []) leftGoals := by
    refine ⟨by decide, ?_⟩
    simp only [leftGoals, Goal.ofTerm, if_true]
    decide
  have placed' : Placed (.compound ['h'] (.var 3) []) rightGoals := by
    refine ⟨by decide, ?_⟩
    simp only [rightGoals, Goal.ofTerm, if_true]
    decide
  have width (n : Int) : indentation (.int n) = .ok n := rfl
  obtain ⟨text, text', portrayed, portrayed', told⟩ := portray_told_apart (.inl rfl) (.inl rfl)
    (width 3) (width 0) readable readable' placed placed'
  rw [shown] at portrayed
  rw [shown'] at portrayed'
  cases portrayed
  cases portrayed'
  exact ⟨shown, shown', (told (by decide)).2⟩

/-- An arrow beside a comma, where it is not admitted. -/
def arrowFirst : Term :=
  .compound [','] (.compound "->" (.atom ['a']) [.atom ['b']]) [.atom ['c']]

def arrowLast : Term :=
  .compound "->" (.atom ['a']) [.compound [','] (.atom ['b']) [.atom ['c']]]

/-- No brackets are put around an arrow beside a comma, and the rule is taken for another. -/
theorem portray_confused :
    (Term.compound ":-" (.atom ['h']) [arrowFirst]).Readable ∧
      (Term.compound ":-" (.atom ['h']) [arrowLast]).Readable ∧
      portray standardIndent (.compound ":-" (.atom ['h']) [arrowFirst]) =
        .ok "h :-\n   a->b,\n   c.\n".toList ∧
      portray standardIndent (.compound ":-" (.atom ['h']) [arrowLast]) =
        .ok "h :-\n   a->b,c.\n".toList ∧
      Text.unbroken "h :-\n   a->b,\n   c.\n".toList =
        Text.unbroken "h :-\n   a->b,c.\n".toList ∧
      ∀ r r', ¬ (arrowFirst.rename r).Reassociated (arrowLast.rename r') := by
  refine ⟨?_, ?_, portray_rule (.inl rfl) rfl ?_, portray_rule (.inl rfl) rfl ?_, by decide,
    fun r r' alike => ?_⟩
  · exact Term.readable_pair.mpr ⟨by decide, .atom _, Term.readable_pair.mpr
      ⟨by decide, Term.readable_pair.mpr ⟨by decide, .atom _, .atom _⟩, .atom _⟩⟩
  · exact Term.readable_pair.mpr ⟨by decide, .atom _, Term.readable_pair.mpr
      ⟨by decide, .atom _, Term.readable_pair.mpr ⟨by decide, .atom _, .atom _⟩⟩⟩
  · have ground : Naming.ofTerm (.compound ":-" (.atom ['h']) [arrowFirst]) = [] := by cbv
    have layout : body 3 arrowFirst = [.indent 0 3, .term (.compound "->" (.atom ['a'])
        [.atom ['b']]), .chars ",\n", .indent 0 3, .term (.atom ['c'])] := by
      simp [body, arrowFirst, Goal.ofTerm, Goal.layout]
    rw [ground, layout]
    simp only [header, fullStop, List.cons_append, List.nil_append, Mark.emitAll,
      Mark.emission_indent]
    rfl
  · have ground : Naming.ofTerm (.compound ":-" (.atom ['h']) [arrowLast]) = [] := by cbv
    have layout : body 3 arrowLast = [.indent 0 3, .term arrowLast] := by
      simp [body, arrowLast, Goal.ofTerm, Goal.layout]
    rw [ground, layout]
    simp only [header, fullStop, List.cons_append, List.nil_append, Mark.emitAll,
      Mark.emission_indent]
    rfl
  · have functors := alike.functor
    rw [Term.functor?_rename, Term.functor?_rename] at functors
    exact absurd functors (by decide)

end LogicFormat.Clause
