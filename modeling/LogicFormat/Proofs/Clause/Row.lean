import LogicFormat.Clause.Printer
import LogicFormat.Proofs.Clause.Association
import LogicFormat.Proofs.Clause.Page
import LogicFormat.Proofs.Notation.Connective
import LogicFormat.Proofs.Term.Controls
import LogicFormat.Proofs.Text.Lines

/-!
# Bodies without line breaks

Without its line breaks, the layout of a body is a row of tokens, and where every goal is admitted
in its place, they are the tokens of a tree. The tree is that of the body, up to the association of
conjunctions.
-/

namespace LogicFormat

open Clause (opening alternative lastBranch)
open Token (renderIn Spaced)

theorem Token.Spaced.exists_start {names : Nat → Text} {tokens : List Token}
    (h : Spaced tokens) (legible : Naming.Legible names) :
    ∃ c rest, renderIn names tokens = c :: rest ∧ c ≠ ' ' := by
  obtain ⟨t, ts, rfl⟩ := List.exists_cons_of_ne_nil h.nonempty
  have scanned := scan_renderIn legible h.chain
  rcases text : renderIn names (t :: ts) with _ | ⟨c, rest⟩
  · rw [text] at scanned
    exact nomatch scanned
  · refine ⟨c, rest, rfl, ?_⟩
    rintro rfl
    have blank : scan (' ' :: rest) = some (.blank, rest) := rfl
    rw [text, blank] at scanned
    cases scanned
    exact nomatch h.first .blank rfl

variable {names : Naming} {behind middle after : Bool} {mark : Mark} {marks others : List Mark}
  {shown shown' line : Text} {column target bound : Int}

namespace Mark

/-- The marks put a text on the page that is `shown` when it has no line breaks. Whether the page is
behind a line break is known before and after. -/
def Unbroken (names : Naming) (behind : Bool) (marks : List Mark) (after : Bool) (shown : Text) :
    Prop :=
  ∃ text, emitAll names marks = .ofText text ∧
    ∀ rest, Text.unbrokenFrom behind (text ++ rest) = shown ++ Text.unbrokenFrom after rest

namespace Unbroken

theorem append (h : Unbroken names behind marks middle shown)
    (h' : Unbroken names middle others after shown') :
    Unbroken names behind (marks ++ others) after (shown ++ shown') := by
  obtain ⟨text, emitted, kept⟩ := h
  obtain ⟨text', emitted', kept'⟩ := h'
  refine ⟨text ++ text', ?_, fun rest => ?_⟩
  · rw [emitAll_append, emitted, emitted']
    rfl
  · rw [List.append_assoc, kept, kept', List.append_assoc]

/-- An indentation is a part of the line break before it, or nothing at all. -/
theorem indent (fits : behind = true ∨ column = target) :
    Unbroken names behind [.indent column target] behind [] := by
  refine ⟨List.replicate (target - column).toNat ' ', ?_, fun rest => ?_⟩
  · rw [emitAll_cons, emission_indent, emitAll_nil]
    exact congrArg Emission.ofText (List.append_nil _)
  · rcases fits with rfl | rfl
    · exact Text.unbrokenFrom_blanks _ rest
    · rw [Int.sub_self]
      rfl

theorem lineEnd (one : Text.OneLine line) :
    Unbroken names false [.chars (line ++ ['\n'])] true line := by
  refine ⟨line ++ ['\n'], congrArg Emission.ofText (List.append_nil _), fun rest => ?_⟩
  rw [List.append_assoc, Text.unbrokenFrom_line one]
  rfl

theorem single {c : Char} (emits : mark.emission names = .ofText (c :: line))
    (one : Text.OneLine (c :: line)) (start : c ≠ ' ') :
    Unbroken names behind [mark] false (c :: line) := by
  refine ⟨c :: line, ?_, Text.unbrokenFrom_start one start behind⟩
  rw [emitAll_cons, emits]
  exact congrArg Emission.ofText (List.append_nil _)

theorem brackets (fits : behind = true ∨ column = target)
    (first : Unbroken names false marks false shown)
    (second : Unbroken names false others false shown') :
    Unbroken names behind
      ([.indent column target, .chars opening] ++ marks
        ++ .chars ['\n'] :: lastBranch others target)
      false (opening ++ shown ++ (alternative ++ shown' ++ [')'])) := by
  have opened : Unbroken names behind [.indent column target, .chars opening] false opening :=
    (indent fits).append (single rfl (by decide) (by decide))
  have turned : Unbroken names true [.indent 0 target, .chars alternative] false alternative :=
    (indent (.inl rfl)).append (single rfl (by decide) (by decide))
  have closed : Unbroken names true [.indent 0 target, .chars [')']] false [')'] :=
    (indent (.inl rfl)).append (single rfl (by decide) (by decide))
  have ended : Unbroken names false [.chars ['\n']] true [] := lineEnd Text.oneLine_nil
  exact (opened.append first).append (ended.append ((turned.append second).append
    (ended.append closed)))

end Unbroken

end Mark

namespace Tree.Row

variable {l r : Tree} {ts us : List Token}

theorem conjoin (left : Row l ts) (right : Row r us) (leftTight : (l.level : Int) ≤ 1000)
    (rightTight : (r.level : Int) ≤ 1000) : Row (l.conjoin r) (ts ++ .comma :: us) where
  formed := conjoin_formed left.formed right.formed ⟨leftTight, left.plain⟩
    ⟨rightTight, right.plain⟩
  plain := isOperator_conjoin l r
  laid := by
    rw [symbols_conjoin]
    exact left.laid.append (operands_plain left.formed left.plain) Operator.conjunction_known
      (by decide) (.spaced 0 0) right.laid
  spaced := left.spaced.joined rfl rfl right.spaced

def branches (ts us : List Token) : List Token :=
  .parenOpen :: .blank :: .blank ::
    ((ts ++ .atom [';'] :: .blank :: .blank :: us) ++ [.parenClose])

theorem renderIn_branches (names : Nat → Text) (ts us : List Token) :
    renderIn names (branches ts us) =
      opening ++ renderIn names ts ++ (alternative ++ renderIn names us ++ [')']) := by
  have semicolon : Atom.quoted [';'] = [';'] := by decide
  simp [branches, Token.textIn, Token.text, semicolon, opening, alternative]

theorem choice (left : Row l ts) (right : Row r us) (leftTight : (l.level : Int) ≤ 1099)
    (rightTight : (r.level : Int) ≤ 1100) :
    Row (.bracketed (.between Operator.disjunction l r)) (branches ts us) :=
  .bracketed (left.between right Operator.disjunction_known leftTight rightTight (.spaced 0 2)
    (left.spaced.alternative right.spaced))

end Tree.Row

/-- A term that is no bare operator is written as a row. -/
theorem Term.exists_row (legible : Style.Legible ⟨true, names⟩) (one : Style.OneLine ⟨true, names⟩)
    {t : Term} (readable : t.Readable) (plain : t.isOperator = false) :
    ∃ tree : Tree, tree.term = t ∧ tree.level = t.level ∧ tree.Row tree.tokens ∧
      ∀ behind, Mark.Unbroken names behind [.term t] false
        (renderIn names.nameOf tree.tokens) := by
  obtain ⟨tree, phrase, written⟩ := exists_writtenIn legible readable
  obtain ⟨isTerm, isPhrase, notates⟩ := id written
  obtain ⟨level, operator⟩ := level_phrase isPhrase
  have row : tree.Row tree.tokens := by
    refine .solid notates.formed ?_
    rw [← notates.isOperator, operator, plain]
  refine ⟨tree, isTerm, notates.level.symm.trans level, row, fun behind => ?_⟩
  have text := write_of_writtenIn written
  obtain ⟨c, rest, starts, start⟩ := row.spaced.exists_start legible.names
  rw [starts] at text ⊢
  exact .single (Mark.emission_term text) (oneLine_write one text) start

namespace Goal

/-- A row of tokens that a goal is laid out as, and the tree that it is the row of. Conjunctions are
admitted in every place, as nothing is put around them in a row. -/
structure Rowed (names : Naming) (bound : Int) (goal : Goal) (tree : Tree) (tokens : List Token) :
    Prop where
  row : tree.Row tokens
  level : tree.level ≤ max bound 1000
  alike : goal.term.Reassociated tree.term
  text : ∀ behind column target, behind = true ∨ column = target →
    Mark.Unbroken names behind (goal.layout column target) false (renderIn names.nameOf tokens)

namespace Rowed

variable {first second third : Goal} {l r e : Tree} {ts us vs : List Token}

theorem literal (legible : Style.Legible ⟨true, names⟩) (one : Style.OneLine ⟨true, names⟩)
    {t : Term} (readable : t.Readable) (places : (Goal.literal t).Places bound) :
    ∃ tree tokens, Rowed names bound (.literal t) tree tokens := by
  obtain ⟨tree, isTerm, level, row, text⟩ := Term.exists_row legible one readable places.2
  refine ⟨tree, tree.tokens, row, ?_, ?_, fun behind column target fits => ?_⟩
  · rw [level]
    exact Int.le_trans places.1 (Int.le_max_left ..)
  · rw [Goal.term, isTerm]
    exact .refl t
  · exact (Mark.Unbroken.indent fits).append (text behind)

theorem both (left : Rowed names 999 first l ts) (right : Rowed names 1000 second r us) :
    ∃ tree tokens, Rowed names bound (.both first second) tree tokens := by
  refine ⟨l.conjoin r, ts ++ .comma :: us, ?_, ?_, ?_, fun behind column target fits => ?_⟩
  · exact left.row.conjoin right.row left.level right.level
  · rw [Tree.level_conjoin]
    exact Int.le_max_right ..
  · exact .trans (.both left.alike right.alike) (Tree.term_conjoin l r)
  · have comma : Text.OneLine [','] := by decide
    rw [Token.renderIn_append]
    exact (left.text behind column target fits).append
      ((Mark.Unbroken.lineEnd comma).append (right.text true 0 target (.inl rfl)))

theorem either (left : Rowed names 1099 first l ts) (right : Rowed names 1100 second r us) :
    ∃ tree tokens, Rowed names bound (.either first second) tree tokens := by
  refine ⟨_, _, left.row.choice right.row left.level right.level, ?_,
    .either left.alike right.alike, fun behind column target fits => ?_⟩
  · have nested : (0 : Int) ≤ max bound 1000 := by omega
    exact nested
  · let inner := target + opening.length
    rw [Tree.Row.renderIn_branches]
    exact .brackets fits (left.text false inner inner (.inr rfl))
      (right.text false inner inner (.inr rfl))

theorem conditional (condition : Rowed names 1049 first l ts)
    (consequence : Rowed names 1050 second r us) (other : Rowed names 1100 third e vs) :
    ∃ tree tokens, Rowed names bound (.conditional first second third) tree tokens := by
  have arrow : Operator.implication.name ∈ Operator.lineBreaking := by decide
  obtain ⟨arrowed, row, shown⟩ := condition.row.exists_breaking consequence.row
    Operator.implication_known arrow condition.level consequence.level
  have tight : (Operator.implication.level : Int) ≤ 1099 := by decide
  refine ⟨_, _, row.choice other.row tight other.level, ?_,
    .conditional condition.alike consequence.alike other.alike, fun behind column target fits => ?_⟩
  · have nested : (0 : Int) ≤ max bound 1000 := by omega
    exact nested
  · let inner := target + opening.length
    have line : Text.OneLine " ->" := by decide
    have first := (condition.text false inner inner (.inr rfl)).append
      ((Mark.Unbroken.lineEnd line).append (consequence.text true 0 inner (.inl rfl)))
    rw [Tree.Row.renderIn_branches, shown, Goal.layout, List.append_assoc [_, _]]
    exact first.brackets fits (other.text false inner inner (.inr rfl))

end Rowed

/-- Where all its goals are admitted in their places, a body is a row. -/
theorem exists_rowed (legible : Style.Legible ⟨true, names⟩) (one : Style.OneLine ⟨true, names⟩)
    {goal : Goal} (readable : goal.term.Readable) (places : goal.Places bound) :
    ∃ tree tokens, Rowed names bound goal tree tokens := by
  induction goal generalizing bound with
  | literal t => exact Rowed.literal legible one readable places
  | both first second ihFirst ihSecond =>
      obtain ⟨-, readableFirst, readableSecond⟩ := Term.readable_pair.mp readable
      obtain ⟨l, ts, left⟩ := ihFirst readableFirst places.1
      obtain ⟨r, us, right⟩ := ihSecond readableSecond places.2
      exact left.both right
  | either first second ihFirst ihSecond =>
      obtain ⟨-, readableFirst, readableSecond⟩ := Term.readable_pair.mp readable
      obtain ⟨l, ts, left⟩ := ihFirst readableFirst places.1
      obtain ⟨r, us, right⟩ := ihSecond readableSecond places.2
      exact left.either right
  | conditional condition consequence other ihCondition ihConsequence ihOther =>
      obtain ⟨-, readableArrow, readableOther⟩ := Term.readable_pair.mp readable
      obtain ⟨-, readableCondition, readableConsequence⟩ := Term.readable_pair.mp readableArrow
      obtain ⟨l, ts, left⟩ := ihCondition readableCondition places.1
      obtain ⟨r, us, right⟩ := ihConsequence readableConsequence places.2.1
      obtain ⟨e, vs, last⟩ := ihOther readableOther places.2.2
      exact left.conditional right last

end Goal

end LogicFormat
