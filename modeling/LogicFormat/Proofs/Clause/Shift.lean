import LogicFormat.Proofs.Clause.Shown
import LogicFormat.Proofs.Term.Controls
import Mathlib.Data.List.Basic

/-!
# Shifted bodies

A body that is indented further is the same body with more blanks in front of each line. Two layouts
are compared that start a given number of columns apart and belong `k` columns apart.
-/

namespace LogicFormat

namespace Text

/-- `k` blanks in front of every line but the first. A newline at the end starts no line. -/
def shiftLines (k : Nat) : Text → Text
  | [] => []
  | c :: rest =>
      if c = '\n' ∧ rest ≠ [] then '\n' :: (List.replicate k ' ' ++ shiftLines k rest)
      else c :: shiftLines k rest

/-- `k` blanks behind every newline, so that what follows the text is shifted as well. -/
def indented (k : Nat) (text : Text) : Text :=
  text.flatMap fun c => if c = '\n' then '\n' :: List.replicate k ' ' else [c]

variable {k : Nat} {first second text : Text}

theorem indented_append : indented k (first ++ second) = indented k first ++ indented k second :=
  List.flatMap_append

theorem indented_oneLine (one : OneLine text) : indented k text = text := by
  induction text with
  | nil => rfl
  | cons c text ih =>
      rw [oneLine_cons] at one
      rw [indented, List.flatMap_cons, if_neg one.1.symm]
      exact congrArg (c :: ·) (ih one.2)

theorem indented_newline : indented k ['\n'] = '\n' :: List.replicate k ' ' := List.append_nil _

theorem shiftLines_concat (k : Nat) (text : Text) :
    shiftLines k (text ++ ['\n']) = indented k text ++ ['\n'] := by
  induction text with
  | nil => rfl
  | cons c text ih =>
      rw [List.cons_append, shiftLines, ih]
      by_cases newline : c = '\n' <;> simp [newline, indented]

end Text

namespace Mark

/-- The second list of marks shows what the first does, `lead` columns further to the right at
first and `k` columns on every later line. -/
def Shifted (names : Naming) (k lead : Nat) (marks marks' : List Mark) : Prop :=
  marks'.flatMap (shown names) =
    List.replicate lead ' ' ++ Text.indented k (marks.flatMap (shown names))

namespace Shifted

variable {names : Naming} {k lead : Nat} {marks marks' others others' : List Mark}

theorem append (first : Shifted names k lead marks marks')
    (second : Shifted names k 0 others others') :
    Shifted names k lead (marks ++ others) (marks' ++ others') := by
  rw [Shifted, List.flatMap_append, List.flatMap_append, Text.indented_append, first, second]
  exact List.append_assoc _ _ _

theorem chars {text : Text} (one : Text.OneLine text) :
    Shifted names k 0 [.chars text] [.chars text] := by
  rw [Shifted, List.flatMap_singleton, shown_chars, Text.indented_oneLine one]
  rfl

theorem term (one : Style.OneLine ⟨true, names⟩) {t : Term} (writable : .null ∉ t.preorder) :
    Shifted names k 0 [.term t] [.term t] := by
  have line := Term.oneLine_write one (write_shown names writable)
  rw [Shifted, List.flatMap_singleton, Text.indented_oneLine line]
  rfl

/-- Wherever the lines before stand, the next one is shifted by `k` columns. -/
theorem joined (line : Text) (one : Text.OneLine line) (first : Shifted names k lead marks marks')
    (second : Shifted names k k others others') :
    Shifted names k lead (marks ++ .chars (line ++ ['\n']) :: others)
      (marks' ++ .chars (line ++ ['\n']) :: others') := by
  rw [Shifted, List.flatMap_append, List.flatMap_append, List.flatMap_cons, List.flatMap_cons,
    shown_chars, Text.indented_append, Text.indented_append, Text.indented_append,
    Text.indented_oneLine one, Text.indented_newline, first, second]
  simp

/-- Blanks up to a column `k` further on make up for the columns that the marks start behind. -/
theorem indent {column column' target : Int} (room : column ≤ target)
    (behind : column' + lead = column + k) (rest : Shifted names k 0 marks marks') :
    Shifted names k lead (.indent column target :: marks)
      (.indent column' (target + k) :: marks') := by
  have one : Text.OneLine (List.replicate (target - column).toNat ' ') := fun newline =>
    absurd (List.eq_of_mem_replicate newline) (by decide)
  have width : (target + k - column').toNat = lead + (target - column).toNat := by omega
  rw [Shifted, List.flatMap_cons, List.flatMap_cons, shown_indent, shown_indent, width,
    Text.indented_append, Text.indented_oneLine one, rest, ← List.replicate_append_replicate]
  exact List.append_assoc _ _ _

theorem lastBranch {target : Int} (margin : 0 ≤ target)
    (branch : Shifted names k 0 marks marks') :
    Shifted names k k (Clause.lastBranch marks target)
      (Clause.lastBranch marks' (target + k)) := by
  have start : (0 : Int) + k = 0 + k := rfl
  have closing : Shifted names k k [.indent 0 target, .chars [')']]
      [.indent 0 (target + k), .chars [')']] :=
    .indent margin start (.chars (by decide))
  have alternative : Shifted names k k [.indent 0 target, .chars Clause.alternative]
      [.indent 0 (target + k), .chars Clause.alternative] :=
    .indent margin start (.chars (by decide))
  exact joined [] Text.oneLine_nil (alternative.append branch) closing

theorem brackets {column column' target : Int} (room : column ≤ target) (margin : 0 ≤ target)
    (behind : column' + lead = column + k) (first : Shifted names k 0 marks marks')
    (second : Shifted names k 0 others others') :
    Shifted names k lead
      ([.indent column target, .chars Clause.opening] ++ marks
        ++ .chars ['\n'] :: Clause.lastBranch others target)
      ([.indent column' (target + k), .chars Clause.opening] ++ marks'
        ++ .chars ['\n'] :: Clause.lastBranch others' (target + k)) := by
  have opening : Shifted names k lead [.indent column target, .chars Clause.opening]
      [.indent column' (target + k), .chars Clause.opening] :=
    .indent room behind (.chars (by decide))
  exact joined [] Text.oneLine_nil (opening.append first) (second.lastBranch margin)

end Shifted

end Mark

variable {names : Naming} {k : Nat}

/-- The indentation is added to and passed on, as a target and as a column, and both layouts do the
same with it. -/
theorem Goal.shifted_layout (one : Style.OneLine ⟨true, names⟩) (goal : Goal)
    (writable : .null ∉ goal.term.preorder) {column column' target : Int} {lead : Nat}
    (room : column ≤ target) (margin : 0 ≤ target) (behind : column' + lead = column + k) :
    Mark.Shifted names k lead (goal.layout column target) (goal.layout column' (target + k)) := by
  have inner (target : Int) :
      target + k + Clause.opening.length = target + Clause.opening.length + k :=
    Int.add_right_comm _ _ _
  induction goal generalizing column column' target lead with
  | literal t => exact .indent room behind (.term one writable)
  | both first second ihFirst ihSecond =>
      rw [term, Term.null_not_mem_pair] at writable
      exact .joined [','] (by decide) (ihFirst writable.1 room margin behind)
        (ihSecond writable.2 margin margin rfl)
  | either first second ihFirst ihSecond =>
      rw [term, Term.null_not_mem_pair] at writable
      have further : 0 ≤ target + Clause.opening.length := Int.add_nonneg margin (by decide)
      rw [layout, layout, inner]
      exact .brackets room margin behind (ihFirst writable.1 (Int.le_refl _) further (by simp))
        (ihSecond writable.2 (Int.le_refl _) further (by simp))
  | conditional condition consequence other ihCondition ihConsequence ihOther =>
      rw [term, Term.null_not_mem_pair, Term.null_not_mem_pair] at writable
      obtain ⟨⟨writableCondition, writableConsequence⟩, writableOther⟩ := writable
      have further : 0 ≤ target + Clause.opening.length := Int.add_nonneg margin (by decide)
      rw [layout, layout, inner, List.append_assoc [_, _], List.append_assoc [_, _]]
      refine .brackets room margin behind ?_
        (ihOther writableOther (Int.le_refl _) further (by simp))
      exact .joined " ->" (by decide)
        (ihCondition writableCondition (Int.le_refl _) further (by simp))
        (ihConsequence writableConsequence further further rfl)

namespace Clause

variable {head goals : Term} {neck : Text}

/-- A rule starts at the margin, so that its head stands where it did. -/
theorem shifted_rule (one : Style.OneLine ⟨true, names⟩) (rule : neck = ":-" ∨ neck = "-->")
    (writable : .null ∉ (Term.compound neck head [goals]).preorder) (m : Nat) :
    Mark.Shifted names k 0 (marks m (.compound neck head [goals]))
      (marks (m + k) (.compound neck head [goals])) := by
  rw [Term.null_not_mem_pair] at writable
  have line : Text.OneLine (' ' :: neck) := by
    rcases rule with rfl | rfl <;> decide
  have below : .null ∉ (Goal.ofTerm goals).term.preorder := by
    rw [Goal.term_ofTerm]
    exact writable.2
  have margin : (0 : Int) ≤ m := Int.natCast_nonneg m
  rw [marks, marks, parts?_rule rule]
  exact .joined (' ' :: neck) line (.term one writable.1)
    (Goal.shifted_layout one _ below margin margin rfl)

/-- Indenting the body of a rule `k` columns further puts `k` blanks in front of every line but the
first. -/
theorem portray_shift (rule : neck = ":-" ∨ neck = "-->")
    (writable : .null ∉ (Term.compound neck head [goals]).subterms) (m k : Nat) :
    ∃ text, portray (.int m) (.compound neck head [goals]) = .ok text ∧
      portray (.int (m + k)) (.compound neck head [goals]) = .ok (text.shiftLines k) := by
  let names := Naming.ofTerm (.compound neck head [goals])
  have ended (marks : List Mark) : (marks ++ fullStop).flatMap (Mark.shown names) =
      marks.flatMap (Mark.shown names) ++ ['.'] ++ ['\n'] := by
    simp [fullStop]
  have stop : Text.OneLine ['.'] := by decide
  have shifted := shifted_rule (k := k) (Naming.oneLine_ofTerm (.compound neck head [goals])) rule
    (mt Term.mem_subterms.mpr writable) m
  refine ⟨_, portray_shown writable m,
    (portray_shown writable (m + k)).trans (congrArg Except.ok ?_)⟩
  rw [ended, ended, Text.shiftLines_concat, Text.indented_append,
    Text.indented_oneLine stop, shifted]
  rfl

def branchingRule : Term :=
  .compound "-->" (.atom ['s'])
    [.compound [';'] (.compound "->" (.atom ['a']) [.atom ['b']])
      [.compound [';'] (.atom ['c']) [.atom ['d']]]]

theorem portray_shift_branching :
    portray (.int 1) branchingRule =
        .ok "s -->\n (  a ->\n    b\n ;  (  c\n    ;  d\n    )\n ).\n".toList ∧
      ∃ text, portray (.int 1) branchingRule = .ok text ∧
        portray (.int 3) branchingRule = .ok (text.shiftLines 2) := by
  have writable : .null ∉ branchingRule.subterms := by
    rw [Term.mem_subterms]
    decide
  exact ⟨by decide +kernel, portray_shift (.inr rfl) writable 1 2⟩

end Clause

end LogicFormat
