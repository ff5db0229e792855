import LogicFormat.Proofs.Clause.Shown
import LogicFormat.Proofs.Term.Controls
import Mathlib.Data.List.Basic

/-!
# Line breaks of clauses

A newline of a clause is put on the page by its layout: one behind the neck of a rule, one behind
every comma, two or three within the brackets around branches, and one behind the full stop. None
comes from a term, which holds no control character once it is written.
-/

namespace LogicFormat

/-- How many lines are broken within the layout of a body. -/
def Term.lineBreaks : Term → Nat
  | .compound [','] first [second] => first.lineBreaks + 1 + second.lineBreaks
  | .compound [';'] (.compound ['-', '>'] condition [consequence]) [other] =>
      condition.lineBreaks + consequence.lineBreaks + other.lineBreaks + 3
  | .compound [';'] first [second] => first.lineBreaks + second.lineBreaks + 2
  | _ => 0

def Clause.lines : Term → Nat
  | .compound neck _ [goals] => if neck = ":-" ∨ neck = "-->" then 2 + goals.lineBreaks else 1
  | _ => 1

namespace Mark

def newlines (names : Naming) (marks : List Mark) : Nat :=
  (marks.flatMap (shown names)).count '\n'

variable {names : Naming}

@[simp] theorem newlines_nil (names : Naming) : newlines names [] = 0 := rfl

@[simp] theorem newlines_append (names : Naming) (first second : List Mark) :
    newlines names (first ++ second) = newlines names first + newlines names second := by
  rw [newlines, List.flatMap_append, List.count_append, newlines, newlines]

@[simp] theorem newlines_chars (names : Naming) (text : Text) (rest : List Mark) :
    newlines names (.chars text :: rest) = text.count '\n' + newlines names rest := by
  rw [newlines, List.flatMap_cons, List.count_append, shown_chars, newlines]

@[simp] theorem newlines_indent (names : Naming) (column target : Int) (rest : List Mark) :
    newlines names (.indent column target :: rest) = newlines names rest := by
  have blanks : ((indent column target).shown names).count '\n' = 0 := by
    rw [shown_indent, List.count_replicate]
    rfl
  rw [newlines, List.flatMap_cons, List.count_append, blanks, Nat.zero_add, newlines]

theorem newlines_term (one : Style.OneLine ⟨true, names⟩) {t : Term}
    (writable : .null ∉ t.preorder) (rest : List Mark) :
    newlines names (.term t :: rest) = newlines names rest := by
  have line : ((term t).shown names).count '\n' = 0 :=
    List.count_eq_zero.mpr (Term.oneLine_write one (write_shown names writable))
  rw [newlines, List.flatMap_cons, List.count_append, line, Nat.zero_add, newlines]

end Mark

variable {names : Naming}

theorem Clause.newlines_lastBranch (branch : List Mark) (target : Int) :
    Mark.newlines names (lastBranch branch target) = Mark.newlines names branch + 1 := by
  simp [lastBranch, alternative]

/-- Neither terms nor blanks break a line, so the layout breaks as many as it is asked to. -/
theorem Goal.newlines_layout (one : Style.OneLine ⟨true, names⟩) (t : Term)
    (writable : .null ∉ t.preorder) (column target : Int) :
    Mark.newlines names ((ofTerm t).layout column target) = t.lineBreaks := by
  induction t using Term.lineBreaks.induct generalizing column target with
  | case1 first second ihFirst ihSecond =>
      rw [Term.null_not_mem_pair] at writable
      simp [ofTerm_both, layout, Term.lineBreaks, ihFirst writable.1, ihSecond writable.2]
      omega
  | case2 condition consequence other ihCondition ihConsequence ihOther =>
      rw [Term.null_not_mem_pair, Term.null_not_mem_pair] at writable
      obtain ⟨⟨writableCondition, writableConsequence⟩, writableOther⟩ := writable
      simp [ofTerm_conditional, layout, Clause.newlines_lastBranch, Clause.opening,
        Term.lineBreaks, ihCondition writableCondition, ihConsequence writableConsequence,
        ihOther writableOther]
      omega
  | case3 first second plain ihFirst ihSecond =>
      rw [Term.null_not_mem_pair] at writable
      simp [ofTerm_either plain, layout, Clause.newlines_lastBranch, Clause.opening,
        Term.lineBreaks, ihFirst writable.1, ihSecond writable.2]
      omega
  | case4 t notBoth notConditional notEither =>
      rw [ofTerm_literal notBoth notEither, layout, Term.lineBreaks]
      · rw [Mark.newlines_indent, Mark.newlines_term one writable, Mark.newlines_nil]
      · exact notBoth
      · exact notConditional
      · exact notEither

namespace Clause

theorem lines_rule {neck : Text} (rule : neck = ":-" ∨ neck = "-->") (head goals : Term) :
    lines (.compound neck head [goals]) = 2 + goals.lineBreaks := if_pos rule

theorem lines_of_parts?_eq_none {t : Term} (plain : parts? t = none) : lines t = 1 := by
  unfold lines
  split
  · next neck head goals =>
      refine if_neg fun rule => ?_
      rw [parts?_rule rule] at plain
      cases plain
  · rfl

theorem newlines_marks (one : Style.OneLine ⟨true, names⟩) {t : Term}
    (writable : .null ∉ t.preorder) (indent : Int) :
    Mark.newlines names (marks indent t ++ fullStop) = lines t := by
  rcases parts : parts? t with _ | ⟨head, neck, goals⟩
  · rw [lines_of_parts?_eq_none parts, marks, parts]
    dsimp only
    rw [List.singleton_append, Mark.newlines_term one writable]
    rfl
  · have rule := rule_of_parts? parts
    have isRule := eq_of_parts? parts
    subst isRule
    rw [Term.null_not_mem_pair] at writable
    have line : neck.count '\n' = 0 := by
      rcases rule with rfl | rfl <;> rfl
    rw [lines_rule rule, marks, parts]
    dsimp only
    rw [header, body, List.cons_append, List.cons_append, Mark.newlines_term one writable.1]
    simp [fullStop, line, Goal.newlines_layout one goals writable.2]
    omega

/-- A quoted term holds no control character, and a clause has as many lines as its connectives ask
for, whatever the indentation. -/
theorem portray_lineBreaks {t : Term} (writable : .null ∉ t.subterms) :
    (∃ text, t.write ⟨true, []⟩ = .ok text ∧ Text.Free Text.isControl text) ∧
    ∀ indent : Int, ∃ text, portray (.int indent) t = .ok text ∧ text.count '\n' = lines t := by
  have nowhere := mt Term.mem_subterms.mpr writable
  have plain : Style.Free Text.isControl ⟨true, []⟩ := ⟨rfl, Naming.regular_nil.free⟩
  obtain ⟨text, written⟩ := Term.exists_write ⟨true, []⟩ nowhere
  refine ⟨⟨text, written, Term.free_write (fun _ => id) plain written⟩, fun indent => ?_⟩
  exact ⟨_, portray_shown writable indent,
    newlines_marks (Naming.oneLine_ofTerm t) nowhere indent⟩

def escapedRule : Term :=
  .compound ":-" (.compound ['h'] (.atom ['\n']) [])
    [.compound [','] (.compound [';']
      (.compound "->" (.atom ['\n', 'b']) [.list [.atom ['\t']]]) [.atom ['c']]) [.atom ['d']]]

theorem portray_lineBreaks_escaped :
    portray (.int 3) escapedRule =
        .ok "h('\\n') :-\n   (  '\\nb' ->\n      \"\\t\"\n   ;  c\n   ),\n   d.\n".toList ∧
      lines escapedRule = 6 ∧
      (∃ text, escapedRule.write ⟨true, []⟩ = .ok text ∧ Text.Free Text.isControl text) ∧
      ∃ text, portray (.int (-7)) escapedRule = .ok text ∧
        text.count '\n' = lines escapedRule := by
  have writable : .null ∉ escapedRule.subterms := by
    rw [Term.mem_subterms]
    decide
  refine ⟨by decide +kernel, by decide +kernel, ?_⟩
  exact ⟨(portray_lineBreaks writable).1, (portray_lineBreaks writable).2 (-7)⟩

end Clause

end LogicFormat
