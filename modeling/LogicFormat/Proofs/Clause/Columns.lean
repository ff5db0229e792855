import LogicFormat.Proofs.Clause.Outline
import Mathlib

/-!
# Clauses in columns

A rule is written as its head and its neck on one line and the outline of its body below. Whatever
is laid out from a column is laid out when the page stands there.
-/

namespace LogicFormat

theorem Goal.layout_eq_cons (goal : Goal) (column target : Int) :
    ∃ rest, goal.layout column target = .indent column target :: rest := by
  induction goal generalizing column target with
  | literal t => exact ⟨_, rfl⟩
  | both first second ihFirst _ =>
      obtain ⟨rest, starts⟩ := ihFirst column target
      exact ⟨_, by rw [layout, starts]; rfl⟩
  | either first second => exact ⟨_, rfl⟩
  | conditional condition consequence other => exact ⟨_, rfl⟩

namespace Clause

variable {names : Naming} {bodyIndent head goals : Term} {neck : Text} {indent : Nat}

theorem emission_rule {indent : Int} (rule : neck = ":-" ∨ neck = "-->")
    (width : indentation bodyIndent = .ok indent) :
    emission names bodyIndent (.compound neck head [goals]) =
      Mark.emitAll names (header head neck ++ body indent goals ++ fullStop) := by
  rw [emission, parts?_rule rule]
  dsimp only
  rw [width]

theorem portray_rule {indent : Int} {text : Text} (rule : neck = ":-" ∨ neck = "-->")
    (width : indentation bodyIndent = .ok indent)
    (emitted : Mark.emitAll (.ofTerm (.compound neck head [goals]))
      (header head neck ++ body indent goals ++ fullStop) = .ofText text) :
    portray bodyIndent (.compound neck head [goals]) = .ok text := by
  rw [portray, emission_rule rule width, emitted]
  rfl

/-- The marks of a rule put its head and neck, the outline of its body and a full stop on an empty
page. -/
theorem filled_rule (one : Style.OneLine ⟨true, names⟩) (writableHead : .null ∉ head.preorder)
    (writableGoals : .null ∉ goals.preorder) (neck : Text) (indent : Nat) :
    ∃ headText page, head.write ⟨true, names⟩ = .ok headText ∧
      Filled (Entry.Stands names indent) (goals.outline 0)
        (headText ++ ' ' :: neck ++ ['\n']) page ∧
      Filled (Mark.Puts names) (header head neck ++ body indent goals ++ fullStop) []
        (page ++ ".\n") := by
  obtain ⟨headText, written⟩ := Term.exists_write ⟨true, names⟩ writableHead
  have first : Filled (Mark.Puts names) (header head neck) []
      (headText ++ ' ' :: neck ++ ['\n']) := by
    rw [List.append_assoc]
    exact .cons (Mark.puts_term written) (.single (Mark.puts_chars _))
  have margin : ((headText ++ ' ' :: neck ++ ['\n']).column : Int) = 0 := by
    rw [Text.column_append_newline]
    rfl
  obtain ⟨page, filled, stands⟩ := LaidFrom.layout one goals 0 writableGoals
    (Int.natCast_nonneg _) _ margin
  exact ⟨headText, page, written, stands,
    (first.append filled).append (.single (Mark.puts_chars _))⟩

/-- A rule without `null` fills a page with its head and neck on the first line, the outline of its
body below and a full stop at the end, and the page stands at `column` whenever an indentation or
the layout of a goal starts from there. -/
theorem portray_columns (rule : neck = ":-" ∨ neck = "-->")
    (width : indentation bodyIndent = .ok (indent : Int))
    (writable : .null ∉ (Term.compound neck head [goals]).subterms) :
    let names := Naming.ofTerm (.compound neck head [goals])
    let marks := header head neck ++ body indent goals ++ fullStop
    (∃ headText page, head.write ⟨true, names⟩ = .ok headText ∧
      Filled (Entry.Stands names indent) (goals.outline 0)
        (headText ++ ' ' :: neck ++ ['\n']) page ∧
      portray bodyIndent (.compound neck head [goals]) = .ok (page ++ ".\n")) ∧
    emission names bodyIndent (.compound neck head [goals]) = Mark.emitAll names marks ∧
    (∀ before column target after, marks = before ++ .indent column target :: after →
      Mark.EndAt names before column) ∧
    ∀ before goal column target after, marks = before ++ Goal.layout goal column target ++ after →
      Mark.EndAt names before column := by
  intro names marks
  rw [Term.mem_subterms, Term.null_not_mem_pair] at writable
  have emitted : emission names bodyIndent (.compound neck head [goals]) =
      Mark.emitAll names marks := emission_rule rule width
  have one : Style.OneLine ⟨true, names⟩ := Naming.oneLine_ofTerm _
  obtain ⟨headText, page, written, stands, filled⟩ :=
    filled_rule one writable.1 writable.2 neck indent
  have inPlace (before after : List Mark) (column target : Int)
      (h : marks = before ++ .indent column target :: after) : Mark.EndAt names before column := by
    have same : Filled (Mark.Puts names) marks [] (page ++ ".\n") := filled
    rw [h] at same
    exact Mark.endAt_of_filled same
  refine ⟨⟨headText, page, written, stands, ?_⟩, emitted, ?_, ?_⟩
  · obtain ⟨text, all, same⟩ := Mark.emitAll_of_filled filled
    show (emission names bodyIndent _).result = _
    rw [emitted, all, same]
    rfl
  · intro before column target after h
    exact inPlace before after column target h
  · intro before goal column target after h
    obtain ⟨rest, starts⟩ := goal.layout_eq_cons column target
    rw [starts, List.append_assoc] at h
    exact inPlace before (rest ++ after) column target h

def nestedGoals : Term :=
  .compound [','] (.atom ['a'])
    [.compound [';'] (.compound "->" (.atom ['b']) [.atom ['c']]) [.atom ['d']]]

def nestedRule : Term := .compound ":-" (.atom ['h']) [nestedGoals]

theorem portray_columns_nested :
    portray (.int 3) nestedRule =
        .ok "h :-\n   a,\n   (  b ->\n      c\n   ;  d\n   ).\n".toList ∧
      ∃ headText page, (Term.atom ['h']).write ⟨true, .ofTerm nestedRule⟩ = .ok headText ∧
        Filled (Entry.Stands (.ofTerm nestedRule) 3) (nestedGoals.outline 0)
          (headText ++ ' ' :: ":-" ++ ['\n']) page ∧
        portray (.int 3) nestedRule = .ok (page ++ ".\n") := by
  have writable : .null ∉ nestedRule.subterms := by
    rw [Term.mem_subterms]
    decide
  have page : portray (.int 3) nestedRule =
      .ok "h :-\n   a,\n   (  b ->\n      c\n   ;  d\n   ).\n".toList := by
    cbv
  exact ⟨page, (portray_columns (.inl rfl) rfl writable).1⟩

end Clause

end LogicFormat
