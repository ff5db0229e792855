import LogicFormat.Clause.Printer
import LogicFormat.Proofs.Clause.Goal
import LogicFormat.Proofs.Clause.Page
import LogicFormat.Proofs.Term.Controls
import LogicFormat.Proofs.Term.Written

/-!
# Outlines of clause bodies

The outline of a body says what stands on the page and in which column: goals, and the brackets and
semicolons of the disjunctions around them, three columns further in for every disjunction. The
layout of a body puts its outline on the page.
-/

namespace LogicFormat

/-- What stands on the page of a body. Goals, brackets and semicolons stand in the column of their
depth, everything else directly behind what comes before it. -/
inductive Entry where
  | goal (t : Term) (depth : Nat)
  | opening (depth : Nat)
  | alternative (depth : Nat)
  | closing (depth : Nat)
  | comma
  | arrow
  | lineEnd

namespace Entry

def depth? : Entry → Option Nat
  | .goal _ depth | .opening depth | .alternative depth | .closing depth => some depth
  | .comma | .arrow | .lineEnd => none

def text (names : Naming) : Entry → Except Fault Text
  | .goal t _ => t.write ⟨true, names⟩
  | .opening _ => .ok "(  "
  | .alternative _ => .ok ";  "
  | .closing _ => .ok [')']
  | .comma => .ok ",\n"
  | .arrow => .ok " ->\n"
  | .lineEnd => .ok ['\n']

/-- The entry makes `page` into `next`, with blanks before it only to reach its column. -/
def Stands (names : Naming) (indent : Nat) (entry : Entry) (page next : Text) : Prop :=
  ∃ blanks text, entry.text names = .ok text ∧
    next = page ++ List.replicate blanks ' ' ++ text ∧
    match entry.depth? with
    | some depth => (page ++ List.replicate blanks ' ').column = indent + 3 * depth
    | none => blanks = 0

end Entry

/-- The entries of a goal below `depth` disjunctions, from left to right. -/
def Term.outline : Term → Nat → List Entry
  | .compound [','] first [second], depth =>
      first.outline depth ++ .comma :: second.outline depth
  | .compound [';'] (.compound ['-', '>'] condition [consequence]) [other], depth =>
      .opening depth :: (condition.outline (depth + 1)
        ++ .arrow :: consequence.outline (depth + 1))
        ++ .lineEnd :: .alternative depth :: (other.outline (depth + 1)
        ++ [.lineEnd, .closing depth])
  | .compound [';'] first [second], depth =>
      .opening depth :: first.outline (depth + 1)
        ++ .lineEnd :: .alternative depth :: (second.outline (depth + 1)
        ++ [.lineEnd, .closing depth])
  | t, depth => [.goal t depth]

/-- From every page that stands at `column`, the marks put the entries on it. -/
def LaidFrom (names : Naming) (indent : Nat) (column : Int) (marks : List Mark)
    (entries : List Entry) : Prop :=
  ∀ page : Text, (page.column : Int) = column → ∃ stop,
    Filled (Mark.Puts names) marks page stop ∧ Filled (Entry.Stands names indent) entries page stop

namespace LaidFrom

variable {names : Naming} {indent : Nat} {column : Int} {marks others : List Mark}
  {entries rest : List Entry}

theorem nil : LaidFrom names indent column [] [] := fun page _ => ⟨page, .nil page, .nil page⟩

theorem placed (entry : Entry) {mark : Mark} {text : Text} {depth : Nat}
    (own : entry.depth? = some depth) (shown : entry.text names = .ok text)
    (marked : ∀ page, mark.Puts names page (page ++ text)) (one : Text.OneLine text)
    (room : column ≤ (indent + 3 * depth : Nat))
    (h : LaidFrom names indent (indent + 3 * depth + text.length : Nat) marks entries) :
    LaidFrom names indent column (.indent column (indent + 3 * depth : Nat) :: mark :: marks)
      (entry :: entries) := by
  intro page start
  -- none if the page stands at the column of the entry already, as behind a bracket
  let blanks := ((indent + 3 * depth : Nat) - column).toNat
  have oneBlanks : Text.OneLine (List.replicate blanks ' ') := by
    intro newline
    exact absurd (List.eq_of_mem_replicate newline) (by decide)
  have reached : (page ++ List.replicate blanks ' ').column = indent + 3 * depth := by
    rw [Text.column_append _ oneBlanks, List.length_replicate]
    omega
  have behind : (page ++ List.replicate blanks ' ' ++ text).column =
      indent + 3 * depth + text.length := by
    rw [Text.column_append _ one, reached]
  obtain ⟨stop, filled, stands⟩ := h _ (congrArg Int.ofNat behind)
  refine ⟨stop, .cons (Mark.puts_indent start _) (.cons (marked _) filled), .cons ?_ stands⟩
  refine ⟨blanks, text, shown, rfl, ?_⟩
  rw [own]
  exact reached

/-- What follows the end of a line starts at the margin. -/
theorem joined (entry : Entry) (line : Text) (free : entry.depth? = none)
    (shown : entry.text names = .ok (line ++ ['\n']))
    (first : LaidFrom names indent column marks entries)
    (second : LaidFrom names indent 0 others rest) :
    LaidFrom names indent column (marks ++ .chars (line ++ ['\n']) :: others)
      (entries ++ entry :: rest) := by
  intro page start
  obtain ⟨next, filled, stands⟩ := first page start
  have margin : (next ++ (line ++ ['\n'])).column = 0 := by
    rw [← List.append_assoc, Text.column_append_newline]
  obtain ⟨stop, filledRest, standsRest⟩ := second _ (congrArg Int.ofNat margin)
  refine ⟨stop, filled.append (.cons (Mark.puts_chars _) filledRest), ?_⟩
  refine stands.append (.cons ⟨0, _, shown, ?_, ?_⟩ standsRest)
  · rw [List.replicate_zero, List.append_nil]
  · rw [free]

/-- The semicolon and the closing bracket stand in one column, the branch three columns behind. -/
theorem lastBranch {depth : Nat}
    (h : LaidFrom names indent (indent + 3 * (depth + 1) : Nat) marks entries) :
    LaidFrom names indent 0 (Clause.lastBranch marks (indent + 3 * depth : Nat))
      (.alternative depth :: (entries ++ [.lineEnd, .closing depth])) := by
  have closing : LaidFrom names indent 0
      [.indent 0 (indent + 3 * depth : Nat), .chars [')']] [.closing depth] :=
    nil.placed (.closing depth) rfl rfl (fun _ => Mark.puts_chars _) (by decide)
      (Int.natCast_nonneg _)
  have branch := h.joined .lineEnd [] rfl rfl closing
  exact branch.placed (.alternative depth) rfl rfl (fun _ => Mark.puts_chars _)
    (by decide) (Int.natCast_nonneg _)

theorem brackets {depth : Nat} (room : column ≤ (indent + 3 * depth : Nat))
    (first : LaidFrom names indent (indent + 3 * (depth + 1) : Nat) marks entries)
    (second : LaidFrom names indent (indent + 3 * (depth + 1) : Nat) others rest) :
    LaidFrom names indent column
      ([.indent column (indent + 3 * depth : Nat), .chars Clause.opening] ++ marks
        ++ .chars ['\n'] :: Clause.lastBranch others (indent + 3 * depth : Nat))
      (.opening depth :: entries
        ++ .lineEnd :: .alternative depth :: (rest ++ [.lineEnd, .closing depth])) := by
  have branches := first.joined .lineEnd [] rfl rfl second.lastBranch
  exact branches.placed (.opening depth) rfl rfl (fun _ => Mark.puts_chars _)
    (by decide) room

end LaidFrom

variable {names : Naming} {indent : Nat}

/-- The layout of a goal below `depth` disjunctions puts its outline on the page, if the page does
not stand beyond the column of the goal yet. -/
theorem LaidFrom.layout (one : Style.OneLine ⟨true, names⟩) (t : Term) (depth : Nat)
    (writable : .null ∉ t.preorder) {column : Int} (room : column ≤ (indent + 3 * depth : Nat)) :
    LaidFrom names indent column ((Goal.ofTerm t).layout column (indent + 3 * depth : Nat))
      (t.outline depth) := by
  -- a branch starts where the bracket or semicolon before it ends
  have inner (depth : Nat) : ((indent + 3 * depth : Nat) : Int) + Clause.opening.length =
      (indent + 3 * (depth + 1) : Nat) := by
    show _ + ((3 : Nat) : Int) = _
    omega
  induction t, depth using Term.outline.induct generalizing column with
  | case1 first second depth ihFirst ihSecond =>
      rw [Term.null_not_mem_pair] at writable
      rw [Goal.ofTerm_both, Goal.layout, Term.outline]
      exact (ihFirst writable.1 room).joined .comma [','] rfl rfl
        (ihSecond writable.2 (Int.natCast_nonneg _))
  | case2 condition consequence other depth ihCondition ihConsequence ihOther =>
      rw [Term.null_not_mem_pair, Term.null_not_mem_pair] at writable
      obtain ⟨⟨writableCondition, writableConsequence⟩, writableOther⟩ := writable
      have first := (ihCondition writableCondition (Int.le_refl _)).joined .arrow " ->"
        rfl rfl (ihConsequence writableConsequence (Int.natCast_nonneg _))
      rw [Goal.ofTerm_conditional, Goal.layout, Term.outline, inner depth,
        List.append_assoc [_, _]]
      exact first.brackets room (ihOther writableOther (Int.le_refl _))
  | case3 first second depth plain ihFirst ihSecond =>
      rw [Term.null_not_mem_pair] at writable
      rw [Goal.ofTerm_either plain, Goal.layout, Term.outline, inner depth]
      · exact (ihFirst writable.1 (Int.le_refl _)).brackets room
          (ihSecond writable.2 (Int.le_refl _))
      · exact plain
  | case4 t depth notBoth notConditional notEither =>
      obtain ⟨text, written⟩ := Term.exists_write ⟨true, names⟩ writable
      rw [Goal.ofTerm_literal notBoth notEither, Goal.layout, Term.outline]
      · exact LaidFrom.nil.placed (.goal t depth) rfl written (fun _ => Mark.puts_term written)
          (Term.oneLine_write one written) room
      · exact notBoth
      · exact notConditional
      · exact notEither

end LogicFormat
