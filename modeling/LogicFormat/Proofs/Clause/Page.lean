import LogicFormat.Clause.Printer
import LogicFormat.Proofs.Text.Lines

/-!
# Marks on a page

An indentation is a control text of its own: glue up to a tab stop, whose column is the argument.
Whatever that column is, also where it lies before the margin, the glue fills its cell with blanks
up to it and with nothing else.

Marks are put on a page one after the other. An indentation puts blanks on it, and is in place if
it starts from the column at which the page stands by then.
-/

namespace LogicFormat

/-! ## Blanks -/

/-- Glue alone in its cell fills it; in a cell that ends where it starts, or before, it is empty. -/
theorem Cell.render_glue (start stop : Int) (fill : Text) :
    (⟨start, stop, [.glue fill 0]⟩ : Cell).render =
      .ok (List.replicate (stop - start).toNat fill).flatten := by
  have space : (⟨start, stop, [.glue fill 0]⟩ : Cell).space = (stop - start).toNat := by
    simp [Cell.space, Cell.length, Element.totalLength, Element.length]
  have widths : (⟨start, stop, [.glue fill 0]⟩ : Cell).widths = [(stop - start).toNat] := by
    rw [← space]
    show [_ / 1 + _ % 1] = _
    rw [Nat.div_one, Nat.mod_one, Nat.add_zero]
  rw [Cell.render, widths]
  exact congrArg Except.ok (List.append_nil _)

namespace Mark

theorem pieces_blanks : Control.pieces "~t~*|" =
    [.directive ⟨.absent, some 't'⟩, .directive ⟨.next, some '|'⟩] := by
  simp [Control.pieces, Control.scanDirective, Control.scanParameter, Control.ofDirective]

/-- The tab stop takes the one argument, so that none is left over. -/
theorem operations_blanks (n : Int) :
    Control.operations "~t~*|" [.int n] = .ok [.glue [' '], .column n] := by
  rw [Control.operations, pieces_blanks]
  rfl

/-- An indentation is laid out as one cell, with nothing but glue in it. -/
theorem blocks_blanks (n : Int) :
    Control.blocks "~t~*|" [.int n] = .ok [.cell ⟨0, n, [.glue [' '] 0]⟩] := by
  rw [Control.blocks, operations_blanks]
  rfl

/-- Blanks never fail. Where there is no room for any, there are none. -/
theorem blanks_eq (n : Int) : blanks n = .ok (List.replicate n.toNat ' ') := by
  have filled := Cell.render_glue 0 n [' ']
  rw [Int.sub_zero, List.flatten_replicate_singleton] at filled
  rw [blanks, Control.format, blocks_blanks, Outcome.ok_bind, Block.renderAll, Block.render, filled]
  exact congrArg Except.ok (List.append_nil _)

theorem emission_indent (names : Naming) (column target : Int) :
    (indent column target).emission names =
      .ofText (List.replicate (target - column).toNat ' ') := by
  rw [emission, blanks_eq]
  rfl

end Mark

namespace Printer

theorem emission_indent (t : Term) (column target : Int) :
    emission t (.indent column target) = .ofText (List.replicate (target - column).toNat ' ') := by
  rw [emission, Mark.emitAll_cons, Mark.emission_indent, Mark.emitAll_nil]
  exact congrArg Emission.ofText (List.append_nil _)

/-- A request for an indentation never fails. It puts as many blanks on the page as lead from the
column to the target, none if it stands there or behind it, and changes nothing else. They are what
the control text makes of that many columns. -/
theorem answer_indent (printer : Printer) (column target n : Int) :
    printer.answer (.indent column target) =
        (⟨printer.term, printer.page ++ List.replicate (max 0 (target - column)).toNat ' '⟩,
          .ok none) ∧
      Control.formatTerm (.atom "~t~*|") (.list [.int n]) =
        .ok (List.replicate (max 0 n).toNat ' ') := by
  have floored (k : Int) : (max 0 k).toNat = k.toNat := by omega
  rw [floored, floored]
  constructor
  · simp only [answer, emission_indent]
    rfl
  · exact Mark.blanks_eq n

end Printer

/-! ## Marks -/

/-- Things are put on `page` one after the other, each as `put` says, until it is `stop`. -/
inductive Filled {α : Type} (put : α → Text → Text → Prop) : List α → Text → Text → Prop
  | nil (page : Text) : Filled put [] page page
  | cons {a : α} {as : List α} {page next stop : Text} (first : put a page next)
      (rest : Filled put as next stop) : Filled put (a :: as) page stop

namespace Filled

variable {α : Type} {put : α → Text → Text → Prop} {a : α} {first second : List α}
  {page next stop : Text}

theorem single (h : put a page next) : Filled put [a] page next := .cons h (.nil next)

theorem append (one : Filled put first page next) (two : Filled put second next stop) :
    Filled put (first ++ second) page stop := by
  induction one with
  | nil page => exact two
  | cons h rest ih => exact .cons h (ih two)

theorem split (h : Filled put (first ++ second) page stop) :
    ∃ middle, Filled put first page middle ∧ Filled put second middle stop := by
  induction first generalizing page with
  | nil => exact ⟨page, .nil page, h⟩
  | cons a first ih =>
      cases h with
      | cons h rest =>
          obtain ⟨middle, before, after⟩ := ih rest
          exact ⟨middle, .cons h before, after⟩

end Filled

namespace Mark

theorem emission_term {names : Naming} {t : Term} {text : Text}
    (written : t.write ⟨true, names⟩ = .ok text) : (term t).emission names = .ofText text := by
  rw [emission, written]
  rfl

theorem write_of_emission {names : Naming} {t : Term} {text : Text}
    (emitted : (term t).emission names = .ofText text) : t.write ⟨true, names⟩ = .ok text := by
  have result := Emission.result_eq_ok.mpr emitted
  rwa [emission, Emission.result_ofExcept] at result

/-- The mark makes `page` into `next`. An indentation starts from the column of the page. -/
structure Puts (names : Naming) (mark : Mark) (page next : Text) : Prop where
  inPlace : ∀ column target, mark = .indent column target → (page.column : Int) = column
  written : ∃ text, mark.emission names = .ofText text ∧ next = page ++ text

variable {names : Naming} {page stop : Text}

theorem puts_chars (text : Text) : (chars text).Puts names page (page ++ text) :=
  ⟨nofun, text, rfl, rfl⟩

theorem puts_term {t : Term} {text : Text} (written : t.write ⟨true, names⟩ = .ok text) :
    (term t).Puts names page (page ++ text) :=
  ⟨nofun, text, emission_term written, rfl⟩

theorem puts_indent {column : Int} (h : (page.column : Int) = column) (target : Int) :
    (indent column target).Puts names page
      (page ++ List.replicate (target - column).toNat ' ') := by
  refine ⟨?_, _, emission_indent names column target, rfl⟩
  rintro _ _ ⟨⟩
  exact h

/-- The marks are emitted to their end, and what they emit is what the page has gained. -/
theorem emitAll_of_filled {marks : List Mark} (h : Filled (Puts names) marks page stop) :
    ∃ text, emitAll names marks = .ofText text ∧ stop = page ++ text := by
  induction h with
  | nil page => exact ⟨[], rfl, (List.append_nil page).symm⟩
  | cons put rest ih =>
      obtain ⟨text, emitted, rfl⟩ := put.written
      obtain ⟨others, emittedAll, rfl⟩ := ih
      refine ⟨text ++ others, ?_, List.append_assoc _ text others⟩
      rw [emitAll_cons, emitted, emittedAll]
      rfl

/-- The marks are emitted to their end, and the page stands at `column` then. -/
def EndAt (names : Naming) (marks : List Mark) (column : Int) : Prop :=
  ∃ page, emitAll names marks = .ofText page ∧ (page.column : Int) = column

/-- Where an indentation comes, the page stands at the column that it starts from. -/
theorem endAt_of_filled {before after : List Mark} {column target : Int}
    (h : Filled (Puts names) (before ++ indent column target :: after) [] stop) :
    EndAt names before column := by
  obtain ⟨middle, first, second⟩ := h.split
  obtain ⟨_, emitted, rfl⟩ := emitAll_of_filled first
  cases second with
  | cons put _ => exact ⟨_, emitted, put.inPlace column target rfl⟩

end Mark

namespace Clause

def marks (indent : Int) (t : Term) : List Mark :=
  match parts? t with
  | some (head, neck, goals) => header head neck ++ body indent goals
  | none => [.term t]

theorem emission_int (names : Naming) (indent : Int) (t : Term) :
    emission names (.int indent) t = Mark.emitAll names (marks indent t ++ fullStop) := by
  rw [emission, marks]
  cases parts? t <;> rfl

end Clause

end LogicFormat
