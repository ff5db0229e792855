import LogicFormat.Clause.Emission
import LogicFormat.Term.Goals

/-!
# Clause layout

A clause is written with one goal a line. A conjunction keeps the indentation around it; a
disjunction or a conditional stands between round brackets, its branches indented past the
opening one. Everything is laid out from the column at which the text stands to the column at
which a goal belongs. A printer lays out the parts of one clause by request and keeps the page
written so far; a request that fails leaves on the page what it wrote before.
-/

namespace LogicFormat

namespace Clause

def opening : Text := "(  "

def alternative : Text := ";  "

def lastBranch (branch : List Mark) (target : Int) : List Mark :=
  [.indent 0 target, .chars alternative] ++ branch
    ++ [.chars ['\n'], .indent 0 target, .chars [')']]

end Clause

open Clause in
/-- A goal that belongs at the column `target`, the text standing at `column`. -/
def Goal.layout : Goal → Int → Int → List Mark
  | .literal t, column, target => [.indent column target, .term t]
  | .both first second, column, target =>
      first.layout column target ++ .chars ",\n" :: second.layout 0 target
  | .either first second, column, target =>
      let inner := target + opening.length
      [.indent column target, .chars opening] ++ first.layout inner inner
        ++ .chars ['\n'] :: lastBranch (second.layout inner inner) target
  | .conditional condition consequence other, column, target =>
      let inner := target + opening.length
      [.indent column target, .chars opening] ++ condition.layout inner inner
        ++ .chars " ->\n" :: consequence.layout 0 inner
        ++ .chars ['\n'] :: lastBranch (other.layout inner inner) target

namespace Clause

/-- Head, neck and body of a rule. -/
def parts? (t : Term) : Option (Term × Text × Term) :=
  match t with
  | .compound neck head [body] =>
      if neck = ":-" || neck = "-->" then some (head, neck, body) else none
  | _ => none

theorem parts?_rule {neck : Text} (rule : neck = ":-" ∨ neck = "-->") (head goals : Term) :
    parts? (.compound neck head [goals]) = some (head, neck, goals) := by
  rw [parts?, if_pos (by simpa using rule)]

theorem eq_of_parts? {t head goals : Term} {neck : Text} (h : parts? t = some (head, neck, goals)) :
    t = .compound neck head [goals] := by
  unfold parts? at h
  split at h
  · split at h
    · cases h
      rfl
    · cases h
  · cases h

theorem rule_of_parts? {t head goals : Term} {neck : Text}
    (h : parts? t = some (head, neck, goals)) : neck = ":-" ∨ neck = "-->" := by
  unfold parts? at h
  split at h
  · split at h
    · next rule =>
        cases h
        simpa using rule
    · cases h
  · cases h

/-- The column that a value stands for as an indentation. A double is refused as an argument
that should be an integer. -/
def indentation : Term → Except Fault Int
  | .int n => .ok n
  | .bool b => .ok (if b then 1 else 0)
  | .float x => .error (.wrongType .integer (.float x))
  | _ => .error .indentNotNumber

def header (head : Term) (neck : Text) : List Mark := [.term head, .chars (' ' :: neck ++ ['\n'])]

def body (indent : Int) (goals : Term) : List Mark := (Goal.ofTerm goals).layout 0 indent

def fullStop : List Mark := [.chars ".\n"]

/-- A clause up to its full stop and newline. An indentation that is refused stops it after the
head. -/
def emission (names : Naming) (bodyIndent t : Term) : Emission :=
  match parts? t with
  | some (head, neck, goals) =>
      match indentation bodyIndent with
      | .ok indent => Mark.emitAll names (header head neck ++ body indent goals ++ fullStop)
      | .error fault => Mark.emitAll names (header head neck) ++ .stopped fault
  | none => Mark.emitAll names (.term t :: fullStop)

/-- The text of a clause, its variables named in the order in which they occur. -/
def portray (bodyIndent t : Term) : Except Fault Text :=
  (emission (.ofTerm t) bodyIndent t).result

def standardIndent : Term := .int 3

end Clause

/-! ## Printers -/

structure Printer where
  term : Term
  page : Text

namespace Printer

inductive Request where
  | portray
  | text (text : Text)
  | literal (t : Term)
  | indent (column target : Int)
  | body (t : Term) (column target : Int)
  | lastBranch (t : Term) (column target : Int)

def start (t : Term) : Printer := ⟨t, []⟩

/-- What a request puts on the page of the clause `t`, by whose variables all terms are named. -/
def emission (t : Term) : Request → Emission
  | .portray => Clause.emission (.ofTerm t) Clause.standardIndent t
  | .text text => Mark.emitAll (.ofTerm t) [.chars text]
  | .literal part => Mark.emitAll (.ofTerm t) [.term part]
  | .indent column target => Mark.emitAll (.ofTerm t) [.indent column target]
  | .body part column target =>
      Mark.emitAll (.ofTerm t) ((Goal.ofTerm part).layout column target)
  | .lastBranch part column target =>
      Mark.emitAll (.ofTerm t)
        (Clause.lastBranch ((Goal.ofTerm part).layout column column) target)

/-- The printer after a request, and the outcome: the whole page if the clause was asked for. -/
def answer (printer : Printer) (request : Request) : Printer × Except Fault (Option Text) :=
  let e := emission printer.term request
  let page := printer.page ++ e.text
  let outcome :=
    match e.fault, request with
    | some fault, _ => .error fault
    | none, .portray => .ok (some page)
    | none, _ => .ok none
  (⟨printer.term, page⟩, outcome)

end Printer

end LogicFormat
