import LogicFormat.Cell.Builder
import LogicFormat.Cell.Basic
import LogicFormat.Control.Directive
import LogicFormat.Number.Places
import LogicFormat.Term.Written

/-!
# Formatting

A control text with its arguments becomes cells, and the cells become text. The control text
is looked at first, then whether the arguments are a list, then the pieces from left to right,
and last whether arguments are left over. Carrying out a piece takes arguments and yields
operations on the cells. It does not depend on the cells themselves, so all faults of the pieces
are settled before anything is laid out.
-/

namespace LogicFormat

/-! ## Arguments -/

abbrev Arguments := List Term

namespace Arguments

def next? : Arguments → Option (Term × Arguments)
  | [] => none
  | t :: rest => some (t, rest)

def next (token : Text) (arguments : Arguments) : Except Fault (Term × Arguments) :=
  match arguments.next? with
  | some taken => .ok taken
  | none => .error (.missingArgument token)

@[simp] theorem next_nil (token : Text) : next token [] = .error (.missingArgument token) := rfl

@[simp] theorem next_cons (token : Text) (t : Term) (rest : Arguments) :
    next token (t :: rest) = .ok (t, rest) := rfl

def finished (arguments : Arguments) : Except Fault Unit :=
  if arguments.isEmpty then .ok () else .error (.leftoverArguments arguments)

end Arguments

/-! ## Effects -/

/-- The operations that a piece asks for, and the arguments it leaves. -/
abbrev Effect := Except Fault (List Operation × Arguments)

namespace Count

/-- The value of a count; a star takes an integer from the arguments. -/
def value (count : Count) (default : Int) (token : Text) (arguments : Arguments) :
    Except Fault (Int × Arguments) :=
  match count with
  | .absent => .ok (default, arguments)
  | .number n => .ok (n, arguments)
  | .next => do
      let taken ← arguments.next token
      let n ← Expected.integer.require taken.1 taken.1.int?
      return (n, taken.2)

/-- A count that must not be negative. -/
def natural (count : Count) (default : Int) (token : Text) (arguments : Arguments) :
    Except Fault (Int × Arguments) := do
  let counted ← count.value default token arguments
  if counted.1 < 0 then throw (.negativeCount counted.1) else return counted

end Count

namespace Term

/-- The text of an atom as it is, of a truth value, or of a number. -/
def atomic? : Term → Option Text
  | .atom name => some name
  | .bool b => some (boolName b)
  | t => t.numeral?

def atomicText (t : Term) : Except Fault Text := Expected.atom.require t t.atomic?

def charsText (t : Term) : Except Fault Text := Expected.chars.require t t.text?

def numberText (t : Term) : Except Fault Text := Expected.number.require t t.numeral?

end Term

namespace Command

def insert (text : Term → Except Fault Text) (token : Text) (arguments : Arguments) : Effect := do
  let taken ← arguments.next token
  let text ← text taken.1
  return ([.chars text], taken.2)

/-- Inserts the next argument with a number of places, which is settled before it. -/
def insertPlaces (text : Term → Int → Except Fault Text) (places : Count) (token : Text)
    (arguments : Arguments) : Effect := do
  let counted ← places.natural 0 token arguments
  insert (text · counted.1) token counted.2

def effect (command : Command) (token : Text) (arguments : Arguments) : Effect :=
  match command with
  | .write quoted => insert (Term.write ⟨quoted, []⟩) token arguments
  | .atomic => insert Term.atomicText token arguments
  | .chars => insert Term.charsText token arguments
  | .decimal false places => insertPlaces Places.fixed places token arguments
  | .decimal true places => insertPlaces Places.grouped places token arguments
  | .float .absent => insert Term.numberText token arguments
  | .float places => insertPlaces Places.truncated places token arguments
  | .ignore => do
      let taken ← arguments.next token
      return ([], taken.2)
  | .newlines lines => do
      let counted ← lines.natural 1 token arguments
      return ([.newlines counted.1], counted.2)
  | .column .absent => .ok ([.relativeColumn 0], arguments)
  | .column count => do
      let counted ← count.value 0 token arguments
      return ([.column counted.1], counted.2)
  | .relativeColumn count => do
      let counted ← count.value 0 token arguments
      return ([.relativeColumn counted.1], counted.2)
  | .glue fill => .ok ([.glue [fill]], arguments)
  | .unknown => .error (.unknownDirective token)

end Command

namespace Piece

def effect (piece : Piece) (arguments : Arguments) : Effect :=
  match piece with
  | .literal text => .ok ([.chars text], arguments)
  | .tilde => .ok ([.chars ['~']], arguments)
  | .directive d => d.command.effect d.token arguments

def effects : List Piece → Arguments → Effect
  | [], arguments => .ok ([], arguments)
  | piece :: pieces, arguments => do
      let first ← piece.effect arguments
      let others ← effects pieces first.2
      return (first.1 ++ others.1, others.2)

theorem effects_append (first second : List Piece) (arguments : Arguments) :
    effects (first ++ second) arguments = do
      let done ← effects first arguments
      let others ← effects second done.2
      return (done.1 ++ others.1, others.2) := by
  induction first generalizing arguments with
  | nil =>
      show effects second arguments = effects second arguments >>= fun others =>
        Except.ok ([] ++ others.1, others.2)
      cases effects second arguments <;> rfl
  | cons piece pieces ih =>
      rw [List.cons_append, effects, effects]
      cases piece.effect arguments with
      | error fault => rfl
      | ok done =>
          simp only [bind, Except.bind, ih]
          cases effects pieces done.2 with
          | error fault => rfl
          | ok rest =>
              simp only [pure, Except.pure]
              cases effects second rest.2 with
              | error fault => rfl
              | ok others => simp [List.append_assoc]

end Piece

/-! ## Formatting -/

namespace Control

def operations (control : Text) (arguments : Arguments) : Except Fault (List Operation) := do
  let done ← Piece.effects (pieces control) arguments
  done.2.finished
  return done.1

/-- The cells and newlines before they are laid out. -/
def blocks (control : Text) (arguments : Arguments) : Except Fault (List Block) := do
  let operations ← operations control arguments
  return (Builder.empty.performAll operations).finish.blocks

def format (control : Text) (arguments : Arguments) : Except Fault Text := do
  Block.renderAll (← blocks control arguments)

/-- The text of a control, which may be given as a list of characters. -/
def textOf (control : Term) : Except Fault Text := control.charsText

def argumentsOf (arguments : Term) : Except Fault Arguments :=
  Expected.list.require arguments arguments.items?

def formatWith (control : Text) (arguments : Term) : Except Fault Text := do
  format control (← argumentsOf arguments)

def formatTerm (control arguments : Term) : Except Fault Text := do
  formatWith (← textOf control) arguments

def blocksTerm (control arguments : Term) : Except Fault (List Block) := do
  let control ← textOf control
  blocks control (← argumentsOf arguments)

def display (control : Text) : Text := "Formatter(" ++ control.display ++ ")"

end Control

end LogicFormat
