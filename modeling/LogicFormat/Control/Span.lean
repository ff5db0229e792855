import LogicFormat.Control.Directive

/-!
# Spans of a control text

The pieces of a control text with the positions between which they stand. The positions are
those of a cursor that every piece moves on by what it takes. The text, the length and the
token of a directive are read off the control text at its place.
-/

namespace LogicFormat

structure Span where
  start : Nat
  stop : Nat
  piece : Piece
  deriving DecidableEq

/-- What a control text is read as: texts to insert, and directives to carry out. -/
inductive Part where
  | text (text : Text)
  | directive (source : Text) (parameter : Option Parameter.Reading) (label : Text)
  deriving DecidableEq

def Part.display : Part → Text
  | .text shown => shown
  | .directive source _ label => "<" ++ label ++ " " ++ source ++ ">"

namespace Span

def text (control : Text) (span : Span) : Text := (control.take span.stop).drop span.start

def length (span : Span) : Nat := span.stop - span.start

def token (control : Text) (span : Span) : Text := (control.drop span.start).take 2

def part (control : Text) (span : Span) : Part :=
  match span.piece with
  | .literal text => .text text
  | .tilde => .text ['~']
  | .directive d => .directive (span.text control) d.parameter.reading? d.command.label

end Span

namespace Control

/-- Where the cursor stands when all of `text` is read except `rest`. -/
def advanced (position : Nat) (text rest : Text) : Nat := position + (text.length - rest.length)

def spansFrom (position : Nat) : Text → List Span
  | [] => []
  | c :: text =>
      if c = '~' then
        let stop := advanced position (c :: text) (scanDirective text).2
        ⟨position, stop, ofDirective (scanDirective text).1⟩
          :: spansFrom stop (scanDirective text).2
      else
        let stop := advanced position (c :: text) (text.dropWhile isLiteral)
        ⟨position, stop, .literal (c :: text.takeWhile isLiteral)⟩
          :: spansFrom stop (text.dropWhile isLiteral)
termination_by text => text.length
decreasing_by
  · have := length_scanDirective text
    simp only [List.length_cons]
    omega
  · have := (List.dropWhile_sublist isLiteral (l := text)).length_le
    simp only [List.length_cons]
    omega

def spans (control : Text) : List Span := spansFrom 0 control

def parts (control : Text) : List Part := (spans control).map (Span.part control)

end Control

end LogicFormat
