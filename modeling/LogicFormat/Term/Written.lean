import LogicFormat.Atom
import LogicFormat.Number.Places
import LogicFormat.Term.Subterms

/-!
# Written terms

The text of a term, in operator notation, with lists in square brackets and, if asked for,
with the quotes that are needed to read it back. A term is written by way of a phrase: its text
together with what its surroundings must know of it, which is how loosely it binds, whether it is
a numeral or a bare atom, and, of a list, its items. Surroundings place phrases side by side and
decide on brackets and blanks; they never look at the term again.
-/

namespace LogicFormat

/-! ## Phrases -/

structure Style where
  quoted : Bool
  names : Naming

/-- An item of a list, and its character if it is a one-character atom. -/
structure Item where
  text : Text
  char? : Option Char

inductive Phrase where
  | numeral (text : Text)
  | atom (name : Text)
  /-- A text that can stand anywhere as it is. -/
  | closed (text : Text)
  | operation (level : Nat) (text : Text)
  /-- A list of items, open towards a tail that is no list. -/
  | sequence (items : List Item) (tail : Option Text)

namespace Phrase

def isNumeral : Phrase → Bool
  | .numeral _ => true
  | _ => false

def isOperator : Phrase → Bool
  | .atom name => Operator.isOperator name
  | _ => false

def char? : Phrase → Option Char
  | .atom [c] => some c
  | _ => none

end Phrase

/-- The loosest terms allowed as arguments and items, and between braces. -/
def argumentLevel : Int := 999

def termLevel : Int := 1200

def inBrackets (text : Text) : Text := '(' :: text ++ [')']

/-- Two pieces of text, with a blank between them if they would be read as one token. -/
def besides (left right : Text) : Text :=
  if Atom.fuses left right then left ++ ' ' :: right else left ++ right

namespace Style

def atom (style : Style) (name : Text) : Text :=
  if style.quoted then Atom.quoted name else name

/-- The characters of a list that is written as a string. -/
def string? (style : Style) (items : List Item) (tail : Option Text) : Option Text :=
  if style.quoted && tail.isNone then items.mapM Item.char? else none

def sequence (style : Style) (items : List Item) (tail : Option Text) : Text :=
  if items.isEmpty then "[]"
  else
    match style.string? items tail with
    | some text => Atom.between '"' text
    | none =>
        let inside := [','].intercalate (items.map Item.text)
        match tail with
        | none => '[' :: inside ++ [']']
        | some rest => '[' :: inside ++ '|' :: rest ++ [']']

/-- A phrase where nothing looser than `bound` may stand. -/
def within (style : Style) (bound : Int) : Phrase → Text
  | .numeral text => text
  | .atom name => style.atom name
  | .closed text => text
  | .operation level text => if bound < level then inBrackets text else text
  | .sequence items tail => style.sequence items tail

/-- A phrase beside an operator. Atoms that are operators themselves are bracketed. -/
def operand (style : Style) (bound : Int) (phrase : Phrase) : Text :=
  let text := style.within bound phrase
  if phrase.isOperator then inBrackets text else text

def item (style : Style) (phrase : Phrase) : Item :=
  ⟨style.within argumentLevel phrase, phrase.char?⟩

/-- A list made longer at the front: what follows is a list, the empty list, or a tail. -/
def pair (style : Style) (head tail : Phrase) : Phrase :=
  match tail with
  | .sequence items rest => .sequence (style.item head :: items) rest
  | .atom name =>
      if name = "[]" then .sequence [style.item head] none
      else .sequence [style.item head] (some (style.within argumentLevel tail))
  | _ => .sequence [style.item head] (some (style.within argumentLevel tail))

/-- Comma and bar stand for themselves as operators, although they are quoted as atoms. -/
def sign (style : Style) (name : Text) : Text :=
  if name = [','] || name = ['|'] then name else style.atom name

/-- An operator between its operands; words are set off by blanks. -/
def binary (style : Style) (op : BinaryOperator) (left right : Phrase) : Phrase :=
  let sign := style.sign op.name
  let leftText := style.operand (op.left.bound op.level) left
  let rightText := style.operand (op.right.bound op.level) right
  .operation op.level <|
    if Atom.isWord sign then leftText ++ ' ' :: sign ++ ' ' :: rightText
    else besides (besides leftText sign) rightText

/-- An operator before its operand. A blank keeps a sign away from a numeral, and an operator
away from a bracket that would make it a functor. -/
def unary (style : Style) (op : UnaryOperator) (phrase : Phrase) : Phrase :=
  let sign := style.atom op.name
  let text := style.operand (op.operand.bound op.level) phrase
  .operation op.level <|
    if phrase.isNumeral || text.head? = some '(' then sign ++ ' ' :: text
    else besides sign text

def applied (style : Style) (name : Text) (arguments : List Phrase) : Phrase :=
  .closed (style.atom name ++
    inBrackets ([','].intercalate (arguments.map (style.within argumentLevel))))

def braced (style : Style) (phrase : Phrase) : Phrase :=
  .closed ("\x7b" ++ style.within termLevel phrase ++ "\x7d")

def compound (style : Style) (name : Text) (first : Phrase) (others : List Phrase) : Phrase :=
  match others with
  | [] =>
      if name = "\x7b\x7d" then style.braced first
      else
        match Operator.unary? name with
        | some op => style.unary op first
        | none => style.applied name [first]
  | [second] =>
      if name = ['.'] then style.pair first second
      else
        match Operator.binary? name with
        | some op => style.binary op first second
        | none => style.applied name [first, second]
  | _ => style.applied name (first :: others)

end Style

/-! ## Written terms -/

namespace Term

def boolName (b : Bool) : Text := if b then "true" else "false"

mutual

def phrase (style : Style) : Term → Except Fault Phrase
  | .var n => .ok (.closed (style.names.nameOf n))
  | .atom name => .ok (.atom name)
  | .int n => .ok (.numeral (Numeral.ofInt n))
  | .float x => .ok (.numeral (Numeral.ofDouble .written x))
  | .bool b => .ok (.closed (boolName b))
  | .null => .error .unwritable
  | .list items => do
      let phrases ← phrases style items
      return .sequence (phrases.map style.item) none
  | .tuple items => do
      let phrases ← phrases style items
      return .closed (style.sequence (phrases.map style.item) none)
  | .compound name first others => do
      let first ← phrase style first
      let others ← phrases style others
      return style.compound name first others

def phrases (style : Style) : List Term → Except Fault (List Phrase)
  | [] => .ok []
  | t :: ts => do
      let first ← phrase style t
      let rest ← phrases style ts
      return first :: rest

end

def writeWithin (style : Style) (bound : Int) (t : Term) : Except Fault Text := do
  return style.within bound (← t.phrase style)

def write (style : Style) (t : Term) : Except Fault Text := t.writeWithin style termLevel

end Term

end LogicFormat
