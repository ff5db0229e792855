import LogicFormat.Text

/-!
# Directives

A control text is cut into runs of literal text, doubled tildes and directives. A directive is a
tilde, perhaps a parameter, and a letter; only the last directive of a text can lack its letter,
when the text ends too early. Every text can be cut up; whether a directive makes sense is asked
only when it is carried out. Its letter then asks for a command, given the parameter; a letter that
does not exist, or that does not take the kind of parameter it is given, is an unknown command.
-/

namespace LogicFormat

inductive Parameter where
  | absent
  /-- A star: the parameter is the next argument. -/
  | next
  /-- A number, as the digits that are written. -/
  | number (digits : Text)
  | fill (c : Char)
  deriving DecidableEq

def Parameter.source : Parameter → Text
  | .absent => []
  | .next => ['*']
  | .number digits => digits
  | .fill c => ['\x60', c]

structure Directive where
  parameter : Parameter
  letter : Option Char
  deriving DecidableEq

namespace Directive

def source (d : Directive) : Text := '~' :: d.parameter.source ++ d.letter.toList

/-- The tilde and the character behind it, by which faults name a directive. -/
def token (d : Directive) : Text := d.source.take 2

theorem source_ne_nil (d : Directive) : d.source ≠ [] := List.cons_ne_nil _ _

end Directive

/-! ## Pieces -/

inductive Piece where
  | literal (text : Text)
  /-- A doubled tilde, which stands for one. -/
  | tilde
  | directive (d : Directive)
  deriving DecidableEq

def Piece.source : Piece → Text
  | .literal text => text
  | .tilde => ['~', '~']
  | .directive d => d.source

namespace Control

/-- The parameter at the front of a text, and the rest. A backquote is a parameter only if a
character follows it. -/
def scanParameter : Text → Parameter × Text
  | '*' :: rest => (.next, rest)
  | '\x60' :: c :: rest => (.fill c, rest)
  | text =>
      match text.takeWhile Char.isDigit with
      | [] => (.absent, text)
      | digits => (.number digits, text.dropWhile Char.isDigit)

def scanDirective (text : Text) : Directive × Text :=
  match scanParameter text with
  | (parameter, []) => (⟨parameter, none⟩, [])
  | (parameter, letter :: rest) => (⟨parameter, some letter⟩, rest)

def ofDirective (d : Directive) : Piece :=
  if d = ⟨.absent, some '~'⟩ then .tilde else .directive d

theorem scanParameter_append (text : Text) :
    (scanParameter text).1.source ++ (scanParameter text).2 = text := by
  unfold scanParameter
  split
  · rfl
  · rfl
  · split
    · rfl
    · exact List.takeWhile_append_dropWhile

theorem scanDirective_append (text : Text) :
    (scanDirective text).1.source ++ (scanDirective text).2 = '~' :: text := by
  have h := scanParameter_append text
  unfold scanDirective
  split <;> rename_i heq <;> rw [heq] at h <;> simpa [Directive.source] using h

theorem length_scanDirective (text : Text) : (scanDirective text).2.length ≤ text.length := by
  have h := congrArg List.length (scanDirective_append text)
  have pos : 0 < (scanDirective text).1.source.length :=
    List.length_pos_iff.mpr (Directive.source_ne_nil _)
  simp only [List.length_append, List.length_cons] at h
  omega

def isLiteral (c : Char) : Bool := c ≠ '~'

def pieces : Text → List Piece
  | [] => []
  | c :: text =>
      if c = '~' then ofDirective (scanDirective text).1 :: pieces (scanDirective text).2
      else .literal (c :: text.takeWhile isLiteral) :: pieces (text.dropWhile isLiteral)
termination_by text => text.length
decreasing_by
  · have := length_scanDirective text
    simp only [List.length_cons]
    omega
  · have := (List.dropWhile_sublist isLiteral (l := text)).length_le
    simp only [List.length_cons]
    omega

end Control

/-! ## Commands -/

/-- A number that a directive may leave to a default or to an argument. -/
inductive Count where
  | absent
  | number (n : Nat)
  | next
  deriving DecidableEq

/-- The value of a parameter, a number being read from its digits. -/
inductive Parameter.Reading where
  | next
  | number (n : Nat)
  | fill (c : Char)
  deriving DecidableEq

inductive Command where
  | write (quoted : Bool)
  | atomic
  | chars
  | decimal (grouped : Bool) (places : Count)
  | float (places : Count)
  | ignore
  | newlines (lines : Count)
  | column (column : Count)
  | relativeColumn (columns : Count)
  | glue (fill : Char)
  | unknown
  deriving DecidableEq

namespace Parameter

def numberValue (digits : Text) : Nat := Nat.ofDigitChars 10 digits 0

def count? : Parameter → Option Count
  | .absent => some .absent
  | .next => some .next
  | .number digits => some (.number (numberValue digits))
  | .fill _ => none

def reading? : Parameter → Option Reading
  | .absent => none
  | .next => some .next
  | .number digits => some (.number (numberValue digits))
  | .fill c => some (.fill c)

def fill? : Parameter → Option Char
  | .absent => some ' '
  | .fill c => some c
  | _ => none

end Parameter

namespace Directive

def plain (d : Directive) (command : Command) : Command :=
  if d.parameter = .absent then command else .unknown

def counted (d : Directive) (command : Count → Command) : Command :=
  match d.parameter.count? with
  | some count => command count
  | none => .unknown

def filled (d : Directive) (command : Char → Command) : Command :=
  match d.parameter.fill? with
  | some fill => command fill
  | none => .unknown

def command (d : Directive) : Command :=
  match d.letter with
  | some 'w' => d.plain (.write false)
  | some 'q' => d.plain (.write true)
  | some 'a' => d.plain .atomic
  | some 's' => d.plain .chars
  | some 'd' => d.counted (.decimal false)
  | some 'D' => d.counted (.decimal true)
  | some 'f' => d.counted .float
  | some 'i' => d.plain .ignore
  | some 'n' => d.counted .newlines
  | some '|' => d.counted .column
  | some '+' => d.counted .relativeColumn
  | some 't' => d.filled .glue
  | _ => .unknown

end Directive

def Command.label : Command → Text
  | .write false => "Write"
  | .write true => "Quoted"
  | .atomic => "Atomic"
  | .chars => "CharList"
  | .decimal false _ => "Decimal"
  | .decimal true _ => "GroupedDecimal"
  | .float _ => "Float"
  | .ignore => "Ignore"
  | .newlines _ => "Newline"
  | .column _ => "ColumnStop"
  | .relativeColumn _ => "RelativeStop"
  | .glue _ => "Fill"
  | .unknown => "Unknown"

end LogicFormat
