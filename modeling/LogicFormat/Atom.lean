import LogicFormat.Text

/-!
# Atoms as they are read

An atom can be read back as it stands if it is a word, a run of symbol characters or one of
four atoms of their own; any other is written between single quotes, with escapes for the
characters that would end it or not be seen. A text of one-character atoms is written in the
same way between double quotes. Some atoms are written between or before their operands: a level
says how loosely such an operator binds, and an operand that binds more loosely than its place
allows is written in round brackets.
-/

namespace LogicFormat

namespace Atom

def symbolChars : Text := "#$&*+-./:<=>?@^~\\"

def isSymbolChar (c : Char) : Bool := symbolChars.contains c

def isWordChar (c : Char) : Bool := c.isAlphanum || c = '_'

/-- A lower-case letter, then letters, digits and underscores, all of them ASCII. -/
def isWord : Text → Bool
  | [] => false
  | c :: rest => c.isLower && rest.all isWordChar

/-- A run of symbol characters. A lone full stop would end the clause. -/
def isSymbol (name : Text) : Bool :=
  name ≠ [] && name.all isSymbolChar && name ≠ ['.']

def isSolo (name : Text) : Bool :=
  name = "[]" || name = "\x7b\x7d" || name = "!" || name = ";"

def needsQuotes (name : Text) : Bool := !(isSolo name || isWord name || isSymbol name)

def escaped (quote c : Char) : Text :=
  if c = quote || c = '\\' then ['\\', c]
  else if c = '\n' then "\\n"
  else if c = '\t' then "\\t"
  else if c = '\x07' then "\\a"
  else if c = '\x08' then "\\b"
  else if c = '\x0c' then "\\f"
  else if c = '\r' then "\\r"
  else if c = '\x0b' then "\\v"
  else if c = '\x00' then "\\0\\"
  else if c.toNat < 32 || c.toNat = 127 then "\\x" ++ Text.hexadecimal 1 c.toNat ++ "\\"
  else [c]

def between (quote : Char) (text : Text) : Text :=
  quote :: text.flatMap (escaped quote) ++ [quote]

def quoted (name : Text) : Text :=
  if needsQuotes name then between '\x27' name else name

/-- Whether two pieces of text written side by side would be read as one token. -/
def fuses (left right : Text) : Bool :=
  left.getLast?.any isSymbolChar && right.head?.any isSymbolChar

end Atom

/-! ## Operators -/

/-- What an operator admits as an operand: only tighter terms, or also terms of its own level. -/
inductive Operand where
  | tighter
  | equal
  deriving DecidableEq

def Operand.bound (operand : Operand) (level : Nat) : Int :=
  match operand with
  | .tighter => level - 1
  | .equal => level

structure BinaryOperator where
  name : Text
  level : Nat
  left : Operand
  right : Operand
  deriving DecidableEq

structure UnaryOperator where
  name : Text
  level : Nat
  operand : Operand
  deriving DecidableEq

namespace Operator

def nonassociative (level : Nat) (names : List Text) : List BinaryOperator :=
  names.map fun name => ⟨name, level, .tighter, .tighter⟩

def rightAssociative (level : Nat) (names : List Text) : List BinaryOperator :=
  names.map fun name => ⟨name, level, .tighter, .equal⟩

def leftAssociative (level : Nat) (names : List Text) : List BinaryOperator :=
  names.map fun name => ⟨name, level, .equal, .tighter⟩

def binaryOperators : List BinaryOperator :=
  nonassociative 1200 [":-", "-->"]
  ++ rightAssociative 1100 [";", "|"]
  ++ rightAssociative 1050 ["->", "*->"]
  ++ rightAssociative 1000 [","]
  ++ nonassociative 990 [":="]
  ++ nonassociative 700 ["=", "\\=", "==", "\\==", "@<", "@>", "@=<", "@>=", "=..", "is",
      "=:=", "=\\=", "<", ">", "=<", ">="]
  ++ rightAssociative 600 [":"]
  ++ leftAssociative 500 ["+", "-", "/\\", "\\/", "xor"]
  ++ leftAssociative 400 ["*", "/", "//", "rem", "mod", "div", "<<", ">>", "rdiv"]
  ++ nonassociative 200 ["**"]
  ++ rightAssociative 200 ["^"]

def unaryOperators : List UnaryOperator :=
  [⟨":-", 1200, .tighter⟩, ⟨"?-", 1200, .tighter⟩, ⟨"\\+", 900, .equal⟩, ⟨"-", 200, .equal⟩,
    ⟨"+", 200, .equal⟩, ⟨"\\", 200, .equal⟩]

def binary? (name : Text) : Option BinaryOperator :=
  binaryOperators.find? fun op => op.name = name

def unary? (name : Text) : Option UnaryOperator :=
  unaryOperators.find? fun op => op.name = name

def isOperator (name : Text) : Bool := (binary? name).isSome || (unary? name).isSome

end Operator

end LogicFormat
