/-!
# Text

A text is a list of characters, so that lengths and positions count characters and every
operation on text is an operation on lists. Messages show a text between quotes, with everything
that would not be seen on a page written as an escape.
-/

namespace LogicFormat

abbrev Text := List Char

instance : Coe String Text := ⟨String.toList⟩

namespace Text

def zeros (n : Nat) : Text := List.replicate n '0'

@[simp] theorem length_zeros (n : Nat) : (zeros n).length = n := List.length_replicate

/-- Lower-case hexadecimal, with leading zeros up to `width` digits. -/
def hexadecimal (width n : Nat) : Text :=
  let digits := Nat.toDigits 16 n
  zeros (width - digits.length) ++ digits

/-! ## Displayed text -/

/-- The characters above the ASCII range that leave no mark of their own: controls, separators
other than the plain space, invisible formatting characters, and private use. -/
def unseenRanges : List (Nat × Nat) :=
  [(0x7f, 0xa0), (0xad, 0xad), (0x600, 0x605), (0x61c, 0x61c), (0x6dd, 0x6dd), (0x70f, 0x70f),
    (0x890, 0x891), (0x8e2, 0x8e2), (0x1680, 0x1680), (0x180e, 0x180e), (0x2000, 0x200f),
    (0x2028, 0x202f), (0x205f, 0x206f), (0x3000, 0x3000), (0xd800, 0xf8ff), (0xfeff, 0xfeff),
    (0xfff9, 0xfffb), (0xfffe, 0xffff), (0x110bd, 0x110bd), (0x110cd, 0x110cd),
    (0x13430, 0x1343f), (0x1bca0, 0x1bca3), (0x1d173, 0x1d17a), (0xe0000, 0xe00ff),
    (0xe01f0, 0x10ffff)]

def isUnseen (c : Char) : Bool :=
  c.toNat < 0x20 || unseenRanges.any fun (first, last) => first ≤ c.toNat && c.toNat ≤ last

/-- The code of a character, behind a letter that announces how many digits it has. -/
def escapeByNumber (c : Char) : Text :=
  if c.toNat < 0x100 then "\\x" ++ hexadecimal 2 c.toNat
  else if c.toNat < 0x10000 then "\\u" ++ hexadecimal 4 c.toNat
  else "\\U" ++ hexadecimal 8 c.toNat

def displayChar (quote c : Char) : Text :=
  if c = quote || c = '\\' then ['\\', c]
  else if c = '\n' then "\\n"
  else if c = '\r' then "\\r"
  else if c = '\t' then "\\t"
  else if isUnseen c then escapeByNumber c
  else [c]

def displayQuote (text : Text) : Char :=
  if '\x27' ∈ text ∧ '"' ∉ text then '"' else '\x27'

def display (text : Text) : Text :=
  let quote := displayQuote text
  quote :: text.flatMap (displayChar quote) ++ [quote]

def listed (items : List Text) : Text := List.intercalate ", " items

end Text

end LogicFormat
