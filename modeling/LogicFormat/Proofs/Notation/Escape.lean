import LogicFormat.Atom
import LogicFormat.Proofs.Text.Runs

/-!
# Escapes are undone

A text between quotes is read back up to its closing quote, whatever stands behind it.
-/

namespace LogicFormat.Atom

def isHexDigit (c : Char) : Bool := c.isDigit || ('a'.toNat ≤ c.toNat && c.toNat ≤ 'f'.toNat)

def hexDigitValue (c : Char) : Nat :=
  if c.isDigit then c.toNat - '0'.toNat else c.toNat - 'a'.toNat + 10

def hexValue (digits : Text) : Nat :=
  digits.foldl (fun value c => 16 * value + hexDigitValue c) 0

/-- The character of an escape whose backslash is read already, and the rest. -/
def unescape : Text → Option (Char × Text)
  | '\\' :: rest => some ('\\', rest)
  | '\x27' :: rest => some ('\x27', rest)
  | '"' :: rest => some ('"', rest)
  | 'n' :: rest => some ('\n', rest)
  | 't' :: rest => some ('\t', rest)
  | 'a' :: rest => some ('\x07', rest)
  | 'b' :: rest => some ('\x08', rest)
  | 'f' :: rest => some ('\x0c', rest)
  | 'r' :: rest => some ('\r', rest)
  | 'v' :: rest => some ('\x0b', rest)
  | '0' :: '\\' :: rest => some ('\x00', rest)
  | 'x' :: rest =>
      match rest.dropWhile isHexDigit with
      | '\\' :: more => some (Char.ofNat (hexValue (rest.takeWhile isHexDigit)), more)
      | _ => none
  | _ => none

theorem length_unescape {text rest : Text} {c : Char} (h : unescape text = some (c, rest)) :
    rest.length < text.length := by
  unfold unescape at h
  split at h
  case h_12 digits =>
    split at h
    · next more heq =>
        cases h
        have := (List.dropWhile_sublist isHexDigit (l := digits)).length_le
        rw [heq] at this
        simp only [List.length_cons] at this ⊢
        omega
    · exact nomatch h
  case h_13 => exact nomatch h
  all_goals
    cases h
    simp only [List.length_cons]
    omega

/-- A text up to its closing quote, its opening quote being read already, and the rest. -/
def readQuoted (quote : Char) : Text → Option (Text × Text)
  | [] => none
  | c :: text =>
      if c = quote then some ([], text)
      else if c = '\\' then
        match _h : unescape text with
        | none => none
        | some (unescaped, rest) =>
            (readQuoted quote rest).map fun read => (unescaped :: read.1, read.2)
      else (readQuoted quote text).map fun read => (c :: read.1, read.2)
termination_by text => text.length
decreasing_by
  · have := length_unescape _h
    simp only [List.length_cons]
    omega
  · simp

theorem readQuoted_quote (quote : Char) (rest : Text) :
    readQuoted quote (quote :: rest) = some ([], rest) := by
  rw [readQuoted, if_pos rfl]

theorem readQuoted_backslash {quote c : Char} {text rest : Text} (hquote : quote ≠ '\\')
    (h : unescape text = some (c, rest)) :
    readQuoted quote ('\\' :: text) =
      (readQuoted quote rest).map fun read => (c :: read.1, read.2) := by
  rw [readQuoted, if_neg hquote.symm, if_pos rfl]
  split
  · next none => exact nomatch h.symm.trans none
  · next some =>
      cases h.symm.trans some
      rfl

theorem readQuoted_plain {quote c : Char} (rest : Text) (hquote : c ≠ quote)
    (hbackslash : c ≠ '\\') :
    readQuoted quote (c :: rest) =
      (readQuoted quote rest).map fun read => (c :: read.1, read.2) := by
  rw [readQuoted, if_neg hquote, if_neg hbackslash]

theorem hexadecimal_control : ∀ n < 128, (Text.hexadecimal 1 n).all isHexDigit = true ∧
    hexValue (Text.hexadecimal 1 n) = n := by
  decide

theorem unescape_hexadecimal {c : Char} (hc : c.toNat < 128) (rest : Text) :
    unescape ('x' :: (Text.hexadecimal 1 c.toNat ++ '\\' :: rest)) = some (c, rest) := by
  obtain ⟨digits, value⟩ := hexadecimal_control c.toNat hc
  rw [List.all_eq_true] at digits
  have ends : Text.Ends isHexDigit ('\\' :: rest) := Text.ends_cons.mpr rfl
  simp only [unescape, Text.dropWhile_run digits ends, Text.takeWhile_run digits ends, value]
  rw [Char.ofNat_toNat]

/-- What is written for a character between quotes is read as that character. -/
theorem readQuoted_escaped {quote : Char} (hquote : quote = '\x27' ∨ quote = '"') (c : Char)
    (rest : Text) :
    readQuoted quote (escaped quote c ++ rest) =
      (readQuoted quote rest).map fun read => (c :: read.1, read.2) := by
  have notBackslash : quote ≠ '\\' := by
    rcases hquote with rfl | rfl <;> decide
  unfold escaped
  split
  · next h =>
      refine readQuoted_backslash notBackslash ?_
      rcases hquote with rfl | rfl <;> simp at h <;> rcases h with rfl | rfl <;> rfl
  · next quote =>
      -- one of the eight characters with an escape of their own
      iterate 8
        split
        · next h => subst h; exact readQuoted_backslash notBackslash rfl
      split
      · next control =>
          have low : c.toNat < 128 := by
            simp only [Bool.or_eq_true, decide_eq_true_eq] at control
            omega
          have spelled : "\\x".toList ++ Text.hexadecimal 1 c.toNat ++ "\\".toList ++ rest =
              '\\' :: 'x' :: (Text.hexadecimal 1 c.toNat ++ '\\' :: rest) := by
            simp
          rw [spelled]
          exact readQuoted_backslash notBackslash (unescape_hexadecimal low rest)
      · simp only [Bool.or_eq_true, decide_eq_true_eq, not_or] at quote
        exact readQuoted_plain rest quote.1 quote.2

theorem readQuoted_between {quote : Char} (hquote : quote = '\x27' ∨ quote = '"')
    (text rest : Text) :
    readQuoted quote (text.flatMap (escaped quote) ++ quote :: rest) = some (text, rest) := by
  induction text with
  | nil => exact readQuoted_quote quote rest
  | cons c text ih =>
      rw [List.flatMap_cons, List.append_assoc, readQuoted_escaped hquote, ih]
      rfl

end LogicFormat.Atom
