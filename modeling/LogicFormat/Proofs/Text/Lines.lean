import LogicFormat.Text

/-!
# Lines of a page

The column at which a page stands is the number of characters behind its last newline. A line
break is a newline with the blanks behind it. Without its line breaks, a text is one line.
-/

namespace LogicFormat

namespace Text

def column (page : Text) : Nat := (page.reverse.takeWhile (· ≠ '\n')).length

def OneLine (text : Text) : Prop := '\n' ∉ text

instance (text : Text) : Decidable (OneLine text) := inferInstanceAs (Decidable ('\n' ∉ text))

variable {text : Text} {c : Char}

theorem oneLine_nil : OneLine [] := List.not_mem_nil

@[simp] theorem oneLine_cons : OneLine (c :: text) ↔ '\n' ≠ c ∧ OneLine text := by
  simp [OneLine]

theorem column_append (page : Text) {text : Text} (h : OneLine text) :
    (page ++ text).column = page.column + text.length := by
  have all : ∀ c ∈ text.reverse, decide (c ≠ '\n') = true := by
    intro c hc
    rw [List.mem_reverse] at hc
    exact decide_eq_true fun same => h (same ▸ hc)
  rw [column, List.reverse_append, List.takeWhile_append_of_pos all, List.length_append,
    List.length_reverse, Nat.add_comm, column]

theorem column_append_newline (page : Text) : (page ++ ['\n']).column = 0 := by
  simp [column]

/-! ## Line breaks -/

/-- The text without its line breaks, of which the last may have blanks at the front of the text
if the text is `behind` it. -/
def unbrokenFrom : Bool → Text → Text
  | _, [] => []
  | behind, c :: rest =>
      if c = '\n' || behind && c = ' ' then unbrokenFrom true rest
      else c :: unbrokenFrom false rest

def unbroken (text : Text) : Text := unbrokenFrom false text

theorem unbrokenFrom_blanks (n : Nat) (rest : Text) :
    unbrokenFrom true (List.replicate n ' ' ++ rest) = unbrokenFrom true rest := by
  induction n with
  | zero => rfl
  | succ n ih => exact ih

theorem unbrokenFrom_line {text : Text} (one : OneLine text) (rest : Text) :
    unbrokenFrom false (text ++ rest) = text ++ unbrokenFrom false rest := by
  induction text with
  | nil => rfl
  | cons c text ih =>
      rw [oneLine_cons] at one
      have kept : ¬ (c = '\n' || false && c = ' ') = true := by simp [Ne.symm one.1]
      rw [List.cons_append, unbrokenFrom, if_neg kept, ih one.2, List.cons_append]

/-- A line that does not begin with a blank is kept, whether or not it is behind a line break. -/
theorem unbrokenFrom_start {c : Char} {text : Text} (one : OneLine (c :: text)) (start : c ≠ ' ')
    (behind : Bool) (rest : Text) :
    unbrokenFrom behind (c :: text ++ rest) = c :: text ++ unbrokenFrom false rest := by
  rw [oneLine_cons] at one
  have kept : ¬ (c = '\n' || behind && c = ' ') = true := by simp [Ne.symm one.1, start]
  rw [List.cons_append, unbrokenFrom, if_neg kept, unbrokenFrom_line one.2, List.cons_append]

example : unbroken "h :-\n   a,\n   b.\n".toList = "h :-a,b.".toList := by decide

end Text

end LogicFormat
