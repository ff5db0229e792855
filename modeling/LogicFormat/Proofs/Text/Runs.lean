import LogicFormat.Text

/-!
# Runs and edges

A run of characters of one class is cut off a text where the class ends. Whether the first or the
last character of a text belongs to a class is settled by the first or the last part of the text
that is not empty.
-/

namespace LogicFormat

namespace Text

variable {p : Char → Bool} {run rest text : Text} {belongs : Bool}

/-- No character of the class stands at the front of the text. -/
def Ends (p : Char → Bool) (text : Text) : Prop := ∀ c ∈ text.head?, p c = false

theorem ends_nil : Ends p [] := fun _ h => nomatch h

theorem ends_cons {c : Char} : Ends p (c :: rest) ↔ p c = false := by
  simp [Ends]

theorem takeWhile_run (inside : ∀ c ∈ run, p c = true) (ends : Ends p rest) :
    (run ++ rest).takeWhile p = run := by
  rw [List.takeWhile_append_of_pos inside]
  cases rest with
  | nil => simp
  | cons c rest => simp [ends_cons.mp ends]

theorem dropWhile_run (inside : ∀ c ∈ run, p c = true) (ends : Ends p rest) :
    (run ++ rest).dropWhile p = rest := by
  rw [List.dropWhile_append_of_pos inside]
  cases rest with
  | nil => rfl
  | cons c rest => simp [ends_cons.mp ends]

theorem ends_dropWhile (p : Char → Bool) (text : Text) : Ends p (text.dropWhile p) := by
  induction text with
  | nil => exact ends_nil
  | cons c text ih =>
      rw [List.dropWhile_cons]
      split
      · exact ih
      · next h => exact ends_cons.mpr (by simpa using h)

/-! ## Edges -/

/-- There is a first character, and it belongs to the class or does not, as told. -/
def Begins (p : Char → Bool) (belongs : Bool) (text : Text) : Prop :=
  ∃ c rest, text = c :: rest ∧ p c = belongs

def Finishes (p : Char → Bool) (belongs : Bool) (text : Text) : Prop :=
  ∃ front c, text = front ++ [c] ∧ p c = belongs

theorem begins_cons {c : Char} (h : p c = belongs) (rest : Text) : Begins p belongs (c :: rest) :=
  ⟨c, rest, rfl, h⟩

theorem finishes_concat (front : Text) {c : Char} (h : p c = belongs) :
    Finishes p belongs (front ++ [c]) := ⟨front, c, rfl, h⟩

theorem Begins.append (h : Begins p belongs text) (rest : Text) :
    Begins p belongs (text ++ rest) := by
  obtain ⟨c, inside, rfl, same⟩ := h
  exact ⟨c, inside ++ rest, rfl, same⟩

theorem Finishes.append (front : Text) (h : Finishes p belongs text) :
    Finishes p belongs (front ++ text) := by
  obtain ⟨inside, c, rfl, same⟩ := h
  exact ⟨front ++ inside, c, (List.append_assoc front inside [c]).symm, same⟩

theorem Finishes.cons (c : Char) (h : Finishes p belongs text) : Finishes p belongs (c :: text) :=
  h.append [c]

theorem finishes_of_all (nonempty : text ≠ []) (h : ∀ c ∈ text, p c = belongs) :
    Finishes p belongs text := by
  rw [← List.dropLast_concat_getLast nonempty]
  exact finishes_concat _ (h _ (List.getLast_mem nonempty))

theorem begins_head (nonempty : text ≠ []) : Begins p (text.head?.any p) text := by
  obtain ⟨c, rest, rfl⟩ := List.exists_cons_of_ne_nil nonempty
  exact begins_cons rfl rest

theorem Finishes.ne_nil (h : Finishes p belongs text) : text ≠ [] := by
  obtain ⟨front, c, rfl, -⟩ := h
  exact List.append_ne_nil_of_right_ne_nil front (List.cons_ne_nil c [])

end Text

end LogicFormat
