import LogicFormat.Atom

/-!
# Texts free of a class

A text is free of a class of characters if none of them stands in it. The classes of interest hold
control characters only, which nobody writes on purpose.
-/

namespace LogicFormat.Text

def Free (p : Char → Bool) (text : Text) : Prop := ∀ c ∈ text, p c = false

def isControl (c : Char) : Bool := c.toNat < 32 || c.toNat = 127

/-- Nothing but control characters belongs to the class. -/
def OfControls (p : Char → Bool) : Prop := ∀ c, isControl c = false → p c = false

variable {p : Char → Bool} {first second : Text} {c : Char}

instance (text : Text) : Decidable (Free p text) :=
  decidable_of_iff (text.all (fun c => !p c) = true) (by simp [Free])

theorem free_nil : Free p [] := fun _ hc => absurd hc List.not_mem_nil

theorem free_append : Free p (first ++ second) ↔ Free p first ∧ Free p second :=
  List.forall_mem_append

theorem free_cons : Free p (c :: first) ↔ p c = false ∧ Free p first := List.forall_mem_cons

theorem Free.mono (h : Free isControl first) (controls : OfControls p) : Free p first :=
  fun c hc => controls c (h c hc)

theorem free_enclosed {left right : Char} (hleft : p left = false) (hright : p right = false)
    (h : Free p first) : Free p (left :: first ++ [right]) :=
  free_cons.mpr ⟨hleft, free_append.mpr ⟨h, free_cons.mpr ⟨hright, free_nil⟩⟩⟩

theorem free_intercalate {separator : Text} (free : Free p separator) {parts : List Text}
    (each : ∀ part ∈ parts, Free p part) : Free p (separator.intercalate parts) := by
  induction parts with
  | nil => exact free_nil
  | cons part parts ih =>
      rw [List.forall_mem_cons] at each
      cases parts with
      | nil =>
          rw [List.intercalate_singleton]
          exact each.1
      | cons next parts =>
          rw [List.intercalate_cons_cons, free_append, free_append]
          exact ⟨⟨each.1, free⟩, ih each.2⟩

/-- The control characters are found among the first 128, and none of them is part of a word or a
symbol. -/
theorem control_table : ∀ n < 128, isControl (Char.ofNat n) = true →
    Atom.isWordChar (Char.ofNat n) = false ∧ Atom.isSymbolChar (Char.ofNat n) = false := by
  decide

theorem apart_of_isControl (h : isControl c = true) :
    Atom.isWordChar c = false ∧ Atom.isSymbolChar c = false := by
  have low : c.toNat < 128 := by
    simp only [isControl, Bool.or_eq_true, decide_eq_true_eq] at h
    omega
  rw [← Char.ofNat_toNat c] at h ⊢
  exact control_table c.toNat low h

theorem free_word (h : ∀ c ∈ first, Atom.isWordChar c = true) : Free isControl first :=
  fun c hc => Bool.eq_false_iff.mpr fun control =>
    Bool.eq_false_iff.mp (apart_of_isControl control).1 (h c hc)

theorem free_symbol (h : ∀ c ∈ first, Atom.isSymbolChar c = true) : Free isControl first :=
  fun c hc => Bool.eq_false_iff.mpr fun control =>
    Bool.eq_false_iff.mp (apart_of_isControl control).2 (h c hc)

theorem free_letters (h : ∀ c ∈ first, c.isAlpha = true) : Free isControl first :=
  free_word fun c hc => by simp [Atom.isWordChar, Char.isAlphanum, h c hc]

theorem free_digits (h : ∀ c ∈ first, c.isDigit = true) : Free isControl first :=
  free_word fun c hc => by simp [Atom.isWordChar, Char.isAlphanum, h c hc]

end LogicFormat.Text
