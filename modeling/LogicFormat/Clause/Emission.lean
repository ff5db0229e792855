import LogicFormat.Control.Format
import LogicFormat.Term.Written

/-!
# Emissions

Text that is written piece by piece until a fault stops it. What was written before the fault
stays; nothing is written after it. The pieces of a clause are its marks: blanks from the column
at which the text stands to the one at which it is to go on, fixed text, and terms.
-/

namespace LogicFormat

structure Emission where
  text : Text
  fault : Option Fault
  deriving DecidableEq

namespace Emission

def ofText (text : Text) : Emission := ⟨text, none⟩

/-- A fault before anything is written. -/
def stopped (fault : Fault) : Emission := ⟨[], some fault⟩

def ofExcept : Except Fault Text → Emission
  | .ok text => .ofText text
  | .error fault => .stopped fault

/-- The second emission follows, unless the first was stopped. -/
def andThen (first second : Emission) : Emission :=
  match first.fault with
  | some fault => ⟨first.text, some fault⟩
  | none => ⟨first.text ++ second.text, second.fault⟩

instance : Append Emission := ⟨andThen⟩

/-- The text of an emission that came to its end. -/
def result (e : Emission) : Except Fault Text :=
  match e.fault with
  | some fault => .error fault
  | none => .ok e.text

theorem andThen_assoc (a b c : Emission) :
    (a.andThen b).andThen c = a.andThen (b.andThen c) := by
  obtain ⟨s, f⟩ := a
  obtain ⟨t, g⟩ := b
  cases f with
  | some fault => rfl
  | none =>
      cases g with
      | some fault => rfl
      | none => simp [andThen]

theorem append_assoc (a b c : Emission) : a ++ b ++ c = a ++ (b ++ c) := andThen_assoc a b c

@[simp] theorem ofText_nil_append (e : Emission) : ofText [] ++ e = e := rfl

@[simp] theorem result_ofExcept (outcome : Except Fault Text) :
    (ofExcept outcome).result = outcome := by
  cases outcome <;> rfl

theorem append_eq_ofText {a b : Emission} {text : Text} :
    a ++ b = ofText text ↔
      ∃ front back, a = ofText front ∧ b = ofText back ∧ text = front ++ back := by
  constructor
  · intro whole
    obtain ⟨front, fault⟩ := a
    obtain ⟨back, fault'⟩ := b
    cases fault with
    | some fault => cases whole
    | none =>
        cases whole
        exact ⟨front, back, rfl, rfl, rfl⟩
  · rintro ⟨front, back, rfl, rfl, rfl⟩
    rfl

theorem result_eq_ok {e : Emission} {text : Text} : e.result = .ok text ↔ e = ofText text := by
  obtain ⟨shown, fault⟩ := e
  cases fault <;> simp [result, ofText]

end Emission

/-! ## Marks -/

inductive Mark where
  | indent (column target : Int)
  | chars (text : Text)
  | term (t : Term)

namespace Mark

/-- Blanks are glue stretched up to a tab stop. -/
def blanks (n : Int) : Except Fault Text := Control.format "~t~*|" [.int n]

def emission (names : Naming) : Mark → Emission
  | .indent column target => .ofExcept (blanks (target - column))
  | .chars text => .ofText text
  | .term t => .ofExcept (t.write ⟨true, names⟩)

def emitAll (names : Naming) : List Mark → Emission
  | [] => .ofText []
  | mark :: rest => mark.emission names ++ emitAll names rest

@[simp] theorem emitAll_nil (names : Naming) : emitAll names [] = .ofText [] := rfl

@[simp] theorem emitAll_cons (names : Naming) (mark : Mark) (rest : List Mark) :
    emitAll names (mark :: rest) = mark.emission names ++ emitAll names rest := rfl

theorem emitAll_append (names : Naming) (first second : List Mark) :
    emitAll names (first ++ second) = emitAll names first ++ emitAll names second := by
  induction first with
  | nil => exact (Emission.ofText_nil_append _).symm
  | cons mark rest ih =>
      rw [List.cons_append, emitAll_cons, emitAll_cons, ih, Emission.append_assoc]

end Mark

end LogicFormat
