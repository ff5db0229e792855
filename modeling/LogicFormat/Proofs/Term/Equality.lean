import LogicFormat.Proofs.Term.Subterms
import LogicFormat.Term.Equality
import Mathlib.Data.List.Basic

/-!
# Equality of terms is an equivalence

A term is compared by its form, in which every number is only its exact value. Terms are equal if
they have the same form, and no value in them is without a number. Where all values have one, terms
therefore fall into classes of equal terms.
-/

namespace LogicFormat

inductive Form where
  | var (n : Nat)
  | atom (name : Text)
  | number (value : Quantity)
  | null
  | list (items : List Form)
  | tuple (items : List Form)
  | compound (name : Text) (first : Form) (others : List Form)

namespace Term

mutual

def form : Term → Form
  | .var n => .var n
  | .atom name => .atom name
  | .int n => .number (.finite n)
  | .float x => .number (.ofDouble x)
  | .bool b => .number (.finite (if b then 1 else 0))
  | .null => .null
  | .list items => .list (forms items)
  | .tuple items => .tuple (forms items)
  | .compound name first others => .compound name (form first) (forms others)

def forms : List Term → List Form
  | [] => []
  | t :: ts => form t :: forms ts

end

/-- No subterm is a value without a number. -/
def Defined (t : Term) : Prop := ∀ s ∈ t.subterms, s.quantity? ≠ some .undefined

@[simp] theorem defined_var (n : Nat) : (var n).Defined := by
  simp [Defined, subterms_eq_preorder, preorder, quantity?]

@[simp] theorem defined_atom (name : Text) : (atom name).Defined := by
  simp [Defined, subterms_eq_preorder, preorder, quantity?]

@[simp] theorem defined_int (n : Int) : (int n).Defined := by
  simp [Defined, subterms_eq_preorder, preorder, quantity?]

@[simp] theorem defined_float (x : Binary64) :
    (float x).Defined ↔ Quantity.ofDouble x ≠ .undefined := by
  simp [Defined, subterms_eq_preorder, preorder, quantity?]

@[simp] theorem defined_bool (b : Bool) : (bool b).Defined := by
  simp [Defined, subterms_eq_preorder, preorder, quantity?]

@[simp] theorem defined_null : null.Defined := by
  simp [Defined, subterms_eq_preorder, preorder, quantity?]

@[simp] theorem defined_list (items : List Term) :
    (list items).Defined ↔ ∀ item ∈ items, item.Defined := by
  simp only [Defined, subterms_eq_preorder, preorder, preorderAll_eq_flatMap, List.forall_mem_cons,
    List.forall_mem_flatMap]
  exact and_iff_right (Option.some_ne_none _).symm

@[simp] theorem defined_tuple (items : List Term) :
    (tuple items).Defined ↔ ∀ item ∈ items, item.Defined := by
  simp only [Defined, subterms_eq_preorder, preorder, preorderAll_eq_flatMap, List.forall_mem_cons,
    List.forall_mem_flatMap]
  exact and_iff_right (Option.some_ne_none _).symm

@[simp] theorem defined_compound (name : Text) (first : Term) (others : List Term) :
    (compound name first others).Defined ↔
      first.Defined ∧ ∀ other ∈ others, other.Defined := by
  simp only [Defined, subterms_eq_preorder, preorder, preorderAll_eq_flatMap, List.forall_mem_cons,
    List.forall_mem_append, List.forall_mem_flatMap]
  exact and_iff_right (Option.some_ne_none _).symm

end Term

theorem Quantity.equals_iff {p q : Quantity} :
    p.equals q = true ↔ p = q ∧ p ≠ .undefined ∧ q ≠ .undefined := by
  cases p <;> cases q <;> simp [equals]

theorem Quantity.differs_eq (p q : Quantity) : p.differs q = !p.equals q := by
  cases p <;> rfl

namespace Term

mutual

/-- Terms are equal if they have one form, in which every number is known. -/
theorem equals_iff : (s t : Term) → (s.equals t = true ↔ s.form = t.form ∧ s.Defined ∧ t.Defined)
  | .list xs, t => by
      cases t <;> simp [equals, form, sameQuantity, quantity?, allEqual_iff xs]
  | .tuple xs, t => by
      cases t <;> simp [equals, form, sameQuantity, quantity?, allEqual_iff xs]
  | .compound f x xs, t => by
      cases t <;> simp [equals, form, sameQuantity, quantity?, equals_iff x, allEqual_iff xs]
      tauto
  | .var _, t => by cases t <;> simp [equals, form, sameQuantity, quantity?]
  | .atom _, t => by cases t <;> simp [equals, form, sameQuantity, quantity?]
  | .null, t => by cases t <;> simp [equals, form, sameQuantity, quantity?]
  | .int _, t => by cases t <;> simp [equals, form, sameQuantity, quantity?, Quantity.equals_iff]
  | .float _, t => by cases t <;> simp [equals, form, sameQuantity, quantity?, Quantity.equals_iff]
  | .bool _, t => by cases t <;> simp [equals, form, sameQuantity, quantity?, Quantity.equals_iff]

theorem allEqual_iff : (xs ys : List Term) → (allEqual xs ys = true ↔
    forms xs = forms ys ∧ (∀ x ∈ xs, x.Defined) ∧ ∀ y ∈ ys, y.Defined)
  | [], ys => by cases ys <;> simp [allEqual, forms]
  | x :: xs, ys => by
      cases ys <;> simp [allEqual, forms, equals_iff x, allEqual_iff xs]
      tauto

end

variable {s t u : Term}

theorem equals_refl (defined : t.Defined) : t.equals t = true :=
  (equals_iff t t).mpr ⟨rfl, defined, defined⟩

theorem equals_comm (s t : Term) : s.equals t = t.equals s := by
  rw [Bool.eq_iff_iff, equals_iff, equals_iff]
  tauto

theorem equals_trans (one : s.equals t = true) (two : t.equals u = true) : s.equals u = true := by
  obtain ⟨first, defined, -⟩ := (equals_iff s t).mp one
  obtain ⟨second, -, others⟩ := (equals_iff t u).mp two
  exact (equals_iff s u).mpr ⟨first.trans second, defined, others⟩

theorem equals_congr (same : s.equals t = true) (u : Term) : s.equals u = t.equals u := by
  rw [Bool.eq_iff_iff]
  exact ⟨equals_trans (equals_comm s t ▸ same), equals_trans same⟩

theorem anyDiffer_eq (xs ys : List Term) : anyDiffer xs ys = !allEqual xs ys := by
  induction xs generalizing ys with
  | nil => cases ys <;> rfl
  | cons x xs ih =>
      cases ys with
      | nil => rfl
      | cons y ys => rw [anyDiffer, allEqual, ih, Bool.not_and]

/-- Terms are told apart exactly if they are not equal. -/
theorem differs_eq (s t : Term) : s.differs t = !s.equals t := by
  cases s <;> cases t <;>
    simp [differs, equals, bne, anyDiffer_eq, sameQuantity, quantity?, Quantity.differs_eq]

end Term

end LogicFormat
