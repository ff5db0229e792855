import LogicFormat.Text
import LogicFormat.Number.Numeral

/-!
# Terms

The values that are formatted, written and portrayed: logic variables, atoms, numbers, truth
values, lists and compound terms. A compound term has at least one argument, so its first
argument is kept apart from the others. A tuple is written as the list of its items but is
never equal to it; `null` is a value without a written form. In messages, atoms stand between
quotes and compound terms in a fixed notation without operators.
-/

namespace LogicFormat

inductive Term where
  | var (n : Nat)
  | atom (name : Text)
  | int (n : Int)
  | float (x : Binary64)
  | bool (b : Bool)
  | null
  | list (items : List Term)
  | tuple (items : List Term)
  | compound (name : Text) (first : Term) (others : List Term)

namespace Term

instance : Inhabited Term := ⟨.null⟩

mutual

/-- Whether two terms are built alike, numbers of different kinds being different. -/
def identical : Term → Term → Bool
  | .var m, .var n => m == n
  | .atom s, .atom t => s == t
  | .int m, .int n => m == n
  | .float x, .float y => x == y
  | .bool a, .bool b => a == b
  | .null, .null => true
  | .list xs, .list ys => allIdentical xs ys
  | .tuple xs, .tuple ys => allIdentical xs ys
  | .compound f x xs, .compound g y ys => f == g && identical x y && allIdentical xs ys
  | _, _ => false

def allIdentical : List Term → List Term → Bool
  | [], [] => true
  | x :: xs, y :: ys => identical x y && allIdentical xs ys
  | _, _ => false

end

mutual

theorem identical_iff : (s t : Term) → (identical s t = true ↔ s = t)
  | .list xs, t => by cases t <;> simp [identical, allIdentical_iff xs]
  | .tuple xs, t => by cases t <;> simp [identical, allIdentical_iff xs]
  | .compound _ x xs, t => by
      cases t <;> simp [identical, identical_iff x, allIdentical_iff xs, and_assoc]
  | .var _, t => by cases t <;> simp [identical]
  | .atom _, t => by cases t <;> simp [identical]
  | .int _, t => by cases t <;> simp [identical]
  | .float _, t => by cases t <;> simp [identical]
  | .bool _, t => by cases t <;> simp [identical]
  | .null, t => by cases t <;> simp [identical]

theorem allIdentical_iff : (xs ys : List Term) → (allIdentical xs ys = true ↔ xs = ys)
  | [], ys => by cases ys <;> simp [allIdentical]
  | x :: xs, ys => by cases ys <;> simp [allIdentical, identical_iff x, allIdentical_iff xs]

end

instance : DecidableEq Term := fun s t => decidable_of_iff _ (identical_iff s t)

def children : Term → List Term
  | .list items => items
  | .tuple items => items
  | .compound _ first others => first :: others
  | _ => []

def items? : Term → Option (List Term)
  | .list items => some items
  | .tuple items => some items
  | _ => none

def int? : Term → Option Int
  | .int n => some n
  | _ => none

def char? : Term → Option Char
  | .atom [c] => some c
  | _ => none

/-- The text of an atom, or of a sequence of one-character atoms. -/
def text? : Term → Option Text
  | .atom name => some name
  | .list items => items.mapM char?
  | .tuple items => items.mapM char?
  | _ => none

mutual

def size : Term → Nat
  | .list items => totalSize items + 1
  | .tuple items => totalSize items + 1
  | .compound _ first others => size first + totalSize others + 1
  | _ => 1

def totalSize : List Term → Nat
  | [] => 0
  | t :: ts => size t + totalSize ts

end

@[simp] theorem totalSize_nil : totalSize [] = 0 := rfl

@[simp] theorem totalSize_cons (t : Term) (ts : List Term) :
    totalSize (t :: ts) = t.size + totalSize ts := rfl

@[simp] theorem totalSize_append (ts us : List Term) :
    totalSize (ts ++ us) = totalSize ts + totalSize us := by
  induction ts with
  | nil => simp
  | cons t ts ih => simp [ih, Nat.add_assoc]

theorem totalSize_children (t : Term) : totalSize t.children < t.size := by
  cases t <;> simp [children, size]

/-! ## Displayed terms -/

def displayVar (n : Nat) : Text := '_' :: Numeral.ofNat n

def displayBool (b : Bool) : Text := if b then "True" else "False"

/-- A comma tells the tuple of one item from a term in brackets. -/
def displayTuple : List Text → Text
  | [item] => "(" ++ item ++ ",)"
  | items => "(" ++ Text.listed items ++ ")"

mutual

def display : Term → Text
  | .var n => displayVar n
  | .atom name => name.display
  | .int n => Numeral.ofInt n
  | .float x => Numeral.ofDouble .message x
  | .bool b => displayBool b
  | .null => "None"
  | .list items => "[" ++ Text.listed (displayAll items) ++ "]"
  | .tuple items => displayTuple (displayAll items)
  | .compound name first others =>
      "Struct(" ++ Text.listed (name.display :: first.display :: displayAll others) ++ ")"

def displayAll : List Term → List Text
  | [] => []
  | t :: ts => t.display :: displayAll ts

end

end Term

end LogicFormat
