import LogicFormat.Term.Basic

/-!
# Subterms and variables

A term is searched with a list of the terms still to visit: the first of them is visited, and
its children take its place. The search meets every subterm once, parents before children and
left before right. A naming gives some of the variables met a name; the generated names run
through the alphabet, first without and then with a number behind the letter.
-/

namespace LogicFormat

namespace Term

def visit : List Term → List Term
  | [] => []
  | t :: pending => t :: visit (t.children ++ pending)
termination_by pending => totalSize pending
decreasing_by
  have := totalSize_children t
  simp only [totalSize_append, totalSize_cons]
  omega

/-- The term and everything inside it, in the order of the search. -/
def subterms (t : Term) : List Term := visit [t]

mutual

def preorder : Term → List Term
  | .list items => .list items :: preorderAll items
  | .tuple items => .tuple items :: preorderAll items
  | .compound name first others =>
      .compound name first others :: (preorder first ++ preorderAll others)
  | t => [t]

def preorderAll : List Term → List Term
  | [] => []
  | t :: ts => preorder t ++ preorderAll ts

end

def var? : Term → Option Nat
  | .var n => some n
  | _ => none

/-- The variables of a term, each once, in the order in which they first occur. -/
def vars (t : Term) : List Nat := (t.subterms.filterMap var?).eraseDups

end Term

/-! ## Names of variables -/

abbrev Naming := List (Nat × Text)

namespace Naming

/-- The last entry for a variable counts. -/
def find? : Naming → Nat → Option Text
  | [], _ => none
  | (named, name) :: rest, n =>
      match find? rest n with
      | some found => some found
      | none => if named = n then some name else none

/-- A variable without a name, or with an empty one, is written by its number. -/
def nameOf (names : Naming) (n : Nat) : Text :=
  match names.find? n with
  | some (c :: rest) => c :: rest
  | _ => Term.displayVar n

/-- The name of a number in the sequence `A`, `B`, …, `Z`, `A1`, …, `Z1`, `A2`, … -/
def generated (n : Int) : Text :=
  let letter := Char.ofNat ('A'.toNat + (n % 26).toNat)
  letter :: if n / 26 = 0 then [] else Numeral.ofInt (n / 26)

def ofTerm (t : Term) : Naming :=
  t.vars.zipIdx.map fun (n, i) => (n, generated i)

end Naming

end LogicFormat
