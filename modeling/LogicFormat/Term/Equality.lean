import LogicFormat.Fault

/-!
# Equality of terms

Terms are compared by structure, numbers by exact value whatever their kind, and truth values
as the numbers one and zero. A list never equals a tuple, and a value that is no number does
not even equal itself.

A term without lists has a hash, which is made of the hashes of its parts. A dictionary looks for a
term only among its keys of the same hash, so that a term can be dropped that is equal to one taken
in before.
-/

namespace LogicFormat

inductive Quantity where
  | finite (value : Rat)
  | infinite (negative : Bool)
  | undefined
  deriving DecidableEq

namespace Quantity

def equals : Quantity → Quantity → Bool
  | .undefined, _ => false
  | p, q => p == q

/-- A value that is no number differs from everything, itself included. -/
def differs : Quantity → Quantity → Bool
  | .undefined, _ => true
  | p, q => p != q

def ofDouble (x : Binary64) : Quantity :=
  match x.magnitude with
  | .finite significand exponent =>
      let value : Rat := significand * 2 ^ exponent
      .finite (if x.negative then -value else value)
  | .infinite => .infinite x.negative
  | .undefined => .undefined

end Quantity

namespace Term

def quantity? : Term → Option Quantity
  | .int n => some (.finite n)
  | .float x => some (.ofDouble x)
  | .bool b => some (.finite (if b then 1 else 0))
  | _ => none

def sameQuantity (s t : Term) : Bool :=
  match s.quantity?, t.quantity? with
  | some p, some q => p.equals q
  | _, _ => false

mutual

def equals : Term → Term → Bool
  | .var m, .var n => m == n
  | .atom s, .atom t => s == t
  | .null, .null => true
  | .list xs, .list ys => allEqual xs ys
  | .tuple xs, .tuple ys => allEqual xs ys
  | .compound f x xs, .compound g y ys => f == g && equals x y && allEqual xs ys
  | s, t => sameQuantity s t

def allEqual : List Term → List Term → Bool
  | [], [] => true
  | x :: xs, y :: ys => equals x y && allEqual xs ys
  | _, _ => false

end

/-- Whether two sequences are of different lengths or hold different terms at some place. -/
def anyDiffer : List Term → List Term → Bool
  | [], [] => false
  | x :: xs, y :: ys => !equals x y || anyDiffer xs ys
  | _, _ => true

/-- Whether two terms are told apart. For compound terms this is asked of their equality. -/
def differs : Term → Term → Bool
  | .var m, .var n => m != n
  | .atom s, .atom t => s != t
  | .null, .null => false
  | .list xs, .list ys => anyDiffer xs ys
  | .tuple xs, .tuple ys => anyDiffer xs ys
  | .compound f x xs, t => !equals (.compound f x xs) t
  | s, .compound f x xs => !equals (.compound f x xs) s
  | s, t =>
      match s.quantity?, t.quantity? with
      | some p, some q => p.differs q
      | _, _ => true

def firstOfEach : List Term → List Term
  | [] => []
  | t :: ts => t :: (firstOfEach ts).filter fun s => !equals t s

mutual

def holdsList : Term → Bool
  | .list _ => true
  | .tuple items => anyHoldsList items
  | .compound _ first others => holdsList first || anyHoldsList others
  | _ => false

def anyHoldsList : List Term → Bool
  | [] => false
  | t :: ts => holdsList t || anyHoldsList ts

end

/-- Terms without their duplicates. Lists are not told apart from their duplicates. -/
def distinct (ts : List Term) : Except Fault (List Term) :=
  if anyHoldsList ts then .error .listNotComparable else .ok (firstOfEach ts)

end Term

/-! ## Hashes -/

/-- Hashes of what terms are made of. A number is hashed by its exact value, whatever its kind. -/
structure Hashing where
  var : Nat → Int
  atom : Text → Int
  number : Quantity → Int
  null : Int
  tuple : List Int → Int

namespace Term

mutual

/-- Lists have no hash. A compound term is hashed as the pair of its name and its arguments. -/
def hash (hashing : Hashing) : Term → Except Fault Int
  | .var n => .ok (hashing.var n)
  | .atom name => .ok (hashing.atom name)
  | .int n => .ok (hashing.number (.finite n))
  | .float x => .ok (hashing.number (.ofDouble x))
  | .bool b => .ok (hashing.number (.finite (if b then 1 else 0)))
  | .null => .ok hashing.null
  | .list _ => .error .listNotComparable
  | .tuple items => do
      let hashes ← hashAll hashing items
      return hashing.tuple hashes
  | .compound name first others => do
      let first ← hash hashing first
      let others ← hashAll hashing others
      return hashing.tuple [hashing.atom name, hashing.tuple (first :: others)]

def hashAll (hashing : Hashing) : List Term → Except Fault (List Int)
  | [] => .ok []
  | t :: ts => do
      let first ← hash hashing t
      let rest ← hashAll hashing ts
      return first :: rest

end

end Term

abbrev Dictionary := List (Int × Term)

namespace Dictionary

def holds (keys : Dictionary) (hash : Int) (t : Term) : Bool :=
  keys.any fun key => key.1 == hash && key.2.equals t

/-- A term that is equal to a key changes nothing. -/
def insert (hashing : Hashing) (keys : Dictionary) (t : Term) : Except Fault Dictionary := do
  let hash ← t.hash hashing
  return if keys.holds hash t then keys else keys ++ [(hash, t)]

end Dictionary

def Term.distinctBy (hashing : Hashing) (ts : List Term) : Except Fault (List Term) := do
  let keys ← ts.foldlM (Dictionary.insert hashing) []
  return keys.map Prod.snd

end LogicFormat
