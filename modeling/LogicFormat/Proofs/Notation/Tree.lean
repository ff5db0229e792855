import LogicFormat.Term.Written
import LogicFormat.Proofs.Notation.Token
import LogicFormat.Proofs.Operator

/-!
# Notation trees

A notation tree is a term together with the way it is written: which of its compound terms
are operations, which of its parts stand in brackets and which of its lists are strings. The
operands of an operation have to bind tightly enough for their places.
-/

namespace LogicFormat

inductive Tree where
  | var (n : Nat)
  | int (n : Nat)
  | atom (name : Text)
  | chars (text : Text)
  | list (first : Tree) (others : List Tree)
  | braced (inside : Tree)
  | applied (name : Text) (first : Tree) (others : List Tree)
  | bracketed (inside : Tree)
  | before (op : UnaryOperator) (operand : Tree)
  | between (op : BinaryOperator) (left right : Tree)

namespace Tree

mutual

def term : Tree → Term
  | .var n => .var n
  | .int n => .int n
  | .atom name => .atom name
  | .chars text => .list (text.map fun c => .atom [c])
  | .list first others => .list (first.term :: terms others)
  | .braced inside => .compound ['\x7b', '\x7d'] inside.term []
  | .applied name first others => .compound name first.term (terms others)
  | .bracketed inside => inside.term
  | .before op operand => .compound op.name operand.term []
  | .between op left right => .compound op.name left.term [right.term]

def terms : List Tree → List Term
  | [] => []
  | t :: ts => t.term :: terms ts

end

theorem terms_eq_map (ts : List Tree) : terms ts = ts.map term := by
  induction ts with
  | nil => rfl
  | cons t ts ih => simp [terms, ih]

def level : Tree → Nat
  | .before op _ => op.level
  | .between op _ _ => op.level
  | _ => 0

def isNumeral : Tree → Bool
  | .int _ => true
  | _ => false

def isOperator : Tree → Bool
  | .atom name => Operator.isOperator name
  | _ => false

def simple : Tree → Bool
  | .before _ _ => false
  | .between _ _ _ => false
  | _ => true

/-! ## Tokens -/

def gap (needed : Bool) : List Token := if needed then [.blank] else []

def sign (op : BinaryOperator) : Token :=
  if op.name = [','] then .comma else if op.name = ['|'] then .bar else .atom op.name

def spacedBefore (op : UnaryOperator) (numeral : Bool) (operand : Text) : Bool :=
  numeral || operand.head? = some '(' || Atom.fuses (Atom.quoted op.name) operand

def tokensBetween (op : BinaryOperator) (left right : List Token) : List Token :=
  let sign := sign op
  let word := Atom.isWord sign.text
  left ++ gap (word || Atom.fuses (Token.render left) sign.text) ++
    sign :: (gap (word || Atom.fuses sign.text (Token.render right)) ++ right)

mutual

def tokens : Tree → List Token
  | .var n => [.var n]
  | .int n => [.int n]
  | .atom name => [.atom name]
  | .chars text => [.chars text]
  | .list first others => .bracketOpen :: (first.tokens ++ tokensBehind others ++ [.bracketClose])
  | .braced inside => .braceOpen :: (inside.tokens ++ [.braceClose])
  | .applied name first others =>
      .atom name :: .parenOpen :: (first.tokens ++ tokensBehind others ++ [.parenClose])
  | .bracketed inside => .parenOpen :: (inside.tokens ++ [.parenClose])
  | .before op operand =>
      .atom op.name ::
        (gap (spacedBefore op operand.isNumeral (Token.render operand.tokens)) ++ operand.tokens)
  | .between op left right => tokensBetween op left.tokens right.tokens

def tokensBehind : List Tree → List Token
  | [] => []
  | t :: ts => .comma :: (t.tokens ++ tokensBehind ts)

end

/-! ## Well-formed trees -/

/-- Whether a tree can stand beside an operator that admits terms up to `bound`. -/
def Suits (bound : Int) (t : Tree) : Prop := t.level ≤ bound ∧ t.isOperator = false

inductive WellFormed : Tree → Prop where
  | var (n : Nat) : WellFormed (.var n)
  | int (n : Nat) : WellFormed (.int n)
  | atom (name : Text) : WellFormed (.atom name)
  | chars (text : Text) : WellFormed (.chars text)
  | list {first : Tree} {others : List Tree} (formed : ∀ t ∈ first :: others, WellFormed t)
      (tight : ∀ t ∈ first :: others, (t.level : Int) ≤ argumentLevel) :
      WellFormed (.list first others)
  | braced {inside : Tree} (formed : WellFormed inside) : WellFormed (.braced inside)
  | applied {name : Text} {first : Tree} {others : List Tree}
      (formed : ∀ t ∈ first :: others, WellFormed t)
      (tight : ∀ t ∈ first :: others, (t.level : Int) ≤ argumentLevel) :
      WellFormed (.applied name first others)
  | bracketed {inside : Tree} (formed : WellFormed inside) : WellFormed (.bracketed inside)
  | before {op : UnaryOperator} {operand : Tree} (known : op ∈ Operator.unaryOperators)
      (formed : WellFormed operand) (suits : operand.Suits (op.operand.bound op.level)) :
      WellFormed (.before op operand)
  | between {op : BinaryOperator} {left right : Tree} (known : op ∈ Operator.binaryOperators)
      (leftFormed : WellFormed left) (rightFormed : WellFormed right)
      (leftSuits : left.Suits (op.left.bound op.level))
      (rightSuits : right.Suits (op.right.bound op.level)) :
      WellFormed (.between op left right)

theorem level_of_simple {t : Tree} (h : t.simple = true) : t.level = 0 := by
  cases t <;> first | rfl | exact nomatch h

theorem level_le_termLevel {t : Tree} (formed : t.WellFormed) : (t.level : Int) ≤ termLevel := by
  cases formed with
  | before known _ _ => exact Int.ofNat_le.mpr (Operator.unary_level _ known).2
  | between known _ _ _ _ => exact Int.ofNat_le.mpr (Operator.binary_level _ known).2
  | _ => exact Int.ofNat_le.mpr (Nat.zero_le 1200)

/-! ## Operators and operands in a row -/

end Tree

inductive Symbol where
  | operand (t : Tree)
  | before (op : UnaryOperator)
  | between (op : BinaryOperator)

def Symbol.level : Symbol → Nat
  | .operand _ => 0
  | .before op => op.level
  | .between op => op.level

namespace Tree

/-- The operators and operands of a tree from left to right, nothing telling how they nest. -/
def symbols : Tree → List Symbol
  | .before op operand => .before op :: operand.symbols
  | .between op left right => left.symbols ++ .between op :: right.symbols
  | t => [.operand t]

theorem symbols_of_simple {t : Tree} (h : t.simple = true) : t.symbols = [.operand t] := by
  cases t <;> first | rfl | exact nomatch h

theorem symbols_ne_nil (t : Tree) : t.symbols ≠ [] := by
  cases t <;> simp [symbols]

theorem eq_of_symbols {s t : Tree} (h : s.symbols = [.operand t]) : s = t := by
  cases s with
  | before op operand => exact nomatch h
  | between op left right =>
      have found : Symbol.between op ∈ [Symbol.operand t] := by
        rw [← h]
        simp [symbols]
      exact nomatch List.mem_singleton.mp found
  | _ =>
      cases h
      rfl

theorem level_of_mem_symbols {t : Tree} (formed : t.WellFormed) :
    ∀ symbol ∈ t.symbols, symbol.level ≤ t.level := by
  induction formed with
  | @before op operand known formed suits ih =>
      intro symbol h
      have within := Int.le_trans suits.1 (op.operand.bound_le op.level)
      rcases List.mem_cons.mp h with rfl | h
      · exact Nat.le_refl _
      · have := ih symbol h
        simp only [level]
        omega
  | @between op left right known _ _ leftSuits rightSuits ihLeft ihRight =>
      intro symbol h
      have leftWithin := Int.le_trans leftSuits.1 (op.left.bound_le op.level)
      have rightWithin := Int.le_trans rightSuits.1 (op.right.bound_le op.level)
      simp only [level]
      rcases List.mem_append.mp h with h | h
      · have := ihLeft symbol h
        omega
      rcases List.mem_cons.mp h with rfl | h
      · exact Nat.le_refl _
      · have := ihRight symbol h
        omega
  | _ =>
      intro symbol h
      rw [List.mem_singleton.mp h]
      exact Nat.le_refl 0

/-! ## Precedence

Two operators can only nest the one way and the other if they have one level and both admit
terms of it. No two operators of the table do. -/

theorem not_crossed_before {op : UnaryOperator} {op' : BinaryOperator} {operand left : Tree}
    (known : op ∈ Operator.unaryOperators) (known' : op' ∈ Operator.binaryOperators)
    (operandFormed : operand.WellFormed) (leftFormed : left.WellFormed)
    (operandSuits : operand.Suits (op.operand.bound op.level))
    (leftSuits : left.Suits (op'.left.bound op'.level))
    (inLeft : .before op ∈ left.symbols) (inOperand : .between op' ∈ operand.symbols) : False := by
  have low : op.level ≤ left.level := level_of_mem_symbols leftFormed _ inLeft
  have low' : op'.level ≤ operand.level := level_of_mem_symbols operandFormed _ inOperand
  have crossing := Operand.equal_of_crossing (Int.le_trans (Int.ofNat_le.mpr low) leftSuits.1)
    (Int.le_trans (Int.ofNat_le.mpr low') operandSuits.1)
  exact Operator.unary_apart op known op' known' crossing.1 crossing.2.2 crossing.2.1

theorem not_crossed {op op' : BinaryOperator} {right left : Tree}
    (known : op ∈ Operator.binaryOperators) (known' : op' ∈ Operator.binaryOperators)
    (rightFormed : right.WellFormed) (leftFormed : left.WellFormed)
    (rightSuits : right.Suits (op.right.bound op.level))
    (leftSuits : left.Suits (op'.left.bound op'.level))
    (inLeft : .between op ∈ left.symbols) (inRight : .between op' ∈ right.symbols) : False := by
  have low : op.level ≤ left.level := level_of_mem_symbols leftFormed _ inLeft
  have low' : op'.level ≤ right.level := level_of_mem_symbols rightFormed _ inRight
  have crossing := Operand.equal_of_crossing (Int.le_trans (Int.ofNat_le.mpr low) leftSuits.1)
    (Int.le_trans (Int.ofNat_le.mpr low') rightSuits.1)
  exact Operator.binary_apart op known op' known' crossing.1 crossing.2.2 crossing.2.1

theorem eq_of_append_cons {left left' right right' : List Symbol} {a b : Symbol}
    (same : left ++ a :: right = left' ++ b :: right') (first : ¬ (a ∈ left' ∧ b ∈ right))
    (second : ¬ (b ∈ left ∧ a ∈ right')) : left = left' ∧ a = b ∧ right = right' := by
  rcases List.append_eq_append_iff.mp same with ⟨more, hleft, hright⟩ | ⟨more, hleft, hright⟩
  · cases more with
    | nil =>
        cases hright
        exact ⟨by simpa using hleft.symm, rfl, rfl⟩
    | cons symbol more =>
        cases hright
        exact (first (by simp [hleft])).elim
  · cases more with
    | nil =>
        cases hright
        exact ⟨by simpa using hleft, rfl, rfl⟩
    | cons symbol more =>
        cases hright
        exact (second (by simp [hleft])).elim

/-- The table of operators settles how the operators and operands of a tree nest. -/
theorem symbols_injective {s t : Tree} (hs : s.WellFormed) (ht : t.WellFormed)
    (same : s.symbols = t.symbols) : s = t := by
  induction hs generalizing t with
  | @before op operand known formed suits ih =>
      cases ht with
      | @before op' operand' known' formed' suits' =>
          simp only [symbols, List.cons.injEq, Symbol.before.injEq] at same
          rw [same.1, ih formed' same.2]
      | @between op' left right known' leftFormed _ leftSuits _ =>
          obtain ⟨symbol, rest, spelled⟩ := List.exists_cons_of_ne_nil left.symbols_ne_nil
          simp only [symbols, spelled, List.cons_append, List.cons.injEq] at same
          exact (not_crossed_before known known' formed leftFormed suits leftSuits
            (by simp [spelled, same.1]) (by simp [same.2])).elim
      | _ => exact eq_of_symbols same
  | @between op left right known leftFormed rightFormed leftSuits rightSuits ihLeft ihRight =>
      cases ht with
      | @before op' operand known' formed suits =>
          obtain ⟨symbol, rest, spelled⟩ := List.exists_cons_of_ne_nil left.symbols_ne_nil
          simp only [symbols, spelled, List.cons_append, List.cons.injEq] at same
          exact (not_crossed_before known' known formed leftFormed suits leftSuits
            (by simp [spelled, same.1]) (by simp [← same.2])).elim
      | @between op' left' right' known' leftFormed' rightFormed' leftSuits' rightSuits' =>
          have first : ¬ (.between op ∈ left'.symbols ∧ .between op' ∈ right.symbols) :=
            fun h => not_crossed known known' rightFormed leftFormed' rightSuits leftSuits' h.1 h.2
          have second : ¬ (.between op' ∈ left.symbols ∧ .between op ∈ right'.symbols) :=
            fun h => not_crossed known' known rightFormed' leftFormed rightSuits' leftSuits h.1 h.2
          obtain ⟨hleft, hop, hright⟩ := eq_of_append_cons same first second
          cases hop
          rw [ihLeft leftFormed' hleft, ihRight rightFormed' hright]
      | _ => exact eq_of_symbols same
  | _ => exact (eq_of_symbols same.symm).symm

end Tree

end LogicFormat
