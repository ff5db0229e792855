import LogicFormat.Proofs.Clause.Goal
import LogicFormat.Proofs.Notation.LaidOut
import LogicFormat.Proofs.Notation.Lossless

/-!
# Association and places

The goals of conjunctions within one another are laid out in one row, which tells nothing of how the
conjunctions are put together. A goal in a row stands where an operator has it as an operand, but no
brackets are put around it there.
-/

namespace LogicFormat

namespace Operator

def conjunction : BinaryOperator := ⟨",", 1000, .tighter, .equal⟩

def disjunction : BinaryOperator := ⟨";", 1100, .tighter, .equal⟩

def implication : BinaryOperator := ⟨"->", 1050, .tighter, .equal⟩

theorem conjunction_known : conjunction ∈ binaryOperators := by decide

theorem disjunction_known : disjunction ∈ binaryOperators := by decide

theorem implication_known : implication ∈ binaryOperators := by decide

/-- Nothing else binds as loosely as a conjunction. -/
theorem eq_conjunction : ∀ op ∈ binaryOperators, op.level = 1000 → op = conjunction := by
  decide

theorem unary_not_conjunction : ∀ op ∈ unaryOperators, op.level ≠ 1000 := by
  decide

end Operator

open Operator (conjunction conjunction_known)

namespace Term

/-- The two terms are bodies that differ in how their conjunctions are put together only. -/
inductive Reassociated : Term → Term → Prop where
  | refl (t : Term) : Reassociated t t
  | symm {s t : Term} (h : Reassociated s t) : Reassociated t s
  | trans {s t u : Term} (h : Reassociated s t) (h' : Reassociated t u) : Reassociated s u
  | assoc (a b c : Term) :
      Reassociated (.compound [','] (.compound [','] a [b]) [c])
        (.compound [','] a [.compound [','] b [c]])
  | both {a a' b b' : Term} (first : Reassociated a a') (second : Reassociated b b') :
      Reassociated (.compound [','] a [b]) (.compound [','] a' [b'])
  | either {a a' b b' : Term} (first : Reassociated a a') (second : Reassociated b b') :
      Reassociated (.compound [';'] a [b]) (.compound [';'] a' [b'])
  | conditional {a a' b b' c c' : Term} (condition : Reassociated a a')
      (consequence : Reassociated b b') (other : Reassociated c c') :
      Reassociated (.compound [';'] (.compound ['-', '>'] a [b]) [c])
        (.compound [';'] (.compound ['-', '>'] a' [b']) [c'])

def functor? : Term → Option Text
  | .compound name _ _ => some name
  | _ => none

theorem Reassociated.functor {s t : Term} (h : Reassociated s t) : s.functor? = t.functor? := by
  induction h with
  | symm _ ih => exact ih.symm
  | trans _ _ ih ih' => exact ih.trans ih'
  | _ => rfl

theorem functor?_rename (r : Nat → Nat) (t : Term) : (t.rename r).functor? = t.functor? := by
  cases t <;> rw [rename] <;> rfl

theorem level_rename (r : Nat → Nat) (t : Term) : (t.rename r).level = t.level := by
  cases t with
  | compound name first others =>
      rw [rename]
      rcases others with _ | ⟨second, _ | ⟨third, others⟩⟩ <;> rfl
  | _ => simp [rename, level]

theorem isOperator_rename (r : Nat → Nat) (t : Term) : (t.rename r).isOperator = t.isOperator := by
  cases t <;> rw [rename] <;> rfl

theorem Readable.rename {t : Term} (readable : t.Readable) (r : Nat → Nat) :
    (t.rename r).Readable := by
  induction readable with
  | var n => rw [Term.rename]; exact .var _
  | atom name => rw [Term.rename]; exact .atom name
  | int nonneg => rw [Term.rename]; exact .int nonneg
  | list nonempty _ ih =>
      rw [Term.rename, renameAll_eq_map]
      exact .list (mt List.map_eq_nil_iff.mp nonempty) (List.forall_mem_map.mpr ih)
  | compound pairless _ ih =>
      rw [List.forall_mem_cons] at ih
      rw [Term.rename, renameAll_eq_map]
      refine .compound (by rwa [List.length_map]) ?_
      exact List.forall_mem_cons.mpr ⟨ih.1, List.forall_mem_map.mpr ih.2⟩

theorem readable_pair {name : Text} {first second : Term} :
    (compound name first [second]).Readable ↔
      name ≠ ['.'] ∧ first.Readable ∧ second.Readable := by
  constructor
  · intro readable
    cases readable with
    | compound pairless each =>
        exact ⟨fun point => pairless ⟨point, rfl⟩, each _ List.mem_cons_self, each _ (by simp)⟩
  · rintro ⟨named, readableFirst, readableSecond⟩
    refine .compound (fun point => named point.1) (List.forall_mem_cons.mpr ⟨readableFirst, ?_⟩)
    exact List.forall_mem_singleton.mpr readableSecond

end Term

namespace Goal

/-- Whether every goal is admitted in its place, beside a comma, an arrow or a semicolon, or as the
whole of a body no looser than `bound`: it is no operator, and it binds no more loosely than that.
Connectives are admitted everywhere, conjunctions being a row and the others having brackets. -/
def Places : Goal → Int → Prop
  | .literal t, bound => t.level ≤ bound ∧ t.isOperator = false
  | .both first second, _ => first.Places 999 ∧ second.Places 1000
  | .either first second, _ => first.Places 1099 ∧ second.Places 1100
  | .conditional condition consequence other, _ =>
      condition.Places 1049 ∧ consequence.Places 1050 ∧ other.Places 1100

instance Places.decidable : (goal : Goal) → (bound : Int) → Decidable (goal.Places bound)
  | .literal t, bound =>
      inferInstanceAs (Decidable ((t.level : Int) ≤ bound ∧ t.isOperator = false))
  | .both first second, _ =>
      have := decidable first 999
      have := decidable second 1000
      inferInstanceAs (Decidable (first.Places 999 ∧ second.Places 1000))
  | .either first second, _ =>
      have := decidable first 1099
      have := decidable second 1100
      inferInstanceAs (Decidable (first.Places 1099 ∧ second.Places 1100))
  | .conditional condition consequence other, _ =>
      have := decidable condition 1049
      have := decidable consequence 1050
      have := decidable other 1100
      inferInstanceAs (Decidable
        (condition.Places 1049 ∧ consequence.Places 1050 ∧ other.Places 1100))

theorem Places.rename {goal : Goal} {bound : Int} (h : goal.Places bound) (r : Nat → Nat) :
    (goal.rename r).Places bound := by
  induction goal generalizing bound with
  | literal t =>
      rw [Goal.rename, Places, Term.level_rename, Term.isOperator_rename]
      exact h
  | both first second ihFirst ihSecond => exact ⟨ihFirst h.1, ihSecond h.2⟩
  | either first second ihFirst ihSecond => exact ⟨ihFirst h.1, ihSecond h.2⟩
  | conditional condition consequence other ihCondition ihConsequence ihOther =>
      exact ⟨ihCondition h.1, ihConsequence h.2.1, ihOther h.2.2⟩

end Goal

namespace Tree

/-- The conjunction of two trees. The goals of the first are joined to the second one by one. -/
def conjoin : Tree → Tree → Tree
  | .between op left right, other =>
      if op = conjunction then .between op left (conjoin right other)
      else .between conjunction (.between op left right) other
  | t, other => .between conjunction t other

theorem level_conjoin (t other : Tree) : (t.conjoin other).level = 1000 := by
  fun_induction conjoin t other <;> rfl

theorem isOperator_conjoin (t other : Tree) : (t.conjoin other).isOperator = false := by
  fun_induction conjoin t other <;> rfl

theorem symbols_conjoin (t other : Tree) :
    (t.conjoin other).symbols = t.symbols ++ .between conjunction :: other.symbols := by
  fun_induction conjoin t other with
  | case1 left right other ih => simp [symbols, ih]
  | case2 => rw [symbols]
  | case3 => rw [symbols]

theorem term_conjoin (t other : Tree) :
    (Term.compound [','] t.term [other.term]).Reassociated (t.conjoin other).term := by
  fun_induction conjoin t other with
  | case1 left right other ih =>
      rw [term, term]
      exact .trans (.assoc _ _ _) (.both (.refl _) ih)
  | case2 => exact .refl _
  | case3 => exact .refl _

theorem conjunction_formed {t other : Tree} (formed : t.WellFormed) (otherFormed : other.WellFormed)
    (suits : t.Suits 1000) (otherSuits : other.Suits 1000) (apart : t.level ≠ 1000) :
    WellFormed (.between conjunction t other) := by
  refine .between conjunction_known formed otherFormed ⟨?_, suits.2⟩ otherSuits
  have level := suits.1
  show (t.level : Int) ≤ 999
  omega

theorem conjoin_formed {t other : Tree} (formed : t.WellFormed) (otherFormed : other.WellFormed)
    (suits : t.Suits 1000) (otherSuits : other.Suits 1000) : (t.conjoin other).WellFormed := by
  fun_induction conjoin t other with
  | case1 left right other ih =>
      cases formed with
      | between known leftFormed rightFormed leftSuits rightSuits =>
          refine .between known leftFormed (ih rightFormed otherFormed rightSuits otherSuits)
            leftSuits ⟨?_, isOperator_conjoin right other⟩
          rw [level_conjoin]
          exact Int.le_refl _
  | case2 op left right other apart =>
      refine conjunction_formed formed otherFormed suits otherSuits ?_
      cases formed with
      | between known _ _ _ _ => exact mt (Operator.eq_conjunction _ known) apart
  | case3 t other notBetween =>
      refine conjunction_formed formed otherFormed suits otherSuits ?_
      cases formed with
      | before known _ _ => exact Operator.unary_not_conjunction _ known
      | between _ _ _ _ _ => exact absurd rfl (notBetween _ _ _)
      | _ => exact nofun

end Tree

end LogicFormat
