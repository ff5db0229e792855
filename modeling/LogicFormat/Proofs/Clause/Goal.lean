import LogicFormat.Term.Goals
import LogicFormat.Proofs.Term.Renaming

/-!
# Goals and their terms

A body is taken apart at its connectives and nowhere else, so that the goal still tells the term it
is laid out for, whatever the variables of the term are.
-/

namespace LogicFormat

/-- A change of terms that changes a compound term with two arguments inside these alone, and makes
nothing else into one. -/
structure Term.KeepsPairs (f : Term → Term) : Prop where
  pair : ∀ name first second,
    f (.compound name first [second]) = .compound name (f first) [f second]
  reflects : ∀ {t name first second}, f t = .compound name first [second] →
    ∃ first' second', t = .compound name first' [second']

theorem Term.keepsPairs_rename (r : Nat → Nat) : KeepsPairs (rename r) where
  pair name first second := by rw [rename, renameAll, renameAll]
  reflects {t name first second} h := by
    cases t with
    | compound name' first' others =>
        rw [rename, renameAll_eq_map, compound.injEq] at h
        obtain ⟨rfl, -, others⟩ := h
        obtain ⟨second', rfl, -⟩ := List.map_eq_singleton_iff.mp others
        exact ⟨first', second', rfl⟩
    | _ =>
        rw [rename] at h
        cases h

namespace Goal

theorem ofTerm_both (first second : Term) :
    ofTerm (.compound [','] first [second]) = .both (ofTerm first) (ofTerm second) :=
  (ofTerm.eq_def _).trans (if_pos rfl)

theorem ofTerm_conditional (condition consequence other : Term) :
    ofTerm (.compound [';'] (.compound ['-', '>'] condition [consequence]) [other]) =
      .conditional (ofTerm condition) (ofTerm consequence) (ofTerm other) := by
  simp [ofTerm]

theorem ofTerm_either {first second : Term}
    (plain : ∀ condition consequence,
      first = .compound ['-', '>'] condition [consequence] → False) :
    ofTerm (.compound [';'] first [second]) = .either (ofTerm first) (ofTerm second) := by
  rw [ofTerm.eq_def]
  dsimp only
  rw [if_neg (by decide), if_pos rfl]
  split
  · next arrow condition consequence =>
      split
      · next isArrow => exact absurd (isArrow ▸ rfl) (plain condition consequence)
      · rfl
  · rfl

theorem ofTerm_literal {t : Term} (notBoth : ∀ a b, t = .compound [','] a [b] → False)
    (notEither : ∀ a b, t = .compound [';'] a [b] → False) : ofTerm t = .literal t := by
  rw [ofTerm.eq_def]
  split
  · next name first second =>
      rw [if_neg, if_neg]
      · rintro rfl
        exact notEither first second rfl
      · rintro rfl
        exact notBoth first second rfl
  · rfl

/-- Induction along the connectives at which a body is taken apart. -/
theorem ofTerm_induction {motive : Term → Prop}
    (both : ∀ first second, motive first → motive second → motive (.compound [','] first [second]))
    (conditional : ∀ condition consequence other, motive condition → motive consequence →
      motive other →
        motive (.compound [';'] (.compound ['-', '>'] condition [consequence]) [other]))
    (either : ∀ first second, (∀ condition consequence,
        first = .compound ['-', '>'] condition [consequence] → False) →
      motive first → motive second → motive (.compound [';'] first [second]))
    (literal : ∀ t, (∀ a b, t = .compound [','] a [b] → False) →
      (∀ a b, t = .compound [';'] a [b] → False) → motive t)
    (t : Term) : motive t := by
  have along (part : Term) (_ : sizeOf part < sizeOf t) : motive part :=
    ofTerm_induction both conditional either literal part
  have left (name : Text) (a b : Term) : sizeOf a < sizeOf (Term.compound name a [b]) := by
    simp
    omega
  have right (name : Text) (a b : Term) : sizeOf b < sizeOf (Term.compound name a [b]) := by
    simp
    omega
  by_cases isBoth : ∃ a b, t = .compound [','] a [b]
  · obtain ⟨a, b, rfl⟩ := isBoth
    exact both a b (along a (left _ a b)) (along b (right _ a b))
  · by_cases isEither : ∃ a b, t = .compound [';'] a [b]
    · obtain ⟨a, b, rfl⟩ := isEither
      by_cases isArrow : ∃ c d, a = .compound ['-', '>'] c [d]
      · obtain ⟨c, d, rfl⟩ := isArrow
        exact conditional c d b (along c (Nat.lt_trans (left _ c d) (left _ _ b)))
          (along d (Nat.lt_trans (right _ c d) (left _ _ b))) (along b (right _ _ b))
      · exact either a b (fun c d h => isArrow ⟨c, d, h⟩) (along a (left _ a b))
          (along b (right _ a b))
    · exact literal t (fun a b h => isBoth ⟨a, b, h⟩) fun a b h => isEither ⟨a, b, h⟩

/-- The term that is laid out as the goal. -/
def term : Goal → Term
  | .literal t => t
  | .both first second => .compound [','] first.term [second.term]
  | .either first second => .compound [';'] first.term [second.term]
  | .conditional condition consequence other =>
      .compound [';'] (.compound ['-', '>'] condition.term [consequence.term]) [other.term]

theorem term_ofTerm (t : Term) : (ofTerm t).term = t := by
  induction t using ofTerm_induction with
  | both first second ihFirst ihSecond => rw [ofTerm_both, term, ihFirst, ihSecond]
  | conditional condition consequence other ihCondition ihConsequence ihOther =>
      rw [ofTerm_conditional, term, ihCondition, ihConsequence, ihOther]
  | either first second plain ihFirst ihSecond =>
      rw [ofTerm_either plain, term, ihFirst, ihSecond]
  | literal t notBoth notEither => rw [ofTerm_literal notBoth notEither, term]

def map (f : Term → Term) : Goal → Goal
  | .literal t => .literal (f t)
  | .both first second => .both (first.map f) (second.map f)
  | .either first second => .either (first.map f) (second.map f)
  | .conditional condition consequence other =>
      .conditional (condition.map f) (consequence.map f) (other.map f)

/-- The connectives of a body stay where they are. -/
theorem ofTerm_map {f : Term → Term} (keeps : Term.KeepsPairs f) (t : Term) :
    ofTerm (f t) = (ofTerm t).map f := by
  induction t using ofTerm_induction with
  | both first second ihFirst ihSecond =>
      rw [keeps.pair, ofTerm_both, ofTerm_both, ihFirst, ihSecond, map]
  | conditional condition consequence other ihCondition ihConsequence ihOther =>
      rw [keeps.pair, keeps.pair, ofTerm_conditional, ofTerm_conditional, ihCondition,
        ihConsequence, ihOther, map]
  | either first second plain ihFirst ihSecond =>
      rw [keeps.pair, ofTerm_either, ofTerm_either plain, ihFirst, ihSecond, map]
      intro condition consequence same
      obtain ⟨condition', consequence', rfl⟩ := keeps.reflects same
      rw [keeps.pair] at same
      cases same
      exact plain _ _ rfl
  | literal t notBoth notEither =>
      rw [ofTerm_literal notBoth notEither, map]
      refine ofTerm_literal (fun a b same => ?_) fun a b same => ?_
      · obtain ⟨a', b', rfl⟩ := keeps.reflects same
        exact notBoth _ _ rfl
      · obtain ⟨a', b', rfl⟩ := keeps.reflects same
        exact notEither _ _ rfl

def rename (r : Nat → Nat) : Goal → Goal
  | .literal t => .literal (t.rename r)
  | .both first second => .both (first.rename r) (second.rename r)
  | .either first second => .either (first.rename r) (second.rename r)
  | .conditional condition consequence other =>
      .conditional (condition.rename r) (consequence.rename r) (other.rename r)

theorem rename_eq_map (r : Nat → Nat) (goal : Goal) : goal.rename r = goal.map (Term.rename r) := by
  induction goal with
  | literal t => rfl
  | both first second ihFirst ihSecond => rw [rename, map, ihFirst, ihSecond]
  | either first second ihFirst ihSecond => rw [rename, map, ihFirst, ihSecond]
  | conditional condition consequence other ihCondition ihConsequence ihOther =>
      rw [rename, map, ihCondition, ihConsequence, ihOther]

theorem ofTerm_rename (r : Nat → Nat) (t : Term) : ofTerm (t.rename r) = (ofTerm t).rename r := by
  rw [rename_eq_map, ofTerm_map (Term.keepsPairs_rename r)]

end Goal

end LogicFormat
