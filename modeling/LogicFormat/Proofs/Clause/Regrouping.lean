import LogicFormat.Clause.Printer
import LogicFormat.Term.Goals
import LogicFormat.Proofs.Clause.Association

/-!
# The nesting of conjunctions does not show

However the conjunctions of a body are put together, its goals come in the same order and each of
them belongs at the same column. A rule is therefore portrayed as with its goals in one row.
-/

namespace LogicFormat

namespace Term

namespace Reassociated

variable {s t : Term}

/-- Conjunctions are put together anew only inside conjunctions and disjunctions. -/
theorem arrow_iff (h : s.Reassociated t) {condition consequence : Term} :
    s = .compound ['-', '>'] condition [consequence] ↔
      t = .compound ['-', '>'] condition [consequence] := by
  induction h with
  | refl t => exact Iff.rfl
  | symm _ ih => exact ih.symm
  | trans _ _ ih ih' => exact ih.trans ih'
  | _ => constructor <;> intro same <;> cases same

theorem occurrences (h : s.Reassociated t) : s.occurrences = t.occurrences := by
  induction h with
  | refl t => rfl
  | symm _ ih => exact ih.symm
  | trans _ _ ih ih' => exact ih.trans ih'
  | assoc a b c => simp only [occurrences_pair, List.append_assoc]
  | both _ _ ihFirst ihSecond => rw [occurrences_pair, occurrences_pair, ihFirst, ihSecond]
  | either _ _ ihFirst ihSecond => rw [occurrences_pair, occurrences_pair, ihFirst, ihSecond]
  | conditional _ _ _ ihCondition ihConsequence ihOther =>
      simp only [occurrences_pair, ihCondition, ihConsequence, ihOther]

theorem names (h : s.Reassociated t) (head : Term) (neck : Text) :
    Naming.ofTerm (.compound neck head [s]) = Naming.ofTerm (.compound neck head [t]) := by
  rw [Naming.ofTerm, Naming.ofTerm, vars_eq_eraseDups, vars_eq_eraseDups, occurrences_pair,
    occurrences_pair, h.occurrences]

/-- A goal of a row comes at the same place in it, however the row is put together. -/
theorem layout (h : s.Reassociated t) (column target : Int) :
    (Goal.ofTerm s).layout column target = (Goal.ofTerm t).layout column target := by
  induction h generalizing column target with
  | refl t => rfl
  | symm _ ih => exact (ih column target).symm
  | trans _ _ ih ih' => exact (ih column target).trans (ih' column target)
  | assoc a b c =>
      simp only [Goal.ofTerm_both, Goal.layout, List.append_assoc, List.cons_append]
  | both _ _ ihFirst ihSecond =>
      rw [Goal.ofTerm_both, Goal.ofTerm_both, Goal.layout, Goal.layout, ihFirst, ihSecond]
  | @either a a' b b' first _ ihFirst ihSecond =>
      by_cases arrow : ∃ c d, a = .compound ['-', '>'] c [d]
      · -- the first branch is a conditional, and the same on both sides
        obtain ⟨c, d, isArrow⟩ := arrow
        rw [isArrow, first.arrow_iff.mp isArrow, Goal.ofTerm_conditional, Goal.ofTerm_conditional,
          Goal.layout, Goal.layout, ihSecond]
      · have plain c d (isArrow : a = .compound ['-', '>'] c [d]) : False := arrow ⟨c, d, isArrow⟩
        have plain' c d (isArrow : a' = .compound ['-', '>'] c [d]) : False :=
          arrow ⟨c, d, first.arrow_iff.mpr isArrow⟩
        rw [Goal.ofTerm_either plain, Goal.ofTerm_either plain', Goal.layout, Goal.layout, ihFirst,
          ihSecond]
  | conditional _ _ _ ihCondition ihConsequence ihOther =>
      rw [Goal.ofTerm_conditional, Goal.ofTerm_conditional, Goal.layout, Goal.layout, ihCondition,
        ihConsequence, ihOther]

end Reassociated

/-- The goals that are joined by conjunctions, from left to right. -/
def conjuncts : Term → List Term
  | .compound [','] first [second] => first.conjuncts ++ second.conjuncts
  | t => [t]

theorem conjuncts_ne_nil (t : Term) : t.conjuncts ≠ [] := by
  induction t using conjuncts.induct with
  | case1 first second ihFirst _ =>
      rw [conjuncts]
      exact List.append_ne_nil_of_left_ne_nil ihFirst _
  | case2 t notBoth =>
      rw [conjuncts]
      · exact List.cons_ne_nil t []
      · exact notBoth

theorem reassociated_append {goals others : List Term} (some : goals ≠ []) (more : others ≠ []) :
    (compound [','] (conjunction goals) [conjunction others]).Reassociated
      (conjunction (goals ++ others)) := by
  obtain ⟨other, others, rfl⟩ := List.exists_cons_of_ne_nil more
  induction goals with
  | nil => exact absurd rfl some
  | cons goal goals ih =>
      cases goals with
      | nil => exact .refl _
      | cons next goals =>
          have rest := ih (List.cons_ne_nil next goals)
          exact .trans (.assoc goal _ _) (.both (.refl goal) rest)

/-- A body is its goals in a row that is put together from the right. -/
theorem reassociated_conjuncts (t : Term) : t.Reassociated (conjunction t.conjuncts) := by
  induction t using conjuncts.induct with
  | case1 first second ihFirst ihSecond =>
      rw [conjuncts]
      exact .trans (.both ihFirst ihSecond)
        (reassociated_append first.conjuncts_ne_nil second.conjuncts_ne_nil)
  | case2 t notBoth =>
      rw [conjuncts]
      · exact .refl t
      · exact notBoth

end Term

namespace Clause

variable {head goals goals' : Term} {neck : Text}

/-- A rule is portrayed in one way, however the conjunctions of its body are put together: as with
the row of its goals put together from the right. -/
theorem portray_reassociated (rule : neck = ":-" ∨ neck = "-->")
    (alike : goals.Reassociated goals') (bodyIndent : Term) :
    portray bodyIndent (.compound neck head [goals]) =
        portray bodyIndent (.compound neck head [goals']) ∧
      portray bodyIndent (.compound neck head [goals]) =
        portray bodyIndent (.compound neck head [Term.conjunction goals.conjuncts]) := by
  have same {other : Term} (h : goals.Reassociated other) :
      portray bodyIndent (.compound neck head [goals]) =
        portray bodyIndent (.compound neck head [other]) := by
    have bodies (indent : Int) : body indent goals = body indent other := h.layout 0 indent
    rw [portray, portray, h.names, emission, emission, parts?_rule rule, parts?_rule rule]
    simp only [bodies]
  exact ⟨same alike, same goals.reassociated_conjuncts⟩

def leftBranch : Term :=
  .compound [','] (.compound [','] (.var 7)
    [.compound [';'] (.compound [','] (.compound [','] (.atom ['a']) [.var 5]) [.atom ['b']])
      [.atom ['c']]]) [.atom ['d']]

def rightBranch : Term :=
  .compound [','] (.var 7) [.compound [','] (.compound [';']
    (.compound [','] (.atom ['a']) [.compound [','] (.var 5) [.atom ['b']]])
      [.atom ['c']]) [.atom ['d']]]

theorem portray_reassociated_branch :
    leftBranch.Reassociated rightBranch ∧
      portray (.int 3) (.compound ":-" (.var 5) [leftBranch]) =
        .ok "A :-\n   B,\n   (  a,\n      A,\n      b\n   ;  c\n   ),\n   d.\n".toList ∧
      portray (.int 3) (.compound ":-" (.var 5) [leftBranch]) =
        portray (.int 3) (.compound ":-" (.var 5) [rightBranch]) ∧
      portray (.int 3) (.compound ":-" (.var 5) [leftBranch]) =
        portray (.int 3) (.compound ":-" (.var 5) [Term.conjunction leftBranch.conjuncts]) := by
  have inside := Term.Reassociated.assoc (.atom ['a']) (.var 5) (.atom ['b'])
  have alike : leftBranch.Reassociated rightBranch :=
    .trans (.assoc _ _ _) (.both (.refl _) (.both (.either inside (.refl _)) (.refl _)))
  exact ⟨alike, by decide +kernel, portray_reassociated (.inl rfl) alike (.int 3)⟩

end Clause

end LogicFormat
