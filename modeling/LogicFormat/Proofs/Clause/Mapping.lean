import LogicFormat.Proofs.Clause.Goal
import LogicFormat.Proofs.Clause.Page

/-!
# Clauses with other terms

A clause is laid out by its connectives alone. A change of terms that keeps the connectives changes
nothing but the terms among the marks, and nothing at all on the page if these are written alike. So
a renaming that keeps the variables of a clause apart changes nothing of its text.
-/

namespace LogicFormat

variable {f : Term → Term} {names names' : Naming}

namespace Mark

def map (f : Term → Term) : Mark → Mark
  | .indent column target => .indent column target
  | .chars text => .chars text
  | .term t => .term (f t)

theorem emitAll_map {marks : List Mark}
    (alike : ∀ t, .term t ∈ marks → (f t).write ⟨true, names'⟩ = t.write ⟨true, names⟩) :
    emitAll names' (marks.map (map f)) = emitAll names marks := by
  induction marks with
  | nil => rfl
  | cons mark marks ih =>
      have one : (mark.map f).emission names' = mark.emission names := by
        cases mark with
        | indent column target => rfl
        | chars text => rfl
        | term t => rw [map, emission, emission, alike t List.mem_cons_self]
      rw [List.map_cons, emitAll_cons, emitAll_cons, one,
        ih fun t ht => alike t (List.mem_cons_of_mem _ ht)]

end Mark

namespace Goal

theorem layout_map (f : Term → Term) (goal : Goal) (column target : Int) :
    (goal.map f).layout column target = (goal.layout column target).map (Mark.map f) := by
  induction goal generalizing column target with
  | literal t => rfl
  | both first second ihFirst ihSecond => simp [map, layout, ihFirst, ihSecond, Mark.map]
  | either first second ihFirst ihSecond =>
      simp [map, layout, Clause.lastBranch, ihFirst, ihSecond, Mark.map]
  | conditional condition consequence other ihCondition ihConsequence ihOther =>
      simp [map, layout, Clause.lastBranch, ihCondition, ihConsequence, ihOther, Mark.map]

/-- What both arguments of a compound term inherit from it, the terms of the marks inherit from the
goal. -/
theorem inherits_layout {good : Term → Prop}
    (inherits : ∀ {name first second}, good (.compound name first [second]) →
      good first ∧ good second)
    {goal : Goal} (whole : good goal.term) {column target : Int} {t : Term}
    (h : .term t ∈ goal.layout column target) : good t := by
  induction goal generalizing column target with
  | literal s =>
      simp only [layout, List.mem_cons, Mark.term.injEq, reduceCtorEq, List.not_mem_nil, false_or,
        or_false] at h
      subst h
      exact whole
  | both first second ihFirst ihSecond =>
      have inside : .term t ∈ first.layout column target ∨ .term t ∈ second.layout 0 target := by
        simpa [layout] using h
      obtain ⟨left, right⟩ := inherits whole
      exact inside.elim (ihFirst left) (ihSecond right)
  | either first second ihFirst ihSecond =>
      let inner := target + Clause.opening.length
      have inside : .term t ∈ first.layout inner inner ∨ .term t ∈ second.layout inner inner := by
        simpa [layout, Clause.lastBranch] using h
      obtain ⟨left, right⟩ := inherits whole
      exact inside.elim (ihFirst left) (ihSecond right)
  | conditional condition consequence other ihCondition ihConsequence ihOther =>
      let inner := target + Clause.opening.length
      have inside : .term t ∈ condition.layout inner inner ∨ .term t ∈ consequence.layout 0 inner ∨
          .term t ∈ other.layout inner inner := by
        simpa [layout, Clause.lastBranch] using h
      obtain ⟨arrow, right⟩ := inherits whole
      obtain ⟨left, middle⟩ := inherits arrow
      exact inside.elim (ihCondition left) (Or.rec (ihConsequence middle) (ihOther right))

end Goal

namespace Clause

theorem parts?_map (keeps : Term.KeepsPairs f) (t : Term) :
    parts? (f t) = (parts? t).map fun (head, neck, goals) => (f head, neck, f goals) := by
  rcases parts : parts? t with _ | ⟨head, neck, goals⟩
  · rcases parts' : parts? (f t) with _ | ⟨head', neck', goals'⟩
    · rfl
    · obtain ⟨head, goals, rfl⟩ := keeps.reflects (eq_of_parts? parts')
      rw [parts?_rule (rule_of_parts? parts')] at parts
      cases parts
  · rw [eq_of_parts? parts, keeps.pair, parts?_rule (rule_of_parts? parts)]
    rfl

theorem body_map (keeps : Term.KeepsPairs f) (indent : Int) (goals : Term) :
    body indent (f goals) = (body indent goals).map (Mark.map f) := by
  rw [body, body, Goal.ofTerm_map keeps, Goal.layout_map]

theorem marks_map (keeps : Term.KeepsPairs f) (indent : Int) (t : Term) :
    marks indent (f t) ++ fullStop = (marks indent t ++ fullStop).map (Mark.map f) := by
  rw [marks, marks, parts?_map keeps, List.map_append]
  rcases parts? t with _ | ⟨head, neck, goals⟩
  · rfl
  · simp only [Option.map_some, body_map keeps, List.map_append]
    rfl

/-- A clause stays what it is on the page if its terms do. -/
theorem emission_map (keeps : Term.KeepsPairs f) {good : Term → Prop}
    (alike : ∀ t, good t → (f t).write ⟨true, names'⟩ = t.write ⟨true, names⟩)
    (inherits : ∀ {name first second}, good (.compound name first [second]) →
      good first ∧ good second)
    {t : Term} (whole : good t) (bodyIndent : Term) :
    emission names' bodyIndent (f t) = emission names bodyIndent t := by
  rw [emission, emission, parts?_map keeps]
  rcases parts : parts? t with _ | ⟨head, neck, goals⟩
  · have marks : .term (f t) :: fullStop = (.term t :: fullStop).map (Mark.map f) := rfl
    simp only [Option.map_none, marks]
    refine Mark.emitAll_map fun s hs => alike s ?_
    simp only [fullStop, List.mem_cons, Mark.term.injEq, reduceCtorEq, List.not_mem_nil, or_false]
      at hs
    exact hs ▸ whole
  · have isRule := eq_of_parts? parts
    subst isRule
    obtain ⟨left, right⟩ := inherits whole
    have ofHead : ∀ s, .term s ∈ header head neck → good s := by
      intro s hs
      simp only [header, List.mem_cons, Mark.term.injEq, reduceCtorEq, List.not_mem_nil, or_false]
        at hs
      exact hs ▸ left
    have ofBody (indent : Int) : ∀ s, .term s ∈ body indent goals → good s := by
      intro s hs
      rw [← Goal.term_ofTerm goals] at right
      exact Goal.inherits_layout inherits right hs
    have front := Mark.emitAll_map fun s hs => alike s (ofHead s hs)
    have behind (indent : Int) := Mark.emitAll_map fun s hs => alike s (ofBody indent s hs)
    have headers : header (f head) neck = (header head neck).map (Mark.map f) := rfl
    simp only [Option.map_some]
    cases indentation bodyIndent with
    | error fault => simp only [headers, front]
    | ok indent =>
        simp only [headers, body_map keeps, Mark.emitAll_append, front, behind]
        rfl

/-- A clause with other variables is the same text, or fails in the same way. -/
theorem portray_rename {r : Nat → Nat} {t : Term} (apart : t.Apart r) (bodyIndent : Term) :
    portray bodyIndent (t.rename r) = portray bodyIndent t := by
  have alike (s : Term) (carries : s.Carries r (.ofTerm t) (.ofTerm (t.rename r))) :=
    Term.write_rename true carries
  rw [portray, portray, emission_map (Term.keepsPairs_rename r) alike (fun h => h.pair)
    (Naming.carries_ofTerm apart)]

end Clause

end LogicFormat
