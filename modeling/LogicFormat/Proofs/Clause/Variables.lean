import LogicFormat.Proofs.Clause.Page
import LogicFormat.Proofs.Clause.Mapping
import LogicFormat.Proofs.Term.Variables

/-!
# The variables of a clause on the page

The marks of a clause hold its variables in the order in which they occur in it, and nothing about
them depends on their names. Every variable of a portrayed clause therefore stands in its text under
the name that is generated for its position.
-/

namespace LogicFormat

variable {names names' : Naming} {text : Text}

namespace Mark

def occurrences : Mark → List Nat
  | .term t => t.occurrences
  | _ => []

section Plain

variable (first : Naming.Plain names.nameOf) (second : Naming.Plain names'.nameOf)

include first second

theorem renamed_emission {mark : Mark} (emitted : mark.emission names = .ofText text) :
    ∃ other, mark.emission names' = .ofText other ∧
      Text.Renamed names.nameOf names'.nameOf mark.occurrences text other := by
  cases mark with
  | indent column target => exact ⟨text, emitted, .same text⟩
  | chars shown => exact ⟨text, emitted, .same text⟩
  | term t =>
      obtain ⟨other, written, related⟩ :=
        Term.renamed_write names' first second (write_of_emission emitted)
      exact ⟨other, emission_term written, related⟩

/-- What is put on the page under some names is put on it under any others in the same way. -/
theorem renamed_emitAll {marks : List Mark} (emitted : emitAll names marks = .ofText text) :
    ∃ other, emitAll names' marks = .ofText other ∧
      Text.Renamed names.nameOf names'.nameOf (marks.flatMap occurrences) text other := by
  induction marks generalizing text with
  | nil =>
      cases emitted
      exact ⟨[], rfl, .nil⟩
  | cons mark marks ih =>
      rw [emitAll_cons, Emission.append_eq_ofText] at emitted
      obtain ⟨front, back, one, rest, rfl⟩ := emitted
      obtain ⟨front', one', related⟩ := renamed_emission first second one
      obtain ⟨back', rest', others⟩ := ih rest
      refine ⟨front' ++ back', ?_, ?_⟩
      · rw [emitAll_cons, one', rest']
        rfl
      · rw [List.flatMap_cons]
        exact related.append others

end Plain

end Mark

theorem Goal.occurrences_layout (goal : Goal) (column target : Int) :
    (goal.layout column target).flatMap Mark.occurrences = goal.term.occurrences := by
  induction goal generalizing column target with
  | literal t => simp [layout, term, Mark.occurrences]
  | both first second ihFirst ihSecond =>
      simp [layout, term, Mark.occurrences, ihFirst, ihSecond, Term.occurrences_pair]
  | either first second ihFirst ihSecond =>
      simp [layout, Clause.lastBranch, term, Mark.occurrences, ihFirst, ihSecond,
        Term.occurrences_pair]
  | conditional condition consequence other ihCondition ihConsequence ihOther =>
      simp [layout, Clause.lastBranch, term, Mark.occurrences, ihCondition, ihConsequence,
        ihOther, Term.occurrences_pair]

namespace Clause

theorem occurrences_marks (indent : Int) (t : Term) :
    (marks indent t ++ fullStop).flatMap Mark.occurrences = t.occurrences := by
  rcases parts : parts? t with _ | ⟨head, neck, goals⟩
  · simp [marks, parts, fullStop, Mark.occurrences]
  · have isRule := eq_of_parts? parts
    subst isRule
    simp [marks, parts, fullStop, header, body, Mark.occurrences, Goal.occurrences_layout,
      Goal.term_ofTerm, Term.occurrences_pair]

/-- A clause whose variables are renamed apart has the same outcome. If it is a text, that is what
would be written by the numbers of the variables, with generated names in place of them all: a
capital letter, and for later variables a number. -/
theorem portray_generated {t : Term} {r : Nat → Nat} (apart : t.Apart r) (indent : Int) :
    portray (.int indent) (t.rename r) = portray (.int indent) t ∧
      ∀ text, portray (.int indent) t = .ok text →
        (∃ numbered, (emission [] (.int indent) t).result = .ok numbered ∧
          Text.Renamed (fun n => Naming.generated (t.position n)) Term.displayVar t.occurrences
            text numbered) ∧
        ∀ n ∈ t.occurrences, ∃ letter number,
          Naming.generated (t.position n) = letter :: number ∧ letter.isUpper = true ∧
            ∀ d ∈ number, d.isDigit = true := by
  refine ⟨portray_rename apart (.int indent), fun text portrayed => ⟨?_, fun n _ => ?_⟩⟩
  · rw [portray, Emission.result_eq_ok, emission_int] at portrayed
    obtain ⟨numbered, emitted, related⟩ := Mark.renamed_emitAll
      (Naming.regular_ofTerm t).plainNames Naming.regular_nil.plainNames portrayed
    rw [occurrences_marks] at related
    refine ⟨numbered, ?_, related.congr (fun n hn => ?_) fun n _ => rfl⟩
    · rw [Emission.result_eq_ok, emission_int, emitted]
    · exact Term.nameOf_ofTerm (Term.mem_vars.mpr hn)
  · have upper := (Naming.letter_table _ (Nat.mod_lt (t.position n) (by decide))).1
    exact ⟨_, _, Naming.generated_eq (t.position n), upper, Naming.isDigit_digits⟩

def openListRule : Term :=
  .compound ":-" (.compound ['p'] (.var 4) [])
    [.compound ['='] (.var 9) [.compound ['.'] (.var 4) [.var 9]]]

theorem portray_generated_open_list :
    openListRule.Apart (· + 1) ∧
      portray (.int 3) openListRule = .ok "p(A) :-\n   B=[A|B].\n".toList ∧
      portray (.int 3) (openListRule.rename (· + 1)) = portray (.int 3) openListRule ∧
      ∃ numbered, (emission [] (.int 3) openListRule).result = .ok numbered ∧
        Text.Renamed (fun n => Naming.generated (openListRule.position n)) Term.displayVar
          openListRule.occurrences "p(A) :-\n   B=[A|B].\n" numbered := by
  have apart : openListRule.Apart (· + 1) := fun m _ n _ same => Nat.succ.inj same
  have page : portray (.int 3) openListRule = .ok "p(A) :-\n   B=[A|B].\n".toList := by
    decide +kernel
  obtain ⟨same, shown⟩ := portray_generated apart 3
  exact ⟨apart, page, same, (shown _ page).1⟩

end Clause

end LogicFormat
