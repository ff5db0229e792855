import LogicFormat.Proofs.Clause.Page
import LogicFormat.Proofs.Term.Edges

/-!
# The full stop of a clause

The full stop is put right behind the last goal. It is read as a token of its own unless that goal
ends with a bare atom of symbol characters, which nothing keeps apart from it.
-/

namespace LogicFormat

open Text (Finishes finishes_concat)

/-- Whether the last line of a goal ends with a bare atom of symbol characters. -/
def Goal.endsInSymbol : Goal → Bool
  | .literal t => t.endsInSymbol termLevel
  | .both _ second => second.endsInSymbol
  | .either _ _ => false
  | .conditional _ _ _ => false

variable {names : Naming} {belongs : Bool} {others : List Mark}

namespace Mark

/-- Whatever the marks put on the page ends with a symbol character or does not, as told. -/
def EndsIn (names : Naming) (belongs : Bool) (marks : List Mark) : Prop :=
  ∀ text, emitAll names marks = .ofText text → Finishes Atom.isSymbolChar belongs text

theorem EndsIn.append (marks : List Mark) (h : EndsIn names belongs others) :
    EndsIn names belongs (marks ++ others) := by
  intro text emitted
  rw [emitAll_append, Emission.append_eq_ofText] at emitted
  obtain ⟨front, back, -, behind, rfl⟩ := emitted
  exact (h back behind).append front

theorem endsIn_chars {text : Text} (h : Finishes Atom.isSymbolChar belongs text) :
    EndsIn names belongs [.chars text] := by
  intro shown emitted
  rw [emitAll_cons, Emission.append_eq_ofText] at emitted
  obtain ⟨front, back, first, rest, rfl⟩ := emitted
  cases first
  cases rest
  rwa [List.append_nil]

theorem endsIn_term (regular : names.Regular) (t : Term) :
    EndsIn names (t.endsInSymbol termLevel) [.term t] := by
  intro shown emitted
  rw [emitAll_cons, Emission.append_eq_ofText] at emitted
  obtain ⟨front, back, first, rest, rfl⟩ := emitted
  cases rest
  rw [List.append_nil]
  obtain ⟨p, isPhrase, rfl⟩ := Term.exists_phrase_of_write (write_of_emission first)
  exact Term.finishes_phrase rfl regular t p isPhrase termLevel

theorem endsIn_lastBranch (names : Naming) (branch : List Mark) (target : Int) :
    EndsIn names false (Clause.lastBranch branch target) :=
  ((endsIn_chars (finishes_concat [] rfl)).append [.chars ['\n'], .indent 0 target]).append _

end Mark

theorem Goal.endsIn_layout (regular : names.Regular) (goal : Goal) (column target : Int) :
    Mark.EndsIn names goal.endsInSymbol (goal.layout column target) := by
  induction goal generalizing column target with
  | literal t => exact (Mark.endsIn_term regular t).append [.indent column target]
  | both first second _ ihSecond =>
      exact ((ihSecond 0 target).append [.chars ",\n"]).append (first.layout column target)
  | either first second =>
      exact ((Mark.endsIn_lastBranch names _ target).append [.chars ['\n']]).append _
  | conditional condition consequence other =>
      exact ((Mark.endsIn_lastBranch names _ target).append [.chars ['\n']]).append _

namespace Clause

/-- Whether a clause ends with a bare atom of symbol characters. -/
def endsInSymbol (t : Term) : Bool :=
  match parts? t with
  | some (_, _, goals) => (Goal.ofTerm goals).endsInSymbol
  | none => t.endsInSymbol termLevel

theorem endsIn_marks (regular : names.Regular) (t : Term) (indent : Int) :
    Mark.EndsIn names (endsInSymbol t) (marks indent t) := by
  unfold endsInSymbol marks
  cases parts? t with
  | none => exact Mark.endsIn_term regular t
  | some parts =>
      obtain ⟨head, neck, goals⟩ := parts
      exact ((Goal.ofTerm goals).endsIn_layout regular 0 indent).append _

/-- The character before the full stop is a symbol character if the clause ends with a bare atom
of such characters, and in no other case. -/
theorem portray_full_stop {t : Term} {indent : Int} {text : Text}
    (portrayed : portray (.int indent) t = .ok text) :
    ∃ front c, text = front ++ c :: ".\n".toList ∧ Atom.isSymbolChar c = endsInSymbol t := by
  rw [portray, Emission.result_eq_ok, emission_int, Mark.emitAll_append,
    Emission.append_eq_ofText] at portrayed
  obtain ⟨shown, stop, emitted, isStop, rfl⟩ := portrayed
  obtain ⟨front, c, rfl, last⟩ := endsIn_marks (Naming.regular_ofTerm t) t indent shown emitted
  cases isStop
  exact ⟨front, c, List.append_assoc front [c] _, last⟩

/-- The full stop stands right behind a symbol character, and is read as one token with it. -/
theorem portray_full_stop_fused :
    portray standardIndent (.compound ":-" (.atom ['h'])
        [.compound ['='] (.atom ['a']) [.atom ['#']]]) = .ok "h :-\n   a= #.\n".toList ∧
      Atom.isSymbolChar '#' = true :=
  ⟨by decide +kernel, by decide⟩

theorem portray_full_stop_bracket :
    portray (.int 3) (.compound ":-" (.atom ['h'])
        [.compound ['='] (.atom ['a']) [.atom ['=']]]) = .ok "h :-\n   a=(=).\n".toList ∧
      ∃ front c, "h :-\n   a=(=).\n".toList = front ++ c :: ".\n".toList ∧
        Atom.isSymbolChar c = endsInSymbol (.compound ":-" (.atom ['h'])
          [.compound ['='] (.atom ['a']) [.atom ['=']]]) := by
  have portrayed : portray (.int 3) (.compound ":-" (.atom ['h'])
      [.compound ['='] (.atom ['a']) [.atom ['=']]]) = .ok "h :-\n   a=(=).\n".toList := by
    decide +kernel
  exact ⟨portrayed, portray_full_stop portrayed⟩

end Clause

end LogicFormat
