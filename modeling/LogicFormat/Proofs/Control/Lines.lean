import LogicFormat.Proofs.Cell.Lines
import LogicFormat.Proofs.Control.Consumption
import Mathlib

/-!
# Lines are formatted independently

Behind a line that is formatted with its arguments, another line is formatted as if it stood
alone, whether that succeeds or fails.
-/

namespace LogicFormat.Control

/-- Formatting once the operations are known: nothing may be left over of the arguments. -/
def conclude (done : List Operation × Arguments) : Except Fault Text :=
  done.2.finished >>= fun _ => Block.renderAll (Builder.built done.1)

theorem format_eq_conclude (control : Text) (arguments : Arguments) :
    format control arguments = Piece.effects (pieces control) arguments >>= conclude := by
  unfold format blocks operations conclude
  cases Piece.effects (pieces control) arguments with
  | error fault => rfl
  | ok done =>
      simp only [Outcome.ok_bind]
      cases done.2.finished with
      | error fault => rfl
      | ok _ => rfl

theorem conclude_eq_ok {done : List Operation × Arguments} {text : Text} :
    conclude done = .ok text ↔ done.2 = [] ∧ Block.renderAll (Builder.built done.1) = .ok text := by
  obtain ⟨operations, rest⟩ := done
  cases rest with
  | nil => simp [conclude, Arguments.finished]
  | cons t rest => simp [conclude, Arguments.finished]

theorem blocks_eq_ok {control : Text} {arguments : Arguments} {blocks : List Block} :
    Control.blocks control arguments = .ok blocks ↔
      ∃ operations, Piece.effects (pieces control) arguments = .ok (operations, []) ∧
        Builder.built operations = blocks := by
  unfold Control.blocks operations
  cases Piece.effects (pieces control) arguments with
  | error fault => simp
  | ok done =>
      obtain ⟨operations, rest⟩ := done
      cases rest with
      | nil => simp [Arguments.finished, Builder.built, pure, Except.pure]
      | cons t rest => simp [Arguments.finished]

def lineBreak : Text := ['~', 'n']

theorem takes_lineBreak (rest : Text) :
    Takes (lineBreak ++ rest) (.directive ⟨.absent, some 'n'⟩) rest :=
  .directive _ rest (.plain 'n' (by decide) (by decide) (by decide) (by decide))

theorem pieces_lineBreak {first : Text} (second : Text)
    (whole : ∀ d, .directive d ∈ pieces first → ¬ d.Truncated) :
    pieces (first ++ lineBreak ++ second) =
      pieces first ++ .directive ⟨.absent, some 'n'⟩ :: pieces second := by
  have ends : Text.Ends isLiteral (lineBreak ++ second) := Text.ends_cons.mpr rfl
  rw [List.append_assoc, pieces_append ends first whole, pieces_of_takes (takes_lineBreak second)]

theorem effects_lineBreak {first : Text} {arguments : Arguments} {operations : List Operation}
    (h : Piece.effects (pieces first) arguments = .ok (operations, [])) (second : Text)
    (more : Arguments) :
    Piece.effects (pieces (first ++ lineBreak ++ second)) (arguments ++ more) =
      Piece.effects (pieces second) more >>= fun others =>
        .ok (operations ++ .newlines 1 :: others.1, others.2) := by
  have front := Piece.effects_append_arguments h more
  have step : Piece.effects (.directive ⟨.absent, some 'n'⟩ :: pieces second) more =
      Piece.effects (pieces second) more >>= fun others =>
        .ok (.newlines 1 :: others.1, others.2) := rfl
  rw [pieces_lineBreak second (Piece.not_truncated_of_effects h), Piece.effects_append, front,
    Outcome.ok_bind, List.nil_append, step]
  cases Piece.effects (pieces second) more with
  | error fault => rfl
  | ok others => rfl

theorem conclude_lineBreak {operations : List Operation} {text : Text}
    (h : Block.renderAll (Builder.built operations) = .ok text) (others : List Operation)
    (rest : Arguments) :
    conclude (operations ++ .newlines 1 :: others, rest) =
      (conclude (others, rest)).map fun last => text ++ '\n' :: last := by
  unfold conclude
  cases Arguments.finished rest with
  | error fault => rfl
  | ok _ =>
      rw [Outcome.ok_bind, Outcome.ok_bind, Block.renderAll_newlines_one, h, Outcome.ok_bind]
      cases Block.renderAll (Builder.built others) with
      | error fault => rfl
      | ok last => rfl

/-- Behind a line that succeeds and a line break, a second line has the outcome that it has by
itself, with the first line and a newline in front of its text. -/
theorem format_lineBreak {first : Text} {arguments : Arguments} {text : Text}
    (h : format first arguments = .ok text) (second : Text) (more : Arguments) :
    format (first ++ lineBreak ++ second) (arguments ++ more) =
      (format second more).map fun others => text ++ '\n' :: others := by
  rw [format_eq_conclude] at h
  obtain ⟨⟨operations, rest⟩, effects, concluded⟩ := Outcome.bind_eq_ok.mp h
  obtain ⟨rfl, rendered⟩ := conclude_eq_ok.mp concluded
  rw [format_eq_conclude, format_eq_conclude, effects_lineBreak effects]
  cases Piece.effects (pieces second) more with
  | error fault => rfl
  | ok done =>
      rw [Outcome.ok_bind, Outcome.ok_bind]
      exact conclude_lineBreak rendered done.1 done.2

theorem format_lineBreak_missing :
    format ['~', 'w', '~', 't', '~', '4', '|'] [.int 7] = .ok ['7', ' ', ' ', ' '] ∧
      format ['~', 'w', '~', 't', '~', '4', '|', '~', 'n', '~', 'a'] [.int 7] =
        .error (.missingArgument ['~', 'a']) := by
  have h : format ['~', 'w', '~', 't', '~', '4', '|'] [.int 7] = .ok ['7', ' ', ' ', ' '] := by
    cbv
  exact ⟨h, (format_lineBreak h ['~', 'a'] []).trans (by cbv)⟩

end LogicFormat.Control
