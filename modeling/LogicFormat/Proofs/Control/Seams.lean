import LogicFormat.Proofs.Cell.Conservation
import LogicFormat.Proofs.Cell.Spelled
import LogicFormat.Proofs.Control.Lines

/-!
# Seams in control texts

Where one control text goes on from another, a run of literal text may cross the seam, and then the
pieces of the whole are not those of its parts. They are once every run is spelled out character by
character. As a page does not depend on how its texts are cut, what stands behind a control text
that succeeds can be replaced by anything that asks for the same, spelled out, of its arguments.
-/

namespace LogicFormat

/-! ## Pieces spelled out -/

namespace Piece

def letters (text : Text) : List Piece := text.map fun c => .literal [c]

/-- A doubled tilde is spelled like a literal one. -/
def spell : Piece → List Piece
  | .literal text => letters text
  | .tilde => letters ['~']
  | .directive d => [.directive d]

theorem letters_append (first second : Text) :
    letters (first ++ second) = letters first ++ letters second := List.map_append

end Piece

namespace Control

open Piece

def spelled (control : Text) : List Piece := (pieces control).flatMap spell

theorem spelled_of_takes {text rest : Text} {piece : Piece} (h : Takes text piece rest) :
    spelled text = piece.spell ++ spelled rest := by
  rw [spelled, pieces_of_takes h, List.flatMap_cons]
  rfl

theorem spelled_takeWhile (text : Text) :
    spelled text = letters (text.takeWhile isLiteral) ++ spelled (text.dropWhile isLiteral) := by
  cases text with
  | nil => rfl
  | cons c text =>
      by_cases literal : isLiteral c = true
      · have front : front c text = (.literal (c :: text.takeWhile isLiteral),
            text.dropWhile isLiteral) := if_neg (of_decide_eq_true literal)
        rw [spelled, pieces_cons, front, List.takeWhile_cons_of_pos literal,
          List.dropWhile_cons_of_pos literal]
        rfl
      · rw [List.takeWhile_cons_of_neg literal, List.dropWhile_cons_of_neg literal]
        rfl

/-- A run of literal text is spelled alike whether or not it goes on. -/
theorem spelled_run {run : Text} (noTilde : ∀ c ∈ run, c ≠ '~') (rest : Text) :
    spelled (run ++ rest) = letters run ++ spelled rest := by
  have literal : ∀ c ∈ run, isLiteral c = true := fun c hc => decide_eq_true (noTilde c hc)
  rw [spelled_takeWhile (run ++ rest), List.takeWhile_append_of_pos literal,
    List.dropWhile_append_of_pos literal, letters_append, List.append_assoc, ← spelled_takeWhile]

/-- However a text goes on behind its front piece, this is spelled alike, unless it is a directive
that the end of the text cuts short. -/
theorem spelled_of_takes_append {text rest : Text} {piece : Piece} (h : Takes text piece rest)
    (whole : ∀ d, piece = .directive d → ¬ d.Truncated) (more : Text) :
    spelled (text ++ more) = piece.spell ++ spelled (rest ++ more) := by
  cases h with
  | literal run _ _ noTilde =>
      rw [List.append_assoc]
      exact spelled_run noTilde _
  | tilde => exact spelled_of_takes (.tilde _)
  | directive d _ hd =>
      rw [List.append_assoc]
      exact spelled_of_takes (.directive d _ hd)
  | truncated d hd => exact absurd hd (whole d rfl)

theorem spelled_append {first : Text} (whole : ∀ d, .directive d ∈ pieces first → ¬ d.Truncated)
    (second : Text) : spelled (first ++ second) = spelled first ++ spelled second := by
  induction first using piece_induction with
  | nil =>
      have none : spelled [] = [] := by
        rw [spelled, pieces]
        rfl
      rw [none, List.nil_append, List.nil_append]
  | takes text piece rest h ih =>
      rw [pieces_of_takes h] at whole
      have front : ∀ d, piece = .directive d → ¬ d.Truncated := by
        intro d hd
        exact whole d (hd ▸ List.mem_cons_self)
      rw [spelled_of_takes_append h front, ih fun d hd => whole d (List.mem_cons_of_mem _ hd),
        spelled_of_takes h, List.append_assoc]

end Control

/-! ## Effects spelled out -/

namespace Effect

def followedBy (first : Effect) (second : Arguments → Effect) : Effect :=
  first >>= fun done => second done.2 >>= fun others => .ok (done.1 ++ others.1, others.2)

def spell (effect : Effect) : Effect :=
  effect >>= fun done => .ok (done.1.flatMap Operation.spell, done.2)

theorem followedBy_nil (effect : Effect) :
    effect.followedBy (fun rest => .ok ([], rest)) = effect := by
  cases effect with
  | error fault => rfl
  | ok done => simp [followedBy]

theorem spell_followedBy (first : Effect) (second : Arguments → Effect) :
    (first.followedBy second).spell = first.spell.followedBy fun rest => (second rest).spell := by
  cases first with
  | error fault => rfl
  | ok done =>
      cases h : second done.2 with
      | error fault => simp [followedBy, spell, h]
      | ok others => simp [followedBy, spell, h, List.flatMap_append]

end Effect

namespace Piece

theorem effects_letters (text : Text) (arguments : Arguments) :
    effects (letters text) arguments = .ok ((Operation.chars text).spell, arguments) := by
  induction text with
  | nil => rfl
  | cons c text ih =>
      show effects (.literal [c] :: letters text) arguments = _
      rw [effects, effect, Outcome.ok_bind, ih]
      rfl

theorem spell_effects_letters (text : Text) (arguments : Arguments) :
    (effects (letters text) arguments).spell = Effect.spell (.ok ([.chars text], arguments)) := by
  have single : [Operation.chars text].flatMap Operation.spell = (Operation.chars text).spell :=
    List.flatMap_singleton ..
  rw [effects_letters]
  show Except.ok ((Operation.chars text).spell.flatMap Operation.spell, arguments) =
    Except.ok ([Operation.chars text].flatMap Operation.spell, arguments)
  rw [Operation.spell_spell, single]

theorem effect_spell (piece : Piece) (arguments : Arguments) :
    (effects piece.spell arguments).spell = (piece.effect arguments).spell := by
  cases piece with
  | literal text => exact spell_effects_letters text arguments
  | tilde => exact spell_effects_letters ['~'] arguments
  | directive d =>
      exact congrArg Effect.spell (Effect.followedBy_nil ((Piece.directive d).effect arguments))

theorem effects_followedBy (first second : List Piece) (arguments : Arguments) :
    effects (first ++ second) arguments = (effects first arguments).followedBy (effects second) :=
  effects_append first second arguments

theorem effects_spell (pieces : List Piece) (arguments : Arguments) :
    (effects (pieces.flatMap spell) arguments).spell = (effects pieces arguments).spell := by
  induction pieces generalizing arguments with
  | nil => rfl
  | cons piece pieces ih =>
      have front : effects (piece :: pieces) arguments =
          (piece.effect arguments).followedBy (effects pieces) := rfl
      rw [List.flatMap_cons, effects_followedBy, front, Effect.spell_followedBy,
        Effect.spell_followedBy, effect_spell]
      simp only [ih]

end Piece

/-! ## Formatting across a seam -/

namespace Control

open Piece

theorem spell_conclude (effect : Effect) : effect.spell >>= conclude = effect >>= conclude := by
  cases effect with
  | error fault => rfl
  | ok done =>
      have page := Block.renderAll_built_spell done.1
      show conclude (done.1.flatMap Operation.spell, done.2) = conclude done
      unfold conclude
      rw [page]

/-- A second control text does behind one that comes to its end what it does by itself, spelled
out. -/
theorem spell_effects_append {first : Text} {arguments : Arguments} {operations : List Operation}
    (h : effects (pieces first) arguments = .ok (operations, [])) (second : Text)
    (more : Arguments) :
    (effects (pieces (first ++ second)) (arguments ++ more)).spell =
      (effects (pieces second) more).spell >>= fun others =>
        .ok (operations.flatMap Operation.spell ++ others.1, others.2) := by
  have seam : (pieces (first ++ second)).flatMap spell =
      (pieces first ++ pieces second).flatMap spell := by
    rw [List.flatMap_append]
    exact spelled_append (not_truncated_of_effects h) second
  rw [← effects_spell, seam, effects_spell, effects_followedBy, Effect.spell_followedBy,
    effects_append_arguments h]
  rfl

/-- Behind a text that succeeds, two texts whose effects are spelled alike have the same outcome. -/
theorem format_congr_behind {first : Text} {arguments : Arguments} {text : Text}
    (h : format first arguments = .ok text) {second other : Text} {more others : Arguments}
    (alike : (effects (pieces second) more).spell = (effects (pieces other) others).spell) :
    format (first ++ second) (arguments ++ more) =
      format (first ++ other) (arguments ++ others) := by
  rw [format_eq_conclude] at h
  obtain ⟨⟨operations, rest⟩, effects, concluded⟩ := Outcome.bind_eq_ok.mp h
  obtain ⟨rfl, -⟩ := conclude_eq_ok.mp concluded
  rw [format_eq_conclude, format_eq_conclude, ← spell_conclude,
    ← spell_conclude (Piece.effects _ _), spell_effects_append effects,
    spell_effects_append effects, alike]

/-! ## Ignored arguments -/

def ignored : Text := ['~', 'i']

theorem takes_ignored (rest : Text) :
    Takes (ignored ++ rest) (.directive ⟨.absent, some 'i'⟩) rest :=
  .directive _ rest (.plain 'i' (by decide) (by decide) (by decide) (by decide))

theorem effects_ignored (second : Text) (v : Term) (more : Arguments) :
    effects (pieces (ignored ++ second)) (v :: more) = effects (pieces second) more := by
  rw [pieces_of_takes (takes_ignored second)]
  show (effects (pieces second) more >>= fun others => .ok others) = _
  cases effects (pieces second) more with
  | error fault => rfl
  | ok others => rfl

/-- Behind a text that succeeds, an ignored argument can be left out with its directive, whatever
its value is: the outcome of what follows stays the same. -/
theorem format_ignored {first : Text} {arguments : Arguments} {text : Text}
    (h : format first arguments = .ok text) (second : Text) (v : Term) (more : Arguments) :
    format (first ++ ignored ++ second) (arguments ++ v :: more) =
      format (first ++ second) (arguments ++ more) := by
  rw [List.append_assoc]
  exact format_congr_behind h (congrArg Effect.spell (effects_ignored second v more))

theorem format_ignored_run :
    format ['~', 't', 'a'] [] = .ok ['a'] ∧
      format ['~', 't', 'a', '~', 'i', 'b', '~', '4', '|'] [.null] = .ok [' ', ' ', 'a', 'b'] := by
  have h : format ['~', 't', 'a'] [] = .ok ['a'] := by cbv
  exact ⟨h, (format_ignored h ['b', '~', '4', '|'] .null []).trans (by cbv)⟩

/-! ## Escaped texts -/

def doubled (s : Text) : Text := s.flatMap fun c => if c = '~' then ['~', '~'] else [c]

theorem spelled_doubled (s rest : Text) :
    spelled (doubled s ++ rest) = letters s ++ spelled rest := by
  induction s with
  | nil => rfl
  | cons c s ih =>
      by_cases tilde : c = '~'
      · have text : doubled (c :: s) ++ rest = '~' :: '~' :: (doubled s ++ rest) := by
          simp [doubled, tilde]
        rw [text, spelled_of_takes (.tilde _), ih, tilde]
        rfl
      · have text : doubled (c :: s) ++ rest = [c] ++ (doubled s ++ rest) := by
          simp [doubled, tilde]
        rw [text, spelled_run (List.forall_mem_singleton.mpr tilde), ih]
        rfl

theorem spell_effects_doubled (s second : Text) (more : Arguments) :
    (effects (pieces (doubled s ++ second)) more).spell =
      (Effect.followedBy (.ok ([.chars s], more)) (effects (pieces second))).spell := by
  have spelled : (pieces (doubled s ++ second)).flatMap spell =
      letters s ++ (pieces second).flatMap spell := spelled_doubled s second
  rw [← effects_spell, spelled, effects_followedBy, Effect.spell_followedBy, spell_effects_letters,
    Effect.spell_followedBy]
  simp only [effects_spell]

def inserted : Text := ['~', 'a']

theorem takes_inserted (rest : Text) :
    Takes (inserted ++ rest) (.directive ⟨.absent, some 'a'⟩) rest :=
  .directive _ rest (.plain 'a' (by decide) (by decide) (by decide) (by decide))

theorem effects_inserted (s second : Text) (more : Arguments) :
    effects (pieces (inserted ++ second)) (.atom s :: more) =
      Effect.followedBy (.ok ([.chars s], more)) (effects (pieces second)) := by
  rw [pieces_of_takes (takes_inserted second)]
  rfl

theorem spell_effects_escaped (s second : Text) (more : Arguments) :
    (effects (pieces (doubled s ++ second)) more).spell =
      (effects (pieces (inserted ++ second)) (.atom s :: more)).spell := by
  rw [spell_effects_doubled, effects_inserted]

theorem format_escaped {first : Text} {arguments : Arguments} {text : Text}
    (h : format first arguments = .ok text) (s second : Text) (more : Arguments) :
    format (first ++ doubled s ++ second) (arguments ++ more) =
      format (first ++ inserted ++ second) (arguments ++ .atom s :: more) := by
  rw [List.append_assoc, List.append_assoc]
  exact format_congr_behind h (spell_effects_escaped s second more)

theorem format_inserted (s : Text) : format inserted [.atom s] = .ok s := by
  have effects : effects (pieces (inserted ++ [])) [.atom s] = .ok ([.chars s], []) := by
    rw [effects_inserted, pieces]
    rfl
  rw [List.append_nil] at effects
  rw [format_eq_conclude, effects, Outcome.ok_bind, conclude_eq_ok]
  refine ⟨rfl, ?_⟩
  rw [Block.renderAll_built (List.forall_mem_singleton.mpr rfl), List.flatMap_singleton]
  rfl

/-- A text with its tildes doubled stands for itself, alone and behind every text that succeeds:
there it has the outcome that the text has as an argument, whatever follows. -/
theorem format_doubled (s : Text) :
    format (doubled s) [] = .ok s ∧
      ∀ (first : Text) (arguments : Arguments) (text : Text), format first arguments = .ok text →
        ∀ (second : Text) (more : Arguments),
          format (first ++ doubled s ++ second) (arguments ++ more) =
            format (first ++ inserted ++ second) (arguments ++ .atom s :: more) := by
  refine ⟨?_, fun first arguments text h => format_escaped h s⟩
  have empty : format [] [] = .ok [] := by
    rw [format_eq_conclude, pieces]
    rfl
  have alone := format_escaped empty s [] []
  rw [List.append_nil, List.append_nil] at alone
  exact alone.trans (format_inserted s)

theorem format_doubled_digit :
    format ['~', 't'] [] = .ok [] ∧
      format ['~', 't', '~', '~', '2', 'd', 'x', '~', '6', '|'] [] =
        .ok [' ', ' ', '~', '2', 'd', 'x'] := by
  have h : format ['~', 't'] [] = .ok [] := by cbv
  have behind := (format_doubled ['~', '2', 'd']).2 _ _ _ h ['x', '~', '6', '|'] []
  exact ⟨h, behind.trans (by cbv)⟩

end Control

end LogicFormat
