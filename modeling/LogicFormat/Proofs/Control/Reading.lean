import LogicFormat.Proofs.Control.Coverage

/-!
# Reading what the grammar writes

A sequence of whole pieces, perhaps with a truncated directive at the end, is read back piece by
piece. Each directive is read with its text, the value of its parameter, and the name under which
its letter is registered for parameters of that kind.
-/

namespace LogicFormat

inductive Parameter.Kind where
  | absent
  | numeric
  | character
  deriving DecidableEq

def Parameter.kind : Parameter → Kind
  | .absent => .absent
  | .next => .numeric
  | .number _ => .numeric
  | .fill _ => .character

/-- A letter with a meaning, its name, and the kinds of parameter it takes. -/
structure Registration where
  letter : Char
  label : Text
  kinds : List Parameter.Kind

namespace Registration

def registry : List Registration :=
  [⟨'~', "Tilde", [.absent]⟩, ⟨'w', "Write", [.absent]⟩, ⟨'q', "Quoted", [.absent]⟩,
    ⟨'a', "Atomic", [.absent]⟩, ⟨'s', "CharList", [.absent]⟩,
    ⟨'d', "Decimal", [.absent, .numeric]⟩, ⟨'D', "GroupedDecimal", [.absent, .numeric]⟩,
    ⟨'f', "Float", [.absent, .numeric]⟩, ⟨'i', "Ignore", [.absent]⟩,
    ⟨'n', "Newline", [.absent, .numeric]⟩, ⟨'|', "ColumnStop", [.absent, .numeric]⟩,
    ⟨'+', "RelativeStop", [.absent, .numeric]⟩, ⟨'t', "Fill", [.absent, .character]⟩]

def find? (letter : Char) : Option Registration :=
  registry.find? fun registration => registration.letter = letter

end Registration

def unknownLabel : Text := "Unknown"

namespace Directive

def registeredLabel (d : Directive) : Text :=
  match d.letter.bind Registration.find? with
  | some registration =>
      if d.parameter.kind ∈ registration.kinds then registration.label else unknownLabel
  | none => unknownLabel

theorem label_command {d : Directive} (whole : d.Whole) : d.command.label = d.registeredLabel := by
  obtain ⟨parameter, letter⟩ := d
  unfold command
  split
  case h_13 =>
    cases letter with
    | none => rfl
    | some c =>
        by_cases tilde : c = '~'
        · subst tilde
          cases whole with
          | plain _ notTilde => exact absurd rfl notTilde
          | starred => rfl
          | numbered => rfl
          | filled => rfl
        · have unregistered : Registration.find? c = none := by
            simp only [Registration.find?, Registration.registry, List.find?_eq_none,
              List.forall_mem_cons, decide_eq_true_eq]
            simp_all [eq_comm]
          simp only [registeredLabel, Option.bind_some, unregistered]
          rfl
  all_goals
    next h =>
      subst h
      cases parameter <;> rfl

theorem label_command_of_truncated {d : Directive} (truncated : d.Truncated) :
    d.command.label = unknownLabel := by
  cases truncated <;> rfl

end Directive

/-- The value of a parameter; the digits of a number count from the left. -/
def Parameter.value? : Parameter → Option Reading
  | .absent => none
  | .next => some .next
  | .number digits =>
      some (.number (digits.foldl (fun value c => 10 * value + (c.toNat - '0'.toNat)) 0))
  | .fill c => some (.fill c)

theorem Parameter.reading?_eq_value? (parameter : Parameter) :
    parameter.reading? = parameter.value? := by
  cases parameter with
  | absent => rfl
  | next => rfl
  | number digits =>
      simp only [reading?, numberValue, Nat.ofDigitChars_eq_foldl]
      rfl
  | fill c => rfl

/-- What a piece is read as, its text not being looked up in the control text. -/
def Piece.part : Piece → Part
  | .literal run => .text run
  | .tilde => .text ['~']
  | .directive d => .directive d.source d.parameter.reading? d.command.label

theorem Span.part_of_standsIn {control : Text} {span : Span} (h : span.StandsIn control) :
    span.part control = span.piece.part := by
  have text := text_of_standsIn h
  unfold Span.part
  generalize span.piece = piece at text
  cases piece with
  | literal run => rfl
  | tilde => rfl
  | directive d =>
      dsimp only
      rw [text]
      rfl

def Piece.registeredPart : Piece → Part
  | .literal run => .text run
  | .tilde => .text ['~']
  | .directive d => .directive d.source d.parameter.value? d.registeredLabel

theorem Piece.part_eq_registeredPart {piece : Piece} (whole : piece.Whole) :
    piece.part = piece.registeredPart := by
  cases whole with
  | literal run => rfl
  | tilde => rfl
  | directive d whole =>
      rw [part, registeredPart, d.label_command whole, Parameter.reading?_eq_value?]

def Directive.truncatedPart (d : Directive) : Part :=
  .directive d.source d.parameter.value? unknownLabel

theorem Directive.part_eq_truncatedPart {d : Directive} (truncated : d.Truncated) :
    (Piece.directive d).part = d.truncatedPart := by
  rw [Piece.part, truncatedPart, label_command_of_truncated truncated,
    Parameter.reading?_eq_value?]

namespace Control

def ending (cut : Option Directive) : Text := cut.elim [] Directive.source

theorem takes_source {piece : Piece} {rest : Text} (whole : piece.Whole)
    (ends : ∀ run, piece = .literal run → Text.Ends isLiteral rest) :
    Takes (piece.source ++ rest) piece rest := by
  cases whole with
  | literal run nonempty noTilde => exact .literal run rest nonempty noTilde (ends run rfl)
  | tilde => exact .tilde rest
  | directive d whole => exact .directive d rest whole

theorem ends_ending (cut : Option Directive) : Text.Ends isLiteral (ending cut) := by
  cases cut with
  | none => exact Text.ends_nil
  | some d => exact Text.ends_cons.mpr rfl

theorem ends_source {piece : Piece} {rest : Text} (apart : ∀ run, piece ≠ .literal run) :
    Text.Ends isLiteral (piece.source ++ rest) := by
  cases piece with
  | literal run => exact absurd rfl (apart run)
  | tilde => exact Text.ends_cons.mpr rfl
  | directive d => exact Text.ends_cons.mpr rfl

theorem ends_sources {pieces : List Piece} {run : Text} (cut : Option Directive)
    (apart : (.literal run :: pieces : List Piece).IsChain Piece.Apart) :
    Text.Ends isLiteral (pieces.flatMap Piece.source ++ ending cut) := by
  cases pieces with
  | nil => exact ends_ending cut
  | cons piece pieces =>
      rw [List.flatMap_cons, List.append_assoc]
      refine ends_source ?_
      rintro next rfl
      exact (List.isChain_cons_cons.mp apart).1

/-- A sequence of pieces is cut where it was put together. -/
theorem pieces_sources {sequence : List Piece} {cut : Option Directive}
    (whole : ∀ piece ∈ sequence, piece.Whole) (apart : sequence.IsChain Piece.Apart)
    (truncated : ∀ d ∈ cut, d.Truncated) :
    pieces (sequence.flatMap Piece.source ++ ending cut) =
      sequence ++ (cut.map Piece.directive).toList := by
  induction sequence with
  | nil =>
      cases cut with
      | none => exact pieces.eq_1
      | some d =>
          have takes := Takes.truncated d (truncated d rfl)
          rw [List.flatMap_nil, List.nil_append, ending, Option.elim_some, pieces_of_takes takes,
            pieces]
          rfl
  | cons piece sequence ih =>
      have ends : ∀ run, piece = .literal run →
          Text.Ends isLiteral (sequence.flatMap Piece.source ++ ending cut) := by
        rintro run rfl
        exact ends_sources cut apart
      have takes := takes_source (whole piece List.mem_cons_self) ends
      rw [List.flatMap_cons, List.append_assoc, pieces_of_takes takes, List.cons_append,
        ih (fun piece hp => whole piece (List.mem_cons_of_mem _ hp)) (List.isChain_cons.mp apart).2]

theorem parts_eq_map (control : Text) : parts control = (pieces control).map Piece.part := by
  rw [parts, ← map_piece_spansFrom control 0, List.map_map]
  exact List.map_congr_left fun span hs => Span.part_of_standsIn (spans_standIn hs)

/-- Whole pieces, no two runs of literal text side by side, and a truncated directive if there is
one, are read back one by one: each directive with its text, the value of its parameter and its
registered name. -/
theorem parts_sources {sequence : List Piece} {cut : Option Directive}
    (whole : ∀ piece ∈ sequence, piece.Whole) (apart : sequence.IsChain Piece.Apart)
    (truncated : ∀ d ∈ cut, d.Truncated) :
    parts (sequence.flatMap Piece.source ++ ending cut) =
      sequence.map Piece.registeredPart ++ (cut.map Directive.truncatedPart).toList := by
  rw [parts_eq_map, pieces_sources whole apart truncated, List.map_append]
  congr 1
  · exact List.map_congr_left fun piece hp => Piece.part_eq_registeredPart (whole piece hp)
  · cases cut with
    | none => rfl
    | some d => exact congrArg (fun part => [part]) (d.part_eq_truncatedPart (truncated d rfl))

theorem parts_tildes_and_digits :
    (∀ piece ∈ [Piece.literal ['a'], .directive ⟨.fill '~', some 't'⟩,
        .directive ⟨.next, some '~'⟩, .tilde, .directive ⟨.number ['1', '2'], some 'n'⟩],
      piece.Whole) ∧
    parts ['a', '~', '\x60', '~', 't', '~', '*', '~', '~', '~', '~', '1', '2', 'n', '~', '0', '7'] =
      [.text ['a'], .directive ['~', '\x60', '~', 't'] (some (.fill '~')) "Fill",
        .directive ['~', '*', '~'] (some .next) "Unknown", .text ['~'],
        .directive ['~', '1', '2', 'n'] (some (.number 12)) "Newline",
        .directive ['~', '0', '7'] (some (.number 7)) "Unknown"] := by
  have whole : ∀ piece ∈ [Piece.literal ['a'], .directive ⟨.fill '~', some 't'⟩,
      .directive ⟨.next, some '~'⟩, .tilde, .directive ⟨.number ['1', '2'], some 'n'⟩],
      piece.Whole := by
    simp only [List.forall_mem_cons]
    exact ⟨.literal _ (by simp) (by simp), .directive _ (.filled _ _),
      .directive _ (.starred _), .tilde,
      .directive _ (.numbered _ _ (by simp) (by simp) (by simp)), by simp⟩
  have truncated : ∀ d ∈ some (Directive.mk (.number ['0', '7']) none), d.Truncated := by
    rintro d ⟨⟩
    exact .numbered _ (by simp) (by simp)
  exact ⟨whole, parts_sources whole (by simp [Piece.Apart]) truncated⟩

end Control

end LogicFormat
