import LogicFormat.Proofs.Control.Counting
import LogicFormat.Proofs.Control.Order
import LogicFormat.Proofs.Control.TabStops
import LogicFormat.Proofs.Number.Separated
import LogicFormat.Proofs.Term.Written

/-!
# What can go wrong in formatting

Formatting either succeeds or complains of an unknown directive, of too few or too many arguments,
of a negative count, or of an argument of the wrong type. Only writing an argument in which `null`
occurs is refused in another way. Nothing goes wrong any more once there are cells.
-/

namespace LogicFormat

inductive Complaint.OfFormatting : Complaint → Prop
  | unknownDirective (token : Text) :
      OfFormatting ⟨.unknownDirective, "format_string", .atom token⟩
  | argumentMismatch (type : Text) (culprit : Term) :
      OfFormatting ⟨.argumentMismatch, type, culprit⟩
  | negativeCount {n : Int} (negative : n < 0) :
      OfFormatting ⟨.domain, "not_less_than_zero", .int n⟩
  | wrongType {type : Text} (culprit : Term)
      (known : type = "chars" ∨ type = "list" ∨ type = "atom" ∨ type = "integer" ∨
        type = "number") :
      OfFormatting ⟨.typeMismatch, type, culprit⟩

/-- Whether the fault is reported as a complaint of formatting. -/
def Fault.Reported (fault : Fault) : Prop :=
  ∃ complaint, fault.complaint? = some complaint ∧ complaint.OfFormatting

namespace Fault

theorem reported_wrongType (expected : Expected) (culprit : Term) :
    (wrongType expected culprit).Reported := by
  refine ⟨_, rfl, .wrongType culprit ?_⟩
  cases expected with
  | chars => exact .inl rfl
  | list => exact .inr (.inl rfl)
  | atom => exact .inr (.inr (.inl rfl))
  | integer => exact .inr (.inr (.inr (.inl rfl)))
  | number => exact .inr (.inr (.inr (.inr rfl)))

theorem reported_negativeCount {n : Int} (negative : n < 0) : (negativeCount n).Reported :=
  ⟨_, rfl, .negativeCount negative⟩

theorem reported_missingArgument (token : Text) : (missingArgument token).Reported :=
  ⟨_, rfl, .argumentMismatch _ _⟩

theorem reported_leftoverArguments (rest : List Term) : (leftoverArguments rest).Reported :=
  ⟨_, rfl, .argumentMismatch _ _⟩

theorem reported_unknownDirective (token : Text) : (unknownDirective token).Reported :=
  ⟨_, rfl, .unknownDirective token⟩

end Fault

variable {α β : Type}

def Reporting (outcome : Except Fault α) : Prop := ∀ fault, outcome = .error fault → fault.Reported

namespace Reporting

theorem ok (a : α) : Reporting (.ok a) := fun _ h => nomatch h

theorem error {fault : Fault} (reported : fault.Reported) :
    Reporting (.error fault : Except Fault α) := by
  rintro _ ⟨⟩
  exact reported

theorem bind {first : Except Fault α} {next : α → Except Fault β} (one : Reporting first)
    (two : ∀ a, Reporting (next a)) : Reporting (first >>= next) := by
  intro fault h
  rcases Outcome.bind_eq_error.mp h with h | ⟨a, -, h⟩
  · exact one fault h
  · exact two a fault h

theorem map {first : Except Fault α} (one : Reporting first) (result : α → β) :
    Reporting (result <$> first) := by
  cases first with
  | error fault => exact error (one fault rfl)
  | ok a => exact ok (result a)

theorem require (expected : Expected) (t : Term) (reading : Option α) :
    Reporting (expected.require t reading) := by
  cases reading with
  | none => exact error (Fault.reported_wrongType expected t)
  | some a => exact ok a

theorem next (token : Text) (arguments : Arguments) : Reporting (arguments.next token) := by
  cases arguments with
  | nil => exact error (Fault.reported_missingArgument token)
  | cons t arguments => exact ok (t, arguments)

theorem finished (arguments : Arguments) : Reporting arguments.finished := by
  cases arguments with
  | nil => exact ok ()
  | cons t arguments => exact error (Fault.reported_leftoverArguments _)

end Reporting

namespace Places

theorem reporting_checked (digits : Int) : Reporting (checked digits) := by
  unfold checked
  split
  · next negative => exact .error (Fault.reported_negativeCount negative)
  · exact .ok _

theorem reporting_fixed (t : Term) (digits : Int) : Reporting (fixed t digits) := by
  unfold fixed
  split
  · exact (reporting_checked digits).map _
  · exact .error (Fault.reported_wrongType .integer _)

theorem reporting_grouped (t : Term) (digits : Int) : Reporting (grouped t digits) := by
  refine (reporting_fixed t digits).bind fun numeral => ?_
  have separates (whole : Text) : Reporting (separated whole [','] 3) := by
    have groups : separated whole [','] 3 = .ok (joined 3 ',' whole) :=
      separated_eq_joined (by decide) whole ','
    rw [groups]
    exact .ok _
  exact (separates _).bind fun groups => .ok _

theorem reporting_truncated (t : Term) (digits : Int) : Reporting (truncated t digits) := by
  unfold truncated
  split
  · exact (reporting_checked digits).map _
  · exact (reporting_checked digits).map _
  · exact .error (Fault.reported_wrongType .number _)

end Places

namespace Count

variable (count : Count) (default : Int) (token : Text) (arguments : Arguments)

theorem reporting_value : Reporting (count.value default token arguments) := by
  cases count with
  | absent => exact .ok _
  | number n => exact .ok _
  | next =>
      exact (Reporting.next token arguments).bind fun taken =>
        (Reporting.require .integer taken.1 _).bind fun _ => .ok _

theorem reporting_natural : Reporting (count.natural default token arguments) := by
  refine (count.reporting_value default token arguments).bind fun counted => ?_
  by_cases negative : counted.1 < 0
  · rw [if_pos negative]
    exact .error (Fault.reported_negativeCount negative)
  · rw [if_neg negative]
    exact .ok counted

end Count

namespace Command

variable (token : Text) (arguments : Arguments)

theorem reporting_insert {text : Term → Except Fault Text} (reporting : ∀ t, Reporting (text t)) :
    Reporting (insert text token arguments) :=
  (Reporting.next token arguments).bind fun taken =>
    (reporting taken.1).bind fun _ => .ok _

theorem reporting_insertPlaces {text : Term → Int → Except Fault Text}
    (reporting : ∀ t n, Reporting (text t n)) (count : Count) :
    Reporting (insertPlaces text count token arguments) :=
  (count.reporting_natural 0 token arguments).bind fun counted =>
    reporting_insert token counted.2 fun t => reporting t counted.1

theorem reporting_effect {command : Command} (noWrite : ∀ quoted, command ≠ .write quoted) :
    Reporting (command.effect token arguments) := by
  have one {run : Except Fault (Int × Arguments)} (operation : Int → Operation)
      (reporting : Reporting run) :
      Reporting (run >>= fun done => .ok ([operation done.1], done.2)) :=
    reporting.bind fun done => .ok ([operation done.1], done.2)
  have numberText (t : Term) : Reporting t.numberText := .require .number t _
  cases command with
  | write quoted => exact absurd rfl (noWrite quoted)
  | atomic => exact reporting_insert token arguments fun t => .require .atom t _
  | chars => exact reporting_insert token arguments fun t => .require .chars t _
  | decimal grouped count =>
      cases grouped with
      | false => exact reporting_insertPlaces token arguments Places.reporting_fixed count
      | true => exact reporting_insertPlaces token arguments Places.reporting_grouped count
  | float count =>
      have places (count : Count) :
          Reporting (insertPlaces Places.truncated count token arguments) :=
        reporting_insertPlaces token arguments Places.reporting_truncated count
      cases count with
      | absent => exact reporting_insert token arguments numberText
      | number n => exact places (.number n)
      | next => exact places .next
  | ignore => exact (Reporting.next token arguments).bind fun taken => .ok ([], taken.2)
  | newlines count => exact one .newlines (count.reporting_natural 1 token arguments)
  | column count =>
      cases count with
      | absent => exact .ok _
      | number n => exact one .column (Count.reporting_value (.number n) 0 token arguments)
      | next => exact one .column (Count.reporting_value .next 0 token arguments)
  | relativeColumn count => exact one .relativeColumn (count.reporting_value 0 token arguments)
  | glue fill => exact .ok _
  | unknown => exact .error (Fault.reported_unknownDirective token)

/-- Writing an argument goes wrong if there is none, or if `null` occurs in it. -/
theorem effect_write_eq_error {quoted : Bool} {fault : Fault}
    (h : (Command.write quoted).effect token arguments = .error fault) :
    fault.Reported ∨ fault = .unwritable ∧
      ∃ t rest, arguments = t :: rest ∧ .null ∈ t.subterms := by
  cases arguments with
  | nil =>
      cases h
      exact .inl (Fault.reported_missingArgument token)
  | cons t rest =>
      have write : (t.write ⟨quoted, []⟩ >>= fun shown => .ok ([Operation.chars shown], rest)) =
          .error fault := h
      rcases Outcome.bind_eq_error.mp write with failed | ⟨shown, -, done⟩
      · obtain ⟨unwritable, null⟩ :=
          (Term.refuses_writeWithin ⟨quoted, []⟩ termLevel t).eq_error_iff.mp failed
        exact .inr ⟨unwritable, t, rest, rfl, null⟩
      · exact nomatch done

end Command

namespace Directive

theorem eq_of_command_write {d : Directive} {quoted : Bool} (h : d.command = .write quoted) :
    d = ⟨.absent, some 'w'⟩ ∨ d = ⟨.absent, some 'q'⟩ := by
  obtain ⟨parameter, letter⟩ := d
  unfold command at h
  split at h
  case h_13 => exact nomatch h
  all_goals
    next letter =>
      subst letter
      cases parameter <;> first | exact .inl rfl | exact .inr rfl | exact nomatch h

end Directive

namespace Control

/-- Whether an argument taken by a directive that writes it holds `null`. -/
def WritesNull (control : Text) (arguments : Arguments) : Prop :=
  ∃ (k : Nat) (span : Span) (t : Term), (takers control)[k]? = some span ∧
    (span.piece = .directive ⟨.absent, some 'w'⟩ ∨ span.piece = .directive ⟨.absent, some 'q'⟩) ∧
    arguments[k]? = some t ∧ .null ∈ t.subterms

theorem length_flatMap_need (row : List Span) :
    (row.flatMap fun span => List.replicate span.piece.need span).length =
      Piece.totalNeed (row.map Span.piece) := by
  induction row with
  | nil => rfl
  | cons span row ih =>
      rw [List.flatMap_cons, List.length_append, List.length_replicate, ih, List.map_cons,
        Piece.totalNeed]

/-- A piece takes the first argument that the pieces before it do not need. -/
theorem taker_at {control : Text} {front back : List Piece} {piece : Piece}
    (cut : pieces control = front ++ piece :: back) (takes : 0 < piece.need) :
    ∃ span, (takers control)[Piece.totalNeed front]? = some span ∧ span.piece = piece := by
  have spanned := map_piece_spansFrom control 0
  rw [cut] at spanned
  obtain ⟨before, after, split, rfl, tail⟩ := List.map_eq_append_iff.mp spanned
  obtain ⟨span, others, rfl, rfl, -⟩ := List.map_eq_cons_iff.mp tail
  refine ⟨span, ?_, rfl⟩
  obtain ⟨n, hn⟩ := Nat.exists_eq_add_of_lt takes
  rw [takers, spans, split, List.flatMap_append, List.flatMap_cons, ← length_flatMap_need,
    List.getElem?_append_right (Nat.le_refl _), Nat.sub_self, hn, Nat.zero_add]
  rfl

theorem effects_fault {control : Text} {arguments : Arguments} {fault : Fault}
    (h : Piece.effects (pieces control) arguments = .error fault) :
    fault.Reported ∨ fault = .unwritable ∧ WritesNull control arguments := by
  obtain ⟨front, piece, back, operations, rest, cut, done, failed⟩ :=
    Piece.effects_eq_error.mp h
  obtain ⟨taken, rfl, consumed⟩ := Piece.effects_consume _ _ _ _ done
  have place : taken.length = Piece.totalNeed front := by
    rw [consumed.length, Piece.length_flatMap_tokens]
  cases piece with
  | literal text => exact nomatch failed
  | tilde => exact nomatch failed
  | directive d =>
      by_cases writes : ∃ quoted, d.command = .write quoted
      · obtain ⟨quoted, command⟩ := writes
        change d.command.effect d.token rest = .error fault at failed
        rw [command] at failed
        refine (Command.effect_write_eq_error _ _ failed).imp_right fun unwritable => ?_
        obtain ⟨refused, t, others, rfl, null⟩ := unwritable
        have letter := Directive.eq_of_command_write command
        have takes : 0 < d.need := by
          rcases letter with rfl | rfl <;> decide
        obtain ⟨span, taker, piece⟩ := taker_at cut takes
        refine ⟨refused, _, span, t, taker, ?_, ?_, null⟩
        · rw [piece]
          exact letter.imp (congrArg Piece.directive) (congrArg Piece.directive)
        · rw [← place, List.getElem?_append_right (Nat.le_refl _), Nat.sub_self]
          rfl
      · exact .inl (Command.reporting_effect _ _ (not_exists.mp writes) fault failed)

theorem renderAll_of_blocks {control : Text} {arguments : Arguments} {blocks : List Block}
    (h : Control.blocks control arguments = .ok blocks) :
    ∃ text, Block.renderAll blocks = .ok text :=
  Block.renderAll_of_numbered fun cell hcell => (orderly_of_blocks h cell hcell).numbered

theorem format_fault {control : Text} {arguments : Arguments} {fault : Fault}
    (h : format control arguments = .error fault) :
    fault.Reported ∨ fault = .unwritable ∧ WritesNull control arguments := by
  rcases Outcome.bind_eq_error.mp h with failed | ⟨blocks, built, failed⟩
  · rcases Outcome.bind_eq_error.mp failed with failed | ⟨operations, -, failed⟩
    · rcases Outcome.bind_eq_error.mp failed with failed | ⟨done, -, failed⟩
      · exact effects_fault failed
      · rcases Outcome.bind_eq_error.mp failed with failed | ⟨_, -, failed⟩
        · exact .inl (Reporting.finished done.2 fault failed)
        · exact nomatch failed
    · exact nomatch failed
  · obtain ⟨text, rendered⟩ := renderAll_of_blocks built
    rw [rendered] at failed
    exact nomatch failed

/-- Whatever the control and the arguments are, once there are blocks they are laid out, and a
fault is either one of the complaints or the refusal to write `null`, which then occurs in an
argument that is to be written. -/
theorem formatTerm_faults (control arguments : Term) :
    (∀ blocks, blocksTerm control arguments = .ok blocks →
      ∃ text, Block.renderAll blocks = .ok text ∧ formatTerm control arguments = .ok text) ∧
    ∀ fault, formatTerm control arguments = .error fault →
      fault.Reported ∨
      fault = .unwritable ∧ fault.message = "cannot write None as a term" ∧
        ∃ source items, textOf control = .ok source ∧ argumentsOf arguments = .ok items ∧
          WritesNull source items := by
  refine ⟨?_, ?_⟩
  · intro blocks h
    obtain ⟨source, isText, h⟩ := Outcome.bind_eq_ok.mp h
    obtain ⟨items, areArguments, h⟩ := Outcome.bind_eq_ok.mp h
    obtain ⟨text, rendered⟩ := renderAll_of_blocks h
    refine ⟨text, rendered, ?_⟩
    rw [formatTerm, isText, Outcome.ok_bind, formatWith, areArguments, Outcome.ok_bind, format, h,
      Outcome.ok_bind, rendered]
  · intro fault h
    rcases Outcome.bind_eq_error.mp h with failed | ⟨source, isText, h⟩
    · exact .inl (Reporting.require .chars control _ fault failed)
    · rcases Outcome.bind_eq_error.mp h with failed | ⟨items, areArguments, h⟩
      · exact .inl (Reporting.require .list arguments _ fault failed)
      · refine (format_fault h).imp_right ?_
        rintro ⟨rfl, writesNull⟩
        exact ⟨rfl, rfl, source, items, isText, areArguments, writesNull⟩

theorem formatTerm_faults_ignored_or_written :
    (blocksTerm (.atom "~a~i".toList) (.tuple [.atom ['x'], .compound ['f'] .null []]) =
        .ok [.cell ⟨0, 0, [.chars ['x']]⟩] ∧
      ∃ text, Block.renderAll [.cell ⟨0, 0, [.chars ['x']]⟩] = .ok text ∧
        formatTerm (.atom "~a~i".toList) (.tuple [.atom ['x'], .compound ['f'] .null []]) =
          .ok text) ∧
    formatTerm (.atom "~a~w".toList) (.tuple [.atom ['x'], .compound ['f'] .null []]) =
        .error .unwritable ∧
      (Fault.unwritable.Reported ∨
        Fault.unwritable = .unwritable ∧
          Fault.unwritable.message = "cannot write None as a term" ∧
          ∃ source items, textOf (.atom "~a~w".toList) = .ok source ∧
            argumentsOf (.tuple [.atom ['x'], .compound ['f'] .null []]) = .ok items ∧
            WritesNull source items) := by
  have ignored : blocksTerm (.atom "~a~i".toList)
      (.tuple [.atom ['x'], .compound ['f'] .null []]) = .ok [.cell ⟨0, 0, [.chars ['x']]⟩] := by
    cbv
  have written : formatTerm (.atom "~a~w".toList)
      (.tuple [.atom ['x'], .compound ['f'] .null []]) = .error .unwritable := by
    cbv
  exact ⟨⟨ignored, (formatTerm_faults _ _).1 _ ignored⟩, written,
    (formatTerm_faults _ _).2 _ written⟩

end Control

end LogicFormat
