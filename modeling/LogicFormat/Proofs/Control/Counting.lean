import LogicFormat.Proofs.Control.Coverage
import LogicFormat.Proofs.Control.Lines

/-!
# Arguments are counted exactly

What a control text needs is counted off its directives. A list of arguments that is formatted has
that length; a longer one has its surplus reported, and a shorter one the directive that takes the
first argument missing.
-/

namespace LogicFormat

namespace Piece

def need : Piece → Nat
  | .literal _ => 0
  | .tilde => 0
  | .directive d => d.need

def totalNeed : List Piece → Nat
  | [] => 0
  | piece :: pieces => piece.need + totalNeed pieces

theorem length_tokens (piece : Piece) : piece.tokens.length = piece.need := by
  cases piece with
  | literal text => rfl
  | tilde => rfl
  | directive d => exact List.length_replicate

theorem length_flatMap_tokens (pieces : List Piece) :
    (pieces.flatMap tokens).length = totalNeed pieces := by
  induction pieces with
  | nil => rfl
  | cons piece pieces ih =>
      rw [List.flatMap_cons, List.length_append, length_tokens, ih, totalNeed]

end Piece

namespace Control

def need (control : Text) : Nat := Piece.totalNeed (pieces control)

/-- For each argument of a control text, from the first one on, the directive that takes it. -/
def takers (control : Text) : List Span :=
  (spans control).flatMap fun span => List.replicate span.piece.need span

theorem map_token_replicate {control : Text} {span : Span} (h : span.StandsIn control) :
    (List.replicate span.piece.need span).map (Span.token control) = span.piece.tokens := by
  rw [List.map_replicate]
  cases piece : span.piece with
  | literal text => rfl
  | tilde => rfl
  | directive d => rw [Span.token_of_standsIn h piece, Piece.tokens, Piece.need]

theorem map_token_takers (control : Text) :
    (takers control).map (Span.token control) = (pieces control).flatMap Piece.tokens := by
  calc
    (takers control).map (Span.token control) =
        (spans control).flatMap fun span => span.piece.tokens := by
      rw [takers, List.map_flatMap, List.flatMap_def, List.flatMap_def]
      exact congrArg List.flatten
        (List.map_congr_left fun span hs => map_token_replicate (spans_standIn hs))
    _ = ((spans control).map Span.piece).flatMap Piece.tokens := by
      rw [List.flatMap_map]
    _ = (pieces control).flatMap Piece.tokens := by
      rw [spans, map_piece_spansFrom]

/-- Arguments that are formatted are all taken, one for each token. -/
theorem consumed_of_format {control : Text} {arguments : Arguments} {text : Text}
    (h : format control arguments = .ok text) :
    ∃ operations, Consumed ((pieces control).flatMap Piece.tokens)
      (Piece.effects (pieces control)) arguments operations := by
  rw [format_eq_conclude] at h
  obtain ⟨⟨operations, rest⟩, effects, concluded⟩ := Outcome.bind_eq_ok.mp h
  obtain ⟨rfl, -⟩ := conclude_eq_ok.mp concluded
  obtain ⟨taken, rfl, consumed⟩ := Piece.effects_consume _ _ _ _ effects
  rw [List.append_nil]
  exact ⟨operations, consumed⟩

theorem format_surplus {control : Text} {arguments : Arguments} {text : Text}
    (h : format control arguments = .ok text) {more : Arguments} (nonempty : more ≠ []) :
    format control (arguments ++ more) = .error (.leftoverArguments more) := by
  obtain ⟨operations, consumed⟩ := consumed_of_format h
  obtain ⟨t, more, rfl⟩ := List.exists_cons_of_ne_nil nonempty
  rw [format_eq_conclude, consumed.more]
  rfl

theorem format_shortfall {control : Text} {arguments : Arguments} {text : Text}
    (h : format control arguments = .ok text) {k : Nat} (short : k < arguments.length) :
    ∃ span, (takers control)[k]? = some span ∧
      format control (arguments.take k) = .error (.missingArgument (span.token control)) := by
  obtain ⟨operations, consumed⟩ := consumed_of_format h
  have tokens := map_token_takers control
  have counted : k < (takers control).length := by
    have := congrArg List.length tokens
    rw [List.length_map] at this
    rw [this, ← consumed.length]
    exact short
  have taker := List.getElem?_eq_getElem counted
  refine ⟨_, taker, ?_⟩
  rw [format_eq_conclude, consumed.missing k ((takers control)[k].token control),
    Outcome.error_bind]
  rw [← tokens, List.getElem?_map, taker]
  rfl

/-- A control text is formatted with as many arguments as it needs. With arguments behind those,
they are what is complained of; with too few, the directive that takes the first one missing is. -/
theorem format_arguments_counted {control : Text} {arguments : Arguments} {text : Text}
    (h : format control arguments = .ok text) :
    arguments.length = need control ∧
      (∀ more, more ≠ [] → ∃ fault, format control (arguments ++ more) = .error fault ∧
        fault.complaint? = some ⟨.argumentMismatch, "no_remaining_arguments", .list more⟩) ∧
      ∀ front, front <+: arguments → front ≠ arguments →
        ∃ span, (takers control)[front.length]? = some span ∧
          ∃ fault, format control front = .error fault ∧
            fault.complaint? =
              some ⟨.argumentMismatch, "format_string", .atom (span.token control)⟩ := by
  refine ⟨?_, ?_, ?_⟩
  · obtain ⟨operations, consumed⟩ := consumed_of_format h
    rw [consumed.length, Piece.length_flatMap_tokens, need]
  · intro more nonempty
    exact ⟨_, format_surplus h nonempty, rfl⟩
  · intro front isPrefix proper
    have cut := List.prefix_iff_eq_take.mp isPrefix
    have short : front.length < arguments.length := by
      refine Nat.lt_of_le_of_ne isPrefix.length_le fun same => proper ?_
      rw [cut, same, List.take_length]
    obtain ⟨span, taker, missing⟩ := format_shortfall h short
    rw [← cut] at missing
    exact ⟨span, taker, _, missing, rfl⟩

theorem format_arguments_counted_star :
    format ['~', 'a', '~', '*', 'd'] [.atom ['x'], .int 2, .int 314] =
        .ok ['x', '3', '.', '1', '4'] ∧
      need ['~', 'a', '~', '*', 'd'] = 3 ∧
      ∃ span, (takers ['~', 'a', '~', '*', 'd'])[2]? = some span ∧
        ∃ fault, format ['~', 'a', '~', '*', 'd'] [.atom ['x'], .int 2] = .error fault ∧
          fault.complaint? = some ⟨.argumentMismatch, "format_string",
            .atom (span.token ['~', 'a', '~', '*', 'd'])⟩ := by
  have h : format ['~', 'a', '~', '*', 'd'] [.atom ['x'], .int 2, .int 314] =
      .ok ['x', '3', '.', '1', '4'] := by
    cbv
  obtain ⟨length, -, short⟩ := format_arguments_counted h
  exact ⟨h, length.symm, short [.atom ['x'], .int 2] ⟨[.int 314], rfl⟩ (by decide)⟩

end Control

end LogicFormat
