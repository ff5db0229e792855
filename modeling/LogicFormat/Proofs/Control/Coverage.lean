import LogicFormat.Proofs.Control.Grammar
import Mathlib.Data.List.Chain

/-!
# Spans cover their control text

Every span stands where its positions say, each begins where the one before it stops, and the
pieces put back together are the control text, however malformed it is.
-/

namespace LogicFormat

namespace Span

/-- The span is a front piece of what the control text holds from its start on. -/
def StandsIn (control : Text) (span : Span) : Prop :=
  ∃ before text rest, control = before ++ text ∧ Control.Takes text span.piece rest ∧
    span.start = before.length ∧ span.stop = before.length + span.piece.source.length

theorem text_of_standsIn {control : Text} {span : Span} (h : span.StandsIn control) :
    span.text control = span.piece.source := by
  obtain ⟨before, text, rest, rfl, takes, start, stop⟩ := h
  rw [Span.text, start, stop, takes.text_eq, ← List.append_assoc, ← List.length_append,
    List.take_left, List.drop_left]

theorem length_of_standsIn {control : Text} {span : Span} (h : span.StandsIn control) :
    span.length = span.piece.source.length := by
  obtain ⟨before, text, rest, _, _, start, stop⟩ := h
  rw [Span.length, start, stop]
  omega

theorem token_of_standsIn {control : Text} {span : Span} {d : Directive}
    (h : span.StandsIn control) (directive : span.piece = .directive d) :
    span.token control = d.token := by
  obtain ⟨before, text, rest, rfl, takes, start, -⟩ := h
  rw [directive] at takes
  rw [Span.token, start, List.drop_left, Directive.token]
  cases takes with
  | directive d _ whole =>
      have two : 2 ≤ d.source.length := by
        cases whole <;> simp [Directive.source]
      exact List.take_append_of_le_length two
  | truncated => rfl

theorem token_eq_tilde_iff {control : Text} {span : Span} {d : Directive}
    (h : span.StandsIn control) (directive : span.piece = .directive d) :
    span.token control = ['~'] ↔ span.start + 1 = control.length := by
  obtain ⟨before, text, rest, rfl, takes, start, -⟩ := h
  rw [directive] at takes
  have text_eq : text = '~' :: (d.parameter.source ++ d.letter.toList ++ rest) := takes.text_eq
  rw [Span.token, start, List.drop_left, List.length_append, text_eq]
  cases d.parameter.source ++ d.letter.toList ++ rest with
  | nil => simp
  | cons c more =>
      simp only [List.take_succ_cons, List.length_cons]
      constructor
      · intro h
        exact nomatch h
      · intro h
        omega

end Span

namespace Control

/-- What a span contributes to the control text: a directive shows its own text. -/
def shown (control : Text) (span : Span) : Text :=
  match span.piece with
  | .literal text => text
  | .tilde => ['~', '~']
  | .directive _ => span.text control

theorem shown_of_standsIn {control : Text} {span : Span} (h : span.StandsIn control) :
    shown control span = span.piece.source := by
  have text := Span.text_of_standsIn h
  unfold shown
  split
  · next h => rw [h]; rfl
  · next h => rw [h]; rfl
  · exact text

theorem spansFrom_standIn (text before : Text) :
    ∀ span ∈ spansFrom before.length text, span.StandsIn (before ++ text) := by
  induction text using piece_induction generalizing before with
  | nil =>
      rw [spansFrom]
      exact List.forall_mem_nil _
  | takes text piece rest h ih =>
      rw [spansFrom_of_takes _ h]
      intro span hs
      cases hs with
      | head => exact ⟨before, text, rest, rfl, h, rfl, rfl⟩
      | tail _ hs =>
          have later := ih (before ++ piece.source)
          rw [List.length_append, List.append_assoc, ← h.text_eq] at later
          exact later span hs

theorem spans_standIn {control : Text} {span : Span} (hs : span ∈ spans control) :
    span.StandsIn control :=
  spansFrom_standIn control [] span hs

theorem map_piece_spansFrom (text : Text) (position : Nat) :
    (spansFrom position text).map Span.piece = pieces text := by
  induction text using piece_induction generalizing position with
  | nil => rw [spansFrom, pieces]; rfl
  | takes text piece rest h ih =>
      rw [spansFrom_of_takes _ h, pieces_of_takes h, List.map_cons, ih]

theorem flatMap_source_pieces (text : Text) : (pieces text).flatMap Piece.source = text := by
  induction text using piece_induction with
  | nil => rw [pieces]; rfl
  | takes text piece rest h ih =>
      rw [pieces_of_takes h, List.flatMap_cons, ih, ← h.text_eq]

theorem flatMap_shown_spans (control : Text) :
    (spans control).flatMap (shown control) = control := by
  calc
    (spans control).flatMap (shown control) =
        (spans control).flatMap fun span => span.piece.source := by
      rw [List.flatMap_def, List.flatMap_def]
      exact congrArg List.flatten
        (List.map_congr_left fun span hs => shown_of_standsIn (spans_standIn hs))
    _ = ((spans control).map Span.piece).flatMap Piece.source := by
      rw [List.flatMap_map]
    _ = control := by
      rw [spans, map_piece_spansFrom, flatMap_source_pieces]

/-- Behind a run of literal text stands a tilde, so that no other run follows it. -/
theorem apart_of_takes {first second : Piece} {text middle rest : Text}
    (one : Takes text first middle) (two : Takes middle second rest) : first.Apart second := by
  cases one with
  | literal run _ _ _ ends =>
      cases two with
      | literal run _ nonempty noTilde _ =>
          obtain ⟨c, run, rfl⟩ := List.exists_cons_of_ne_nil nonempty
          have hc : c ≠ '~' := noTilde c List.mem_cons_self
          have tilde : isLiteral c = false := Text.ends_cons.mp ends
          exact absurd hc (by simpa [isLiteral] using tilde)
      | tilde => trivial
      | directive => trivial
      | truncated => trivial
  | tilde => trivial
  | directive => trivial
  | truncated => trivial

theorem isChain_spansFrom (text : Text) (position : Nat) :
    (spansFrom position text).IsChain fun s t => s.stop = t.start ∧ s.piece.Apart t.piece := by
  induction text using piece_induction generalizing position with
  | nil =>
      rw [spansFrom]
      exact .nil
  | takes text piece rest h ih =>
      rw [spansFrom_of_takes _ h, List.isChain_cons]
      refine ⟨?_, ih _⟩
      intro next hnext
      by_cases empty : rest = []
      · rw [empty, spansFrom] at hnext
        cases hnext
      · obtain ⟨second, more, two⟩ := exists_takes empty
        rw [spansFrom_of_takes _ two, List.head?_cons, Option.mem_some_iff] at hnext
        subst hnext
        exact ⟨rfl, apart_of_takes h two⟩

theorem literal_of_standsIn {control run : Text} {span : Span} (h : span.StandsIn control)
    (literal : span.piece = .literal run) : run ≠ [] ∧ '~' ∉ run := by
  obtain ⟨before, text, rest, -, takes, -⟩ := h
  rw [literal] at takes
  cases takes with
  | literal _ _ nonempty noTilde _ => exact ⟨nonempty, fun h => noTilde '~' h rfl⟩

/-- The pieces of a control text cover it: put side by side they give it back, literal runs are
not empty, hold no tilde and are not cut in two, and a directive is what stands at its place,
named by its first two characters. -/
theorem spans_cover (control : Text) :
    (spans control).flatMap (shown control) = control ∧
      ((spans control).IsChain fun s t => s.stop = t.start ∧ s.piece.Apart t.piece) ∧
      (∀ span ∈ spans control, ∀ run, span.piece = .literal run → run ≠ [] ∧ '~' ∉ run) ∧
      ∀ span ∈ spans control, ∀ d, span.piece = .directive d →
        span.length = (span.text control).length ∧
        (span.text control).head? = some '~' ∧
        span.token control = (span.text control).take 2 ∧
        (span.token control = ['~'] ↔ span.start + 1 = control.length) := by
  refine ⟨flatMap_shown_spans control, isChain_spansFrom control 0, ?_, ?_⟩
  · intro span hs run literal
    exact literal_of_standsIn (spans_standIn hs) literal
  · intro span hs d directive
    have h := spans_standIn hs
    have text : span.text control = d.source := by
      rw [Span.text_of_standsIn h, directive]
      rfl
    refine ⟨?_, ?_, ?_, Span.token_eq_tilde_iff h directive⟩
    · rw [Span.length_of_standsIn h, Span.text_of_standsIn h]
    · rw [text]
      rfl
    · rw [text, Span.token_of_standsIn h directive]
      rfl

end Control

end LogicFormat
