import LogicFormat.Proofs.Control.Lines

/-!
# Faults come in the order of the directives

A directive is looked at only when it is reached. A text that fails at one of its directives fails
there, and in the same way, whatever is written behind the text, as long as this does not complete a
directive that the text breaks off.
-/

namespace LogicFormat

theorem Directive.Whole.not_truncated {d : Directive} (whole : d.Whole) : ¬ d.Truncated := by
  intro truncated
  cases truncated with
  | backquoted =>
      cases whole with
      | plain _ _ _ notQuote => exact notQuote rfl
  | _ => cases whole

namespace Piece

/-- Pieces that fail do so at one of them, the ones before it having come to their end. -/
theorem effects_eq_error {pieces : List Piece} {arguments : Arguments} {fault : Fault} :
    effects pieces arguments = .error fault ↔
      ∃ front piece back operations rest, pieces = front ++ piece :: back ∧
        effects front arguments = .ok (operations, rest) ∧ piece.effect rest = .error fault := by
  constructor
  · intro h
    induction pieces generalizing arguments with
    | nil => cases h
    | cons piece pieces ih =>
        rcases Outcome.bind_eq_error.mp h with h | ⟨first, one, h⟩
        · exact ⟨[], piece, pieces, [], arguments, rfl, rfl, h⟩
        · rcases Outcome.bind_eq_error.mp h with h | ⟨others, -, h⟩
          · obtain ⟨front, failing, back, operations, rest, rfl, two, failed⟩ := ih h
            refine ⟨piece :: front, failing, back, first.1 ++ operations, rest, rfl, ?_, failed⟩
            rw [effects, one, Outcome.ok_bind, two]
            rfl
          · cases h
  · rintro ⟨front, piece, back, operations, rest, rfl, done, failed⟩
    rw [effects_append, done, Outcome.ok_bind, effects, failed]
    rfl

end Piece

namespace Control

/-- A directive that breaks off is the last piece. -/
theorem getLast?_of_truncated {text : Text} {d : Directive} (member : .directive d ∈ pieces text)
    (truncated : d.Truncated) : (pieces text).getLast? = some (.directive d) := by
  induction text using piece_induction with
  | nil =>
      rw [pieces] at member
      cases member
  | takes text piece rest h ih =>
      rw [pieces_of_takes h] at member ⊢
      rcases List.mem_cons.mp member with rfl | later
      · cases h with
        | directive d _ whole => exact absurd truncated whole.not_truncated
        | truncated d _ =>
            rw [pieces]
            rfl
      · rw [List.getLast?_cons, ih later]
        rfl

/-- The pieces up to a directive are the same whatever is written behind the text. -/
theorem pieces_append_of_directive {first : Text} {before after : List Piece} {d : Directive}
    (cut : pieces first = before ++ .directive d :: after)
    (whole : ∀ d, .directive d ∈ pieces first → ¬ d.Truncated) (second : Text) :
    ∃ others, pieces (first ++ second) = before ++ .directive d :: others := by
  induction first using piece_induction generalizing before with
  | nil =>
      rw [pieces] at cut
      exact absurd cut.symm (List.append_ne_nil_of_right_ne_nil _ (List.cons_ne_nil _ _))
  | takes text piece rest h ih =>
      rw [pieces_of_takes h] at cut whole
      have front : ∀ d, piece = .directive d → ¬ d.Truncated := by
        intro d hd
        exact whole d (hd ▸ List.mem_cons_self)
      cases before with
      | nil =>
          obtain ⟨rfl, -⟩ := List.cons.inj cut
          have ends : ∀ run, Piece.directive d = .literal run →
              Text.Ends isLiteral (rest ++ second) := by
            intro run same
            cases same
          rw [pieces_of_takes (h.extend front ends)]
          exact ⟨_, rfl⟩
      | cons piece before =>
          obtain ⟨rfl, later⟩ := List.cons.inj cut
          -- a run of literal text is not the last piece, so that it ends within the text
          have ends : ∀ run, piece = .literal run → Text.Ends isLiteral (rest ++ second) := by
            rintro run rfl
            refine h.ends_append ?_ second
            rintro rfl
            rw [pieces] at later
            exact List.append_ne_nil_of_right_ne_nil _ (List.cons_ne_nil _ _) later.symm
          obtain ⟨others, same⟩ := ih later fun d member => whole d (List.mem_cons_of_mem _ member)
          rw [pieces_of_takes (h.extend front ends), same]
          exact ⟨others, rfl⟩

/-- A text that does not end inside a directive, and that fails at a directive when its pieces are
carried out from left to right, fails in the same way before any other text. -/
theorem format_first_fault {first : Text} {arguments rest : Arguments} {before after : List Piece}
    {d : Directive} {operations : List Operation} {fault : Fault}
    (whole : ∀ last, (pieces first).getLast? = some (.directive last) → ¬ last.Truncated)
    (cut : pieces first = before ++ .directive d :: after)
    (reached : Piece.effects before arguments = .ok (operations, rest))
    (fails : (Piece.directive d).effect rest = .error fault) (second : Text) :
    format (first ++ second) arguments = .error fault := by
  have notBroken : ∀ d, .directive d ∈ pieces first → ¬ d.Truncated :=
    fun d member truncated => whole d (getLast?_of_truncated member truncated) truncated
  obtain ⟨others, same⟩ := pieces_append_of_directive cut notBroken second
  have failed : Piece.effects (pieces (first ++ second)) arguments = .error fault :=
    Piece.effects_eq_error.mpr ⟨before, _, others, operations, rest, same, reached, fails⟩
  rw [format_eq_conclude, failed, Outcome.error_bind]

theorem format_first_fault_not_integer :
    (∀ last, (pieces "x~w~2dy".toList).getLast? = some (.directive last) → ¬ last.Truncated) ∧
    pieces "x~w~2dy".toList =
      [.literal ['x'], .directive ⟨.absent, some 'w'⟩] ++
        .directive ⟨.number ['2'], some 'd'⟩ :: [.literal ['y']] ∧
    Piece.effects [.literal ['x'], .directive ⟨.absent, some 'w'⟩] [.int 7, .atom ['a']] =
      .ok ([.chars ['x'], .chars ['7']], [.atom ['a']]) ∧
    (Piece.directive ⟨.number ['2'], some 'd'⟩).effect [.atom ['a']] =
      .error (.wrongType .integer (.atom ['a'])) ∧
    format ("x~w~2dy".toList ++ "z~z~*".toList) [.int 7, .atom ['a']] =
      .error (.wrongType .integer (.atom ['a'])) := by
  have cut : pieces "x~w~2dy".toList =
      [.literal ['x'], .directive ⟨.absent, some 'w'⟩] ++
        .directive ⟨.number ['2'], some 'd'⟩ :: [.literal ['y']] := by
    decide +kernel
  have whole : ∀ last, (pieces "x~w~2dy".toList).getLast? = some (.directive last) →
      ¬ last.Truncated := by
    rw [cut]
    exact fun _ h => nomatch h
  have reached : Piece.effects [.literal ['x'], .directive ⟨.absent, some 'w'⟩]
      [.int 7, .atom ['a']] = .ok ([.chars ['x'], .chars ['7']], [.atom ['a']]) := by
    decide +kernel
  have fails : (Piece.directive ⟨.number ['2'], some 'd'⟩).effect [.atom ['a']] =
      .error (.wrongType .integer (.atom ['a'])) := by
    decide +kernel
  exact ⟨whole, cut, reached, fails, format_first_fault whole cut reached fails "z~z~*".toList⟩

end Control

end LogicFormat
