import LogicFormat.Control.Span
import LogicFormat.Proofs.Text.Runs

/-!
# The grammar of control texts

A control text is a sequence of runs of literal text, doubled tildes and whole directives, and
perhaps a truncated directive at its end. `Takes` says which piece stands at the front of a
text. The cursor follows this relation, and every text but the empty one has a front piece, so
that facts about the cut of a text are proved by induction on its pieces.
-/

namespace LogicFormat

/-- A directive that has its letter. A letter that could be read as a parameter is none, and
the bare tilde belongs to the doubled one. -/
inductive Directive.Whole : Directive → Prop where
  | plain (c : Char) (notTilde : c ≠ '~') (notStar : c ≠ '*') (notQuote : c ≠ '\x60')
      (notDigit : c.isDigit = false) : Whole ⟨.absent, some c⟩
  | starred (c : Char) : Whole ⟨.next, some c⟩
  | numbered (digits : Text) (c : Char) (nonempty : digits ≠ [])
      (allDigits : ∀ x ∈ digits, x.isDigit = true) (notDigit : c.isDigit = false) :
      Whole ⟨.number digits, some c⟩
  | filled (fill c : Char) : Whole ⟨.fill fill, some c⟩

inductive Directive.Truncated : Directive → Prop where
  | bare : Truncated ⟨.absent, none⟩
  | backquoted : Truncated ⟨.absent, some '\x60'⟩
  | starred : Truncated ⟨.next, none⟩
  | numbered (digits : Text) (nonempty : digits ≠ [])
      (allDigits : ∀ x ∈ digits, x.isDigit = true) : Truncated ⟨.number digits, none⟩
  | filled (fill : Char) : Truncated ⟨.fill fill, none⟩

namespace Piece

inductive Whole : Piece → Prop where
  | literal (run : Text) (nonempty : run ≠ []) (noTilde : ∀ c ∈ run, c ≠ '~') :
      Whole (.literal run)
  | tilde : Whole .tilde
  | directive (d : Directive) (whole : d.Whole) : Whole (.directive d)

/-- Two runs of literal text would be one. -/
def Apart : Piece → Piece → Prop
  | .literal _, .literal _ => False
  | _, _ => True

end Piece

namespace Control

/-- The piece at the front of a text, and what stands behind it. -/
inductive Takes : Text → Piece → Text → Prop where
  | literal (run rest : Text) (nonempty : run ≠ []) (noTilde : ∀ c ∈ run, c ≠ '~')
      (ends : Text.Ends isLiteral rest) : Takes (run ++ rest) (.literal run) rest
  | tilde (rest : Text) : Takes ('~' :: '~' :: rest) .tilde rest
  | directive (d : Directive) (rest : Text) (whole : d.Whole) :
      Takes (d.source ++ rest) (.directive d) rest
  | truncated (d : Directive) (truncated : d.Truncated) : Takes d.source (.directive d) []

theorem Takes.text_eq {text rest : Text} {piece : Piece} (h : Takes text piece rest) :
    text = piece.source ++ rest := by
  cases h with
  | literal => rfl
  | tilde => rfl
  | directive => rfl
  | truncated => exact (List.append_nil _).symm

theorem Takes.length_lt {text rest : Text} {piece : Piece} (h : Takes text piece rest) :
    rest.length < text.length := by
  have pos : 0 < piece.source.length := by
    cases h with
    | literal run _ nonempty => exact List.length_pos_iff.mpr nonempty
    | tilde => exact Nat.zero_lt_succ _
    | directive d => exact List.length_pos_iff.mpr d.source_ne_nil
    | truncated d => exact List.length_pos_iff.mpr d.source_ne_nil
  rw [h.text_eq, List.length_append]
  omega

/-! ## The cursor follows the grammar -/

theorem scanParameter_plain {c : Char} (rest : Text) (notStar : c ≠ '*') (notQuote : c ≠ '\x60')
    (notDigit : c.isDigit = false) : scanParameter (c :: rest) = (.absent, c :: rest) := by
  unfold scanParameter
  split
  · next h => exact absurd (List.cons.inj h).1 notStar
  · next h => exact absurd (List.cons.inj h).1 notQuote
  · simp [notDigit]

theorem scanParameter_number {digits : Text} (rest : Text) (nonempty : digits ≠ [])
    (allDigits : ∀ x ∈ digits, x.isDigit = true) (ends : Text.Ends Char.isDigit rest) :
    scanParameter (digits ++ rest) = (.number digits, rest) := by
  have taken := Text.takeWhile_run allDigits ends
  have dropped := Text.dropWhile_run allDigits ends
  obtain ⟨x, digits, rfl⟩ := List.exists_cons_of_ne_nil nonempty
  have hx : x.isDigit = true := allDigits x List.mem_cons_self
  unfold scanParameter
  split
  · next h =>
      rw [(List.cons.inj h).1] at hx
      exact absurd hx (by decide)
  · next h =>
      rw [(List.cons.inj h).1] at hx
      exact absurd hx (by decide)
  · rw [taken, dropped]

theorem scanDirective_whole {d : Directive} (rest : Text) (whole : d.Whole) :
    scanDirective (d.parameter.source ++ d.letter.toList ++ rest) = (d, rest) := by
  cases whole with
  | plain c notTilde notStar notQuote notDigit =>
      show scanDirective (c :: rest) = _
      rw [scanDirective, scanParameter_plain rest notStar notQuote notDigit]
  | starred c => rfl
  | numbered digits c nonempty allDigits notDigit =>
      show scanDirective (digits ++ [c] ++ rest) = _
      rw [List.append_assoc, List.singleton_append, scanDirective,
        scanParameter_number (c :: rest) nonempty allDigits (Text.ends_cons.mpr notDigit)]
  | filled fill c => rfl

theorem scanDirective_truncated {d : Directive} (truncated : d.Truncated) :
    scanDirective (d.parameter.source ++ d.letter.toList) = (d, []) := by
  cases truncated with
  | bare => rfl
  | backquoted => rfl
  | starred => rfl
  | numbered digits nonempty allDigits =>
      show scanDirective (digits ++ []) = _
      rw [scanDirective, scanParameter_number [] nonempty allDigits Text.ends_nil]
  | filled fill => rfl

theorem ofDirective_whole {d : Directive} (whole : d.Whole) : ofDirective d = .directive d := by
  cases whole with
  | plain c notTilde => exact if_neg (by simpa using notTilde)
  | starred c => rfl
  | numbered digits c => rfl
  | filled fill c => rfl

theorem ofDirective_truncated {d : Directive} (truncated : d.Truncated) :
    ofDirective d = .directive d := by
  cases truncated <;> rfl

/-- The front piece of a text that begins with `c`, as the cursor takes it. -/
def front (c : Char) (text : Text) : Piece × Text :=
  if c = '~' then (ofDirective (scanDirective text).1, (scanDirective text).2)
  else (.literal (c :: text.takeWhile isLiteral), text.dropWhile isLiteral)

theorem pieces_cons (c : Char) (text : Text) :
    pieces (c :: text) = (front c text).1 :: pieces (front c text).2 := by
  rw [pieces, front]
  split <;> rfl

theorem spansFrom_cons (position : Nat) (c : Char) (text : Text) :
    spansFrom position (c :: text) =
      let stop := advanced position (c :: text) (front c text).2
      ⟨position, stop, (front c text).1⟩ :: spansFrom stop (front c text).2 := by
  rw [spansFrom, front]
  split <;> rfl

theorem front_of_takes {c : Char} {text rest : Text} {piece : Piece}
    (h : Takes (c :: text) piece rest) : front c text = (piece, rest) := by
  generalize hwhole : c :: text = whole at h
  cases h with
  | literal run _ nonempty noTilde ends =>
      obtain ⟨x, run, rfl⟩ := List.exists_cons_of_ne_nil nonempty
      rw [List.cons_append] at hwhole
      obtain ⟨rfl, rfl⟩ := List.cons.inj hwhole
      have hc : c ≠ '~' := noTilde c List.mem_cons_self
      have inside : ∀ x ∈ run, isLiteral x = true := by
        intro x hx
        exact decide_eq_true (noTilde x (List.mem_cons_of_mem _ hx))
      rw [front, if_neg hc, Text.takeWhile_run inside ends, Text.dropWhile_run inside ends]
  | tilde =>
      obtain ⟨rfl, rfl⟩ := List.cons.inj hwhole
      rfl
  | directive d _ whole =>
      change c :: text = '~' :: (d.parameter.source ++ d.letter.toList ++ rest) at hwhole
      obtain ⟨rfl, rfl⟩ := List.cons.inj hwhole
      rw [front, if_pos rfl, scanDirective_whole rest whole, ofDirective_whole whole]
  | truncated d truncated =>
      change c :: text = '~' :: (d.parameter.source ++ d.letter.toList) at hwhole
      obtain ⟨rfl, rfl⟩ := List.cons.inj hwhole
      rw [front, if_pos rfl, scanDirective_truncated truncated, ofDirective_truncated truncated]

theorem Takes.ne_nil {text rest : Text} {piece : Piece} (h : Takes text piece rest) :
    text ≠ [] := by
  have := h.length_lt
  exact List.length_pos_iff.mp (by omega)

theorem pieces_of_takes {text rest : Text} {piece : Piece} (h : Takes text piece rest) :
    pieces text = piece :: pieces rest := by
  obtain ⟨c, text, rfl⟩ := List.exists_cons_of_ne_nil h.ne_nil
  rw [pieces_cons, front_of_takes h]

theorem spansFrom_of_takes (position : Nat) {text rest : Text} {piece : Piece}
    (h : Takes text piece rest) :
    spansFrom position text =
      ⟨position, position + piece.source.length, piece⟩
        :: spansFrom (position + piece.source.length) rest := by
  have stop : advanced position text rest = position + piece.source.length := by
    rw [h.text_eq]
    simp [advanced]
  obtain ⟨c, text, rfl⟩ := List.exists_cons_of_ne_nil h.ne_nil
  rw [spansFrom_cons, front_of_takes h, stop]

/-! ## Every text has a front piece -/

theorem exists_takes_star (text : Text) : ∃ piece rest, Takes ('~' :: '*' :: text) piece rest := by
  cases text with
  | nil => exact ⟨_, _, .truncated ⟨.next, none⟩ .starred⟩
  | cons c rest => exact ⟨_, _, .directive ⟨.next, some c⟩ rest (.starred c)⟩

theorem exists_takes_fill (text : Text) :
    ∃ piece rest, Takes ('~' :: '\x60' :: text) piece rest := by
  match text with
  | [] => exact ⟨_, _, .truncated ⟨.absent, some '\x60'⟩ .backquoted⟩
  | [fill] => exact ⟨_, _, .truncated ⟨.fill fill, none⟩ (.filled fill)⟩
  | fill :: c :: rest => exact ⟨_, _, .directive ⟨.fill fill, some c⟩ rest (.filled fill c)⟩

theorem exists_takes_digits {digits : Text} (rest : Text) (nonempty : digits ≠ [])
    (allDigits : ∀ x ∈ digits, x.isDigit = true) (ends : Text.Ends Char.isDigit rest) :
    ∃ piece rest', Takes ('~' :: (digits ++ rest)) piece rest' := by
  cases rest with
  | nil =>
      have h := Takes.truncated ⟨.number digits, none⟩ (.numbered digits nonempty allDigits)
      exact ⟨_, _, h⟩
  | cons c rest =>
      have h := Takes.directive ⟨.number digits, some c⟩ rest
        (.numbered digits c nonempty allDigits (Text.ends_cons.mp ends))
      have text : '~' :: (digits ++ c :: rest) = ('~' :: digits ++ [c]) ++ rest := by simp
      exact ⟨_, _, text ▸ h⟩

theorem exists_takes_tilde (text : Text) : ∃ piece rest, Takes ('~' :: text) piece rest := by
  cases text with
  | nil => exact ⟨_, _, .truncated ⟨.absent, none⟩ .bare⟩
  | cons c text =>
      by_cases tilde : c = '~'
      · subst tilde
        exact ⟨_, _, .tilde text⟩
      by_cases star : c = '*'
      · subst star
        exact exists_takes_star text
      by_cases quote : c = '\x60'
      · subst quote
        exact exists_takes_fill text
      cases digit : c.isDigit with
      | false => exact ⟨_, _, .directive ⟨.absent, some c⟩ text (.plain c tilde star quote digit)⟩
      | true =>
          have allDigits : ∀ x ∈ c :: text.takeWhile Char.isDigit, x.isDigit = true := by
            intro x hx
            rcases List.mem_cons.mp hx with rfl | hx
            · exact digit
            · exact List.all_eq_true.mp List.all_takeWhile x hx
          have h := exists_takes_digits (text.dropWhile Char.isDigit) (List.cons_ne_nil _ _)
            allDigits (Text.ends_dropWhile _ _)
          rwa [List.cons_append, List.takeWhile_append_dropWhile] at h

theorem exists_takes {text : Text} (nonempty : text ≠ []) :
    ∃ piece rest, Takes text piece rest := by
  obtain ⟨c, text, rfl⟩ := List.exists_cons_of_ne_nil nonempty
  by_cases tilde : c = '~'
  · exact tilde ▸ exists_takes_tilde text
  · have noTilde : ∀ x ∈ c :: text.takeWhile isLiteral, x ≠ '~' := by
      intro x hx
      rcases List.mem_cons.mp hx with rfl | hx
      · exact tilde
      · exact of_decide_eq_true (List.all_eq_true.mp List.all_takeWhile x hx)
    have h := Takes.literal _ (text.dropWhile isLiteral) (List.cons_ne_nil _ _) noTilde
      (Text.ends_dropWhile _ _)
    rw [List.cons_append, List.takeWhile_append_dropWhile] at h
    exact ⟨_, _, h⟩

theorem piece_induction {motive : Text → Prop} (nil : motive [])
    (takes : ∀ text piece rest, Takes text piece rest → motive rest → motive text)
    (text : Text) : motive text := by
  by_cases h : text = []
  · exact h ▸ nil
  · obtain ⟨piece, rest, ht⟩ := exists_takes h
    have := ht.length_lt
    exact takes text piece rest ht (piece_induction nil takes rest)
termination_by text.length

/-! ## Texts one after the other -/

/-- A piece is not changed by what follows its text, unless this goes on with its run of literal
text or with its truncated directive. -/
theorem Takes.extend {text rest more : Text} {piece : Piece} (h : Takes text piece rest)
    (whole : ∀ d, piece = .directive d → ¬ d.Truncated)
    (ends : ∀ run, piece = .literal run → Text.Ends isLiteral (rest ++ more)) :
    Takes (text ++ more) piece (rest ++ more) := by
  cases h with
  | literal run _ nonempty noTilde =>
      rw [List.append_assoc]
      exact .literal run _ nonempty noTilde (ends run rfl)
  | tilde => exact .tilde _
  | directive d _ hd =>
      rw [List.append_assoc]
      exact .directive d _ hd
  | truncated d hd => exact absurd hd (whole d rfl)

theorem Takes.ends_append {text rest : Text} {run : Text} (h : Takes text (.literal run) rest)
    (nonempty : rest ≠ []) (more : Text) : Text.Ends isLiteral (rest ++ more) := by
  cases h with
  | literal run rest _ _ ends =>
      obtain ⟨c, rest, rfl⟩ := List.exists_cons_of_ne_nil nonempty
      exact Text.ends_cons.mpr (Text.ends_cons.mp ends)

theorem Takes.append {text rest more : Text} {piece : Piece} (h : Takes text piece rest)
    (whole : ∀ d, piece = .directive d → ¬ d.Truncated) (ends : Text.Ends isLiteral more) :
    Takes (text ++ more) piece (rest ++ more) := by
  refine h.extend whole fun run literal => ?_
  subst literal
  by_cases last : rest = []
  · rw [last]
    exact ends
  · exact h.ends_append last more

/-- A text that does not end inside a directive is cut by itself, if what follows begins with a
tilde and so adds nothing to a run of literal text at its end. -/
theorem pieces_append {more : Text} (ends : Text.Ends isLiteral more) (text : Text)
    (whole : ∀ d, .directive d ∈ pieces text → ¬ d.Truncated) :
    pieces (text ++ more) = pieces text ++ pieces more := by
  induction text using piece_induction with
  | nil => rw [pieces, List.nil_append, List.nil_append]
  | takes text piece rest h ih =>
      rw [pieces_of_takes h] at whole ⊢
      have front : ∀ d, piece = .directive d → ¬ d.Truncated := by
        intro d hd
        exact whole d (hd ▸ List.mem_cons_self)
      rw [pieces_of_takes (h.append front ends), List.cons_append,
        ih fun d hd => whole d (List.mem_cons_of_mem _ hd)]

end Control

end LogicFormat
