import LogicFormat.Proofs.Cell.Conservation
import LogicFormat.Proofs.Control.Lines

/-!
# Texts without glue

Each piece of a control text takes its arguments and shows a text for them; tab stops show none.
Without glue nothing stretches, and a control text shows what its pieces show, one after the other.
-/

namespace LogicFormat

/-- A count, the arguments that it takes for itself, and its value. -/
inductive Count.Takes (default : Int) : Count → Arguments → Int → Prop where
  | absent : Takes default .absent [] default
  | number (n : Nat) : Takes default (.number n) [] n
  | next {t : Term} {n : Int} (read : t.int? = some n) : Takes default .next [t] n

/-- A command, the arguments that it takes, and the text that it shows for them. -/
inductive Command.Shows : Command → Arguments → Text → Prop where
  | write {quoted : Bool} {t : Term} {text : Text} (written : t.write ⟨quoted, []⟩ = .ok text) :
      Shows (.write quoted) [t] text
  | atomic {t : Term} {text : Text} (read : t.atomic? = some text) : Shows .atomic [t] text
  | chars {t : Term} {text : Text} (read : t.text? = some text) : Shows .chars [t] text
  | decimal {places : Count} {taken : Arguments} {n : Int} {t : Term} {text : Text}
      (takes : places.Takes 0 taken n) (natural : 0 ≤ n) (shown : Places.fixed t n = .ok text) :
      Shows (.decimal false places) (taken ++ [t]) text
  | grouped {places : Count} {taken : Arguments} {n : Int} {t : Term} {text : Text}
      (takes : places.Takes 0 taken n) (natural : 0 ≤ n) (shown : Places.grouped t n = .ok text) :
      Shows (.decimal true places) (taken ++ [t]) text
  | number {t : Term} {text : Text} (read : t.numeral? = some text) :
      Shows (.float .absent) [t] text
  | float {places : Count} {taken : Arguments} {n : Int} {t : Term} {text : Text}
      (present : places ≠ .absent) (takes : places.Takes 0 taken n) (natural : 0 ≤ n)
      (shown : Places.truncated t n = .ok text) : Shows (.float places) (taken ++ [t]) text
  | ignore (t : Term) : Shows .ignore [t] []
  | newlines {lines : Count} {taken : Arguments} {n : Int} (takes : lines.Takes 1 taken n)
      (natural : 0 ≤ n) : Shows (.newlines lines) taken (List.replicate n.toNat '\n')
  | column {count : Count} {taken : Arguments} {n : Int} (takes : count.Takes 0 taken n) :
      Shows (.column count) taken []
  | relativeColumn {count : Count} {taken : Arguments} {n : Int} (takes : count.Takes 0 taken n) :
      Shows (.relativeColumn count) taken []

namespace Piece

inductive Shows : Piece → Arguments → Text → Prop where
  | literal (text : Text) : Shows (.literal text) [] text
  | tilde : Shows .tilde [] ['~']
  | directive {d : Directive} {taken : Arguments} {text : Text}
      (shows : d.command.Shows taken text) : Shows (.directive d) taken text

/-- Pieces that take their arguments and show their texts one after the other. -/
inductive ShowAll : List Piece → Arguments → Text → Prop where
  | nil : ShowAll [] [] []
  | cons {piece : Piece} {pieces : List Piece} {taken others : Arguments} {text more : Text}
      (first : piece.Shows taken text) (rest : ShowAll pieces others more) :
      ShowAll (piece :: pieces) (taken ++ others) (text ++ more)

end Piece

theorem Arguments.next_eq_ok {token : Text} {arguments rest : Arguments} {t : Term} :
    Arguments.next token arguments = .ok (t, rest) ↔ arguments = t :: rest := by
  cases arguments <;> simp

/-- A run that shows what `Shows` says for the arguments it takes, and puts in no glue. -/
def Effect.Plain (Shows : Arguments → Text → Prop) (run : Arguments → Effect) : Prop :=
  ∀ arguments operations rest, run arguments = .ok (operations, rest) →
    (∀ operation ∈ operations, operation.stretches = false) ∧
      ∃ taken, arguments = taken ++ rest ∧ Shows taken (operations.flatMap Operation.text)

namespace Count

variable {count : Count} {default n : Int} {token : Text} {arguments rest : Arguments}

theorem takes_of_value (h : count.value default token arguments = .ok (n, rest)) :
    ∃ taken, arguments = taken ++ rest ∧ count.Takes default taken n := by
  cases count with
  | absent =>
      cases h
      exact ⟨[], rfl, .absent⟩
  | number k =>
      cases h
      exact ⟨[], rfl, .number k⟩
  | next =>
      obtain ⟨⟨t, others⟩, next, h⟩ := Outcome.bind_eq_ok.mp h
      obtain ⟨k, read, h⟩ := Outcome.bind_eq_ok.mp h
      cases h
      exact ⟨[t], Arguments.next_eq_ok.mp next, .next (Expected.require_eq_ok.mp read)⟩

theorem takes_of_natural (h : count.natural default token arguments = .ok (n, rest)) :
    0 ≤ n ∧ ∃ taken, arguments = taken ++ rest ∧ count.Takes default taken n := by
  obtain ⟨⟨k, others⟩, value, h⟩ := Outcome.bind_eq_ok.mp h
  by_cases negative : k < 0
  · rw [if_pos negative] at h
    cases h
  · rw [if_neg negative] at h
    cases h
    exact ⟨Int.not_lt.mp negative, takes_of_value value⟩

end Count

namespace Command

theorem insert_plain {Shows : Arguments → Text → Prop} {text : Term → Except Fault Text}
    (shows : ∀ t shown, text t = .ok shown → Shows [t] shown) (token : Text) :
    Effect.Plain Shows (insert text token) := by
  intro arguments operations rest h
  obtain ⟨⟨t, others⟩, next, h⟩ := Outcome.bind_eq_ok.mp h
  obtain ⟨shown, converted, h⟩ := Outcome.bind_eq_ok.mp h
  cases h
  refine ⟨List.forall_mem_singleton.mpr rfl, [t], Arguments.next_eq_ok.mp next, ?_⟩
  rw [List.flatMap_singleton]
  exact shows t shown converted

theorem insertPlaces_plain {Shows : Arguments → Text → Prop} {places : Count}
    {text : Term → Int → Except Fault Text}
    (shows : ∀ taken n t shown, places.Takes 0 taken n → 0 ≤ n → text t n = .ok shown →
      Shows (taken ++ [t]) shown)
    (token : Text) : Effect.Plain Shows (insertPlaces text places token) := by
  intro arguments operations rest h
  obtain ⟨⟨n, others⟩, counted, inserting⟩ := Outcome.bind_eq_ok.mp h
  obtain ⟨natural, taken, rfl, takes⟩ := Count.takes_of_natural counted
  have inserted : Effect.Plain (fun last => Shows (taken ++ last)) (insert (text · n) token) :=
    insert_plain (fun t shown converted => shows taken n t shown takes natural converted) token
  obtain ⟨fixed, last, rfl, shown⟩ := inserted others operations rest inserting
  exact ⟨fixed, taken ++ last, (List.append_assoc ..).symm, shown⟩

theorem counted_plain {Shows : Arguments → Text → Prop} {operation : Int → Operation}
    {run : Arguments → Except Fault (Int × Arguments)}
    (fixed : ∀ n, (operation n).stretches = false)
    (shows : ∀ arguments n rest, run arguments = .ok (n, rest) →
      ∃ taken, arguments = taken ++ rest ∧ Shows taken (operation n).text) :
    Effect.Plain Shows fun arguments =>
      run arguments >>= fun done => .ok ([operation done.1], done.2) := by
  intro arguments operations rest h
  obtain ⟨⟨n, others⟩, counted, h⟩ := Outcome.bind_eq_ok.mp h
  cases h
  rw [List.flatMap_singleton]
  exact ⟨List.forall_mem_singleton.mpr (fixed n), shows arguments n others counted⟩

theorem column_plain (count : Count) (token : Text) :
    Effect.Plain (Shows (.column count)) (effect (.column count) token) := by
  have shows (arguments : Arguments) (n : Int) (rest : Arguments)
      (h : count.value 0 token arguments = .ok (n, rest)) :
      ∃ taken, arguments = taken ++ rest ∧ Shows (.column count) taken [] := by
    obtain ⟨taken, split, takes⟩ := Count.takes_of_value h
    exact ⟨taken, split, .column takes⟩
  cases count with
  | absent =>
      rintro arguments _ _ ⟨⟩
      exact ⟨List.forall_mem_singleton.mpr rfl, [], rfl, .column .absent⟩
  | number n => exact counted_plain (fun _ => rfl) shows
  | next => exact counted_plain (fun _ => rfl) shows

theorem effect_plain (command : Command) (token : Text)
    (unstretched : ∀ fill, command ≠ .glue fill) :
    Effect.Plain command.Shows (command.effect token) := by
  cases command with
  | write quoted => exact insert_plain (fun _ _ written => .write written) token
  | atomic => exact insert_plain (fun _ _ read => .atomic (Expected.require_eq_ok.mp read)) token
  | chars => exact insert_plain (fun _ _ read => .chars (Expected.require_eq_ok.mp read)) token
  | decimal grouped places =>
      cases grouped with
      | false => exact insertPlaces_plain (fun _ _ _ _ => .decimal) token
      | true => exact insertPlaces_plain (fun _ _ _ _ => .grouped) token
  | float places =>
      cases places with
      | absent =>
          exact insert_plain (fun _ _ read => .number (Expected.require_eq_ok.mp read)) token
      | number n => exact insertPlaces_plain (fun _ _ _ _ => .float Count.noConfusion) token
      | next => exact insertPlaces_plain (fun _ _ _ _ => .float Count.noConfusion) token
  | ignore =>
      intro arguments operations rest h
      obtain ⟨⟨t, others⟩, next, h⟩ := Outcome.bind_eq_ok.mp h
      cases h
      exact ⟨nofun, [t], Arguments.next_eq_ok.mp next, .ignore t⟩
  | newlines lines =>
      refine counted_plain (fun _ => rfl) fun arguments n rest h => ?_
      obtain ⟨natural, taken, split, takes⟩ := Count.takes_of_natural h
      exact ⟨taken, split, .newlines takes natural⟩
  | column count => exact column_plain count token
  | relativeColumn count =>
      refine counted_plain (fun _ => rfl) fun arguments n rest h => ?_
      obtain ⟨taken, split, takes⟩ := Count.takes_of_value h
      exact ⟨taken, split, .relativeColumn takes⟩
  | glue fill => exact absurd rfl (unstretched fill)
  | unknown => exact fun _ _ _ h => nomatch h

end Command

theorem Directive.letter_of_glue {d : Directive} {fill : Char} (h : d.command = .glue fill) :
    d.letter = some 't' := by
  obtain ⟨parameter, letter⟩ := d
  unfold command at h
  split at h
  case h_12 same => exact same
  all_goals cases parameter <;> cases h

namespace Piece

def Unstretched (piece : Piece) : Prop := ∀ d, piece = .directive d → d.letter ≠ some 't'

theorem effect_plain {piece : Piece} (unstretched : piece.Unstretched) :
    Effect.Plain piece.Shows piece.effect := by
  cases piece with
  | literal text =>
      rintro arguments _ _ ⟨⟩
      refine ⟨List.forall_mem_singleton.mpr rfl, [], rfl, ?_⟩
      rw [List.flatMap_singleton]
      exact .literal text
  | tilde =>
      rintro arguments _ _ ⟨⟩
      exact ⟨List.forall_mem_singleton.mpr rfl, [], rfl, .tilde⟩
  | directive d =>
      intro arguments operations rest h
      have plain := d.command.effect_plain d.token fun fill glue =>
        unstretched d rfl (Directive.letter_of_glue glue)
      obtain ⟨fixed, taken, split, shows⟩ := plain arguments operations rest h
      exact ⟨fixed, taken, split, .directive shows⟩

theorem effects_plain {pieces : List Piece}
    (unstretched : ∀ piece ∈ pieces, piece.Unstretched) :
    Effect.Plain (ShowAll pieces) (effects pieces) := by
  induction pieces with
  | nil =>
      rintro arguments _ _ ⟨⟩
      exact ⟨nofun, [], rfl, .nil⟩
  | cons piece pieces ih =>
      intro arguments operations rest h
      rw [List.forall_mem_cons] at unstretched
      obtain ⟨⟨first, middle⟩, one, h⟩ := Outcome.bind_eq_ok.mp h
      obtain ⟨⟨others, rest⟩, two, h⟩ := Outcome.bind_eq_ok.mp h
      cases h
      obtain ⟨fixed, taken, rfl, shows⟩ := effect_plain unstretched.1 _ _ _ one
      obtain ⟨fixedAll, more, rfl, showAll⟩ := ih unstretched.2 _ _ _ two
      refine ⟨List.forall_mem_append.mpr ⟨fixed, fixedAll⟩, taken ++ more, ?_, ?_⟩
      · exact (List.append_assoc ..).symm
      · rw [List.flatMap_append]
        exact .cons shows showAll

end Piece

namespace Control

theorem showAll_of_format {control text : Text} {arguments : Arguments}
    (unstretched : ∀ piece ∈ pieces control, piece.Unstretched)
    (h : format control arguments = .ok text) : Piece.ShowAll (pieces control) arguments text := by
  rw [format_eq_conclude] at h
  obtain ⟨⟨operations, rest⟩, effects, concluded⟩ := Outcome.bind_eq_ok.mp h
  obtain ⟨rfl, rendered⟩ := conclude_eq_ok.mp concluded
  obtain ⟨fixed, taken, rfl, showAll⟩ := Piece.effects_plain unstretched _ _ _ effects
  rw [Block.renderAll_built fixed] at rendered
  cases rendered
  rw [List.append_nil]
  exact showAll

/-- The elements and newlines of a builder are those that were put in, in their order, and so a
control text without the letter `t` in a directive is formatted as the texts that its pieces show
for their arguments, one after the other. -/
theorem format_conserves (operations : List Operation) (control : Text) (arguments : Arguments) :
    (Builder.empty.performAll operations).contents = Operation.allContents 0 operations ∧
    ∀ text, (∀ d, .directive d ∈ pieces control → d.letter ≠ some 't') →
      format control arguments = .ok text → Piece.ShowAll (pieces control) arguments text := by
  refine ⟨Builder.contents_performAll Builder.empty operations, fun text unstretched h => ?_⟩
  refine showAll_of_format (fun piece member d same => ?_) h
  subst same
  exact unstretched d member

theorem format_conserves_tab_stop :
    (∀ d, .directive d ∈ pieces "ab~4|~w~2nc".toList → d.letter ≠ some 't') ∧
    format "ab~4|~w~2nc".toList [.atom ['x']] = .ok ['a', 'b', 'x', '\n', '\n', 'c'] ∧
    Piece.ShowAll (pieces "ab~4|~w~2nc".toList) [.atom ['x']]
      ['a', 'b', 'x', '\n', '\n', 'c'] := by
  have cut : pieces "ab~4|~w~2nc".toList =
      [.literal ['a', 'b'], .directive ⟨.number ['4'], some '|'⟩, .directive ⟨.absent, some 'w'⟩,
        .directive ⟨.number ['2'], some 'n'⟩, .literal ['c']] := by
    cbv
  have unstretched : ∀ d, .directive d ∈ pieces "ab~4|~w~2nc".toList → d.letter ≠ some 't' := by
    rw [cut]
    intro d member
    simp only [List.mem_cons, Piece.directive.injEq, reduceCtorEq, List.not_mem_nil, false_or,
      or_false] at member
    rcases member with rfl | rfl | rfl <;> decide
  have h : format "ab~4|~w~2nc".toList [.atom ['x']] =
      .ok ['a', 'b', 'x', '\n', '\n', 'c'] := by
    cbv
  exact ⟨unstretched, h, (format_conserves [] _ _).2 _ unstretched h⟩

end Control

end LogicFormat
