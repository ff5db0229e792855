import LogicFormat.Proofs.Cell.Frames
import LogicFormat.Proofs.Control.Lines

/-!
# Tables line up

Of the arguments of a control text, only those that a star takes for a count bear on the frame of
the page. Two runs on arguments that agree there carry out operations that differ in texts only, and
so their newlines, tab stops and glue are the same.
-/

namespace LogicFormat

variable {α β γ : Type}

namespace Arguments

/-- The arguments are the same wherever they are taken for a count. -/
def Agree (counts : List Bool) (one two : Arguments) : Prop :=
  ∀ k : Nat, counts[k]? = some true → one[k]? = two[k]?

variable {counts : List Bool} {s t : Term} {one two : Arguments}

theorem Agree.tail {isCount : Bool} (h : Agree (isCount :: counts) (s :: one) (t :: two)) :
    Agree counts one two :=
  fun k => h (k + 1)

theorem Agree.head (h : Agree (true :: counts) (s :: one) (t :: two)) : s = t :=
  Option.some_inj.mp (h 0 rfl)

end Arguments

open Arguments (Agree)

/-- Two runs that take arguments of which `counts` tells which are counts: where these are the same,
the results are related, and the counts behind them are still the same. -/
def InStep (counts : List Bool) (R : α → α → Prop)
    (f g : Arguments → Except Fault (α × Arguments)) : Prop :=
  ∀ one two a b restOne restTwo, f one = .ok (a, restOne) → g two = .ok (b, restTwo) →
    ∀ more, Agree (counts ++ more) one two → R a b ∧ Agree more restOne restTwo

namespace InStep

variable {R : α → α → Prop} {S : β → β → Prop}

theorem pure {a b : α} (related : R a b) :
    InStep [] R (fun one => .ok (a, one)) fun two => .ok (b, two) := by
  rintro one two _ _ _ _ ⟨⟩ ⟨⟩ more agree
  exact ⟨related, agree⟩

theorem fail (counts : List Bool) (fault : Fault) (g : Arguments → Except Fault (α × Arguments)) :
    InStep counts R (fun _ => .error fault) g :=
  fun _ _ _ _ _ _ h => nomatch h

theorem next (token : Text) :
    InStep [false] (fun _ _ => True) (Arguments.next token) (Arguments.next token) := by
  intro one two a b restOne restTwo hone htwo more agree
  cases one with
  | nil => cases hone
  | cons s one =>
      cases two with
      | nil => cases htwo
      | cons t two =>
          cases hone
          cases htwo
          exact ⟨trivial, agree.tail⟩

theorem nextCount (token : Text) :
    InStep [true] Eq (Arguments.next token) (Arguments.next token) := by
  intro one two a b restOne restTwo hone htwo more agree
  cases one with
  | nil => cases hone
  | cons s one =>
      cases two with
      | nil => cases htwo
      | cons t two =>
          cases hone
          cases htwo
          exact ⟨agree.head, agree.tail⟩

theorem bind {first second : List Bool} {f g : Arguments → Except Fault (α × Arguments)}
    (h : InStep first R f g) (left right : α → Arguments → Except Fault (β × Arguments))
    (h' : ∀ a b, R a b → InStep second S (left a) (right b)) :
    InStep (first ++ second) S (fun one => f one >>= fun done => left done.1 done.2)
      fun two => g two >>= fun done => right done.1 done.2 := by
  intro one two a b restOne restTwo hone htwo more agree
  obtain ⟨⟨c, midOne⟩, fone, hone⟩ := Outcome.bind_eq_ok.mp hone
  obtain ⟨⟨d, midTwo⟩, gtwo, htwo⟩ := Outcome.bind_eq_ok.mp htwo
  rw [List.append_assoc] at agree
  obtain ⟨related, agree⟩ := h _ _ _ _ _ _ fone gtwo _ agree
  exact h' c d related _ _ _ _ _ _ hone htwo more agree

theorem settle {counts : List Bool} {f g : Arguments → Except Fault (α × Arguments)}
    (h : InStep counts R f g) (behind : α → Arguments → Except Fault (β × Arguments))
    (h' : ∀ a b, R a b → InStep [] S (behind a) (behind b)) :
    InStep counts S (fun one => f one >>= fun done => behind done.1 done.2)
      fun two => g two >>= fun done => behind done.1 done.2 := by
  have both := h.bind behind behind h'
  rwa [List.append_nil] at both

theorem map {counts : List Bool} {f g : Arguments → Except Fault (α × Arguments)}
    (h : InStep counts R f g) (left right : α → β)
    (related : ∀ a b, R a b → S (left a) (right b)) :
    InStep counts S (fun one => f one >>= fun done => .ok (left done.1, done.2))
      fun two => g two >>= fun done => .ok (right done.1, done.2) := by
  have both := h.bind (fun a rest => .ok (left a, rest)) (fun b rest => .ok (right b, rest))
    fun a b same => .pure (related a b same)
  rwa [List.append_nil] at both

theorem read {one two : Except Fault α} {result : α → β}
    (related : ∀ a b, one = .ok a → two = .ok b → S (result a) (result b)) :
    InStep [] S (fun rest => one >>= fun a => .ok (result a, rest))
      fun rest => two >>= fun b => .ok (result b, rest) := by
  intro restOne restTwo a b _ _ hone htwo more agree
  obtain ⟨x, hx, hone⟩ := Outcome.bind_eq_ok.mp hone
  obtain ⟨y, hy, htwo⟩ := Outcome.bind_eq_ok.mp htwo
  cases hone
  cases htwo
  exact ⟨related x y hx hy, agree⟩

end InStep

namespace Count

theorem value_inStep (count : Count) (default : Int) (token : Text) :
    InStep count.counts Eq (count.value default token) (count.value default token) := by
  cases count with
  | absent => exact .pure rfl
  | number n => exact .pure rfl
  | next =>
      refine (InStep.nextCount token).settle (fun t rest =>
        Expected.integer.require t t.int? >>= fun n => .ok (id n, rest)) fun s t same => ?_
      refine .read fun m n one two => ?_
      rw [same, two] at one
      cases one
      rfl

theorem natural_inStep (count : Count) (default : Int) (token : Text) :
    InStep count.counts Eq (count.natural default token) (count.natural default token) := by
  refine (count.value_inStep default token).settle
    (fun n rest => if n < 0 then .error (.negativeCount n) else .ok (n, rest)) fun m n same => ?_
  subst same
  by_cases negative : m < 0
  · simp only [if_pos negative]
    exact .fail [] _ _
  · simp only [if_neg negative]
    exact .pure rfl

end Count

namespace Command

abbrev AllAlike : List Operation → List Operation → Prop := List.Forall₂ Operation.Alike

theorem allAlike_refl (operations : List Operation) : AllAlike operations operations :=
  List.forall₂_same.mpr fun operation _ => .refl operation

theorem insert_inStep (text : Term → Except Fault Text) (token : Text) :
    InStep [false] AllAlike (insert text token) (insert text token) :=
  (InStep.next token).settle
    (fun t rest => text t >>= fun shown => .ok ([Operation.chars shown], rest))
    fun _ _ _ => .read fun one two _ _ => .cons (.chars one two) .nil

theorem insertPlaces_inStep (text : Term → Int → Except Fault Text) (count : Count)
    (token : Text) :
    InStep (count.counts ++ [false]) AllAlike (insertPlaces text count token)
      (insertPlaces text count token) := by
  refine (count.natural_inStep 0 token).bind (fun n => insert (text · n) token)
    (fun n => insert (text · n) token) fun m n same => ?_
  rw [same]
  exact insert_inStep (text · n) token

theorem counted_inStep {counts : List Bool} {run : Arguments → Except Fault (Int × Arguments)}
    (h : InStep counts Eq run run) (operation : Int → Operation) :
    InStep counts AllAlike (fun one => run one >>= fun done => .ok ([operation done.1], done.2))
      fun two => run two >>= fun done => .ok ([operation done.1], done.2) := by
  refine h.map (fun n => [operation n]) (fun n => [operation n]) fun m n same => ?_
  rw [same]
  exact allAlike_refl _

theorem effect_inStep (command : Command) (token : Text) :
    InStep command.counts AllAlike (command.effect token) (command.effect token) := by
  cases command with
  | write quoted => exact insert_inStep _ token
  | atomic => exact insert_inStep _ token
  | chars => exact insert_inStep _ token
  | decimal grouped count =>
      cases grouped with
      | false => exact insertPlaces_inStep _ count token
      | true => exact insertPlaces_inStep _ count token
  | float count =>
      cases count with
      | absent => exact insert_inStep _ token
      | number n => exact insertPlaces_inStep _ (.number n) token
      | next => exact insertPlaces_inStep _ .next token
  | ignore => exact (InStep.next token).map (fun _ => []) (fun _ => []) fun _ _ _ => .nil
  | newlines count => exact counted_inStep (count.natural_inStep 1 token) .newlines
  | column count =>
      cases count with
      | absent => exact .pure (allAlike_refl _)
      | number n => exact counted_inStep (Count.value_inStep (.number n) 0 token) .column
      | next => exact counted_inStep (Count.value_inStep .next 0 token) .column
  | relativeColumn count => exact counted_inStep (count.value_inStep 0 token) .relativeColumn
  | glue fill => exact .pure (allAlike_refl _)
  | unknown => exact .fail _ _ _

end Command

namespace Piece

def counts : Piece → List Bool
  | .literal _ => []
  | .tilde => []
  | .directive d => d.counts

open Command (AllAlike allAlike_refl)

theorem effect_inStep (piece : Piece) :
    InStep piece.counts AllAlike piece.effect piece.effect := by
  cases piece with
  | literal text => exact .pure (allAlike_refl _)
  | tilde => exact .pure (allAlike_refl _)
  | directive d =>
      show InStep d.counts AllAlike (d.command.effect d.token) (d.command.effect d.token)
      by_cases known : d.command = .unknown
      · rw [known]
        exact .fail _ _ _
      · rw [Directive.counts_eq known]
        exact d.command.effect_inStep d.token

theorem effects_inStep (pieces : List Piece) :
    InStep (pieces.flatMap counts) AllAlike (effects pieces) (effects pieces) := by
  induction pieces with
  | nil => exact .pure .nil
  | cons piece pieces ih =>
      have behind (left right : List Operation) (alike : AllAlike left right) :=
        ih.map (S := AllAlike) (left ++ ·) (right ++ ·) fun _ _ more => List.rel_append alike more
      exact piece.effect_inStep.bind _ _ behind

end Piece

namespace Control

/-- For each argument of a control text, from the first one on, whether a star takes it for a
count. -/
def counts (control : Text) : List Bool := (pieces control).flatMap Piece.counts

/-- Two lists of arguments with the same counts give one control text the same newlines, and the
same cells with glue between the same tab stops, whatever texts there are in any cell. -/
theorem frames_blocks {control : Text} {one two : Arguments} {left right : List Block}
    (first : blocks control one = .ok left) (second : blocks control two = .ok right)
    (agree : ∀ k : Nat, (counts control)[k]? = some true → one[k]? = two[k]?) :
    Block.frames left = Block.frames right := by
  obtain ⟨operations, effects, rfl⟩ := blocks_eq_ok.mp first
  obtain ⟨others, othersEffects, rfl⟩ := blocks_eq_ok.mp second
  have counted : Agree ((pieces control).flatMap Piece.counts ++ []) one two := by
    rw [List.append_nil]
    exact agree
  obtain ⟨alike, -⟩ :=
    Piece.effects_inStep (pieces control) _ _ _ _ _ _ effects othersEffects [] counted
  exact ((Builder.Alike.refl Builder.empty).performAll alike).finish.frames

def columns : Text := "~a~2|~w~t~*+~n~t~s~4|"

/-- With one list of arguments there is no cell in the first column, and with the other the text of
the last cell overflows. -/
theorem frames_blocks_columns :
    blocks columns [.atom [], .int 7, .int 6, .atom ['a']] =
      .ok [.cell ⟨2, 8, [.chars ['7'], .glue [' '] 0]⟩, .newline,
        .cell ⟨0, 4, [.glue [' '] 0, .chars ['a']]⟩] ∧
    blocks columns [.atom ['x'], .atom [], .int 6, .atom ['a', 'b', 'c', 'd', 'e']] =
      .ok [.cell ⟨0, 2, [.chars ['x']]⟩, .cell ⟨2, 8, [.glue [' '] 0]⟩, .newline,
        .cell ⟨0, 4, [.glue [' '] 0, .chars ['a', 'b', 'c', 'd', 'e']]⟩] ∧
    (∀ k : Nat, (counts columns)[k]? = some true →
      [Term.atom [], .int 7, .int 6, .atom ['a']][k]? =
        [Term.atom ['x'], .atom [], .int 6, .atom ['a', 'b', 'c', 'd', 'e']][k]?) ∧
    Block.frames [.cell ⟨2, 8, [.chars ['7'], .glue [' '] 0]⟩, .newline,
        .cell ⟨0, 4, [.glue [' '] 0, .chars ['a']]⟩] =
      Block.frames [.cell ⟨0, 2, [.chars ['x']]⟩, .cell ⟨2, 8, [.glue [' '] 0]⟩, .newline,
        .cell ⟨0, 4, [.glue [' '] 0, .chars ['a', 'b', 'c', 'd', 'e']]⟩] := by
  have first : blocks columns [.atom [], .int 7, .int 6, .atom ['a']] =
      .ok [.cell ⟨2, 8, [.chars ['7'], .glue [' '] 0]⟩, .newline,
        .cell ⟨0, 4, [.glue [' '] 0, .chars ['a']]⟩] := by
    decide +kernel
  have second : blocks columns [.atom ['x'], .atom [], .int 6, .atom ['a', 'b', 'c', 'd', 'e']] =
      .ok [.cell ⟨0, 2, [.chars ['x']]⟩, .cell ⟨2, 8, [.glue [' '] 0]⟩, .newline,
        .cell ⟨0, 4, [.glue [' '] 0, .chars ['a', 'b', 'c', 'd', 'e']]⟩] := by
    decide +kernel
  have counted : counts columns = [false, false, true, false] := by
    decide +kernel
  have agree : ∀ k : Nat, (counts columns)[k]? = some true →
      [Term.atom [], .int 7, .int 6, .atom ['a']][k]? =
        [Term.atom ['x'], .atom [], .int 6, .atom ['a', 'b', 'c', 'd', 'e']][k]? := by
    intro k isCount
    rw [counted] at isCount
    match k with
    | 0 => cases isCount
    | 1 => cases isCount
    | 2 => rfl
    | 3 => cases isCount
    | k + 4 => cases isCount
  exact ⟨first, second, agree, frames_blocks first second agree⟩

end Control

end LogicFormat
