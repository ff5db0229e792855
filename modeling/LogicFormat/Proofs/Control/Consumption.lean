import LogicFormat.Control.Format
import LogicFormat.Proofs.Control.Grammar

/-!
# Consumption of arguments

Whatever takes arguments takes a fixed number of them off the front, does not look at the ones
behind them, and with too few misses the first one that is not there. This holds of the next
argument, is kept where one taking follows another, and so holds of every piece and of whole
control texts.
-/

namespace LogicFormat

variable {α β γ : Type}

/-- The run takes exactly the arguments `taken`, one for each of `tokens`. Cut short, it misses
the first argument that is not there, and blames the token for which it would be taken. -/
structure Consumed (tokens : List Text) (run : Arguments → Except Fault (α × Arguments))
    (taken : Arguments) (a : α) : Prop where
  length : taken.length = tokens.length
  more : ∀ more, run (taken ++ more) = .ok (a, more)
  missing : ∀ k token, tokens[k]? = some token →
    run (taken.take k) = .error (.missingArgument token)

/-- Whenever the run succeeds, it has taken one argument for each of `tokens`. -/
def Consumes (tokens : List Text) (run : Arguments → Except Fault (α × Arguments)) : Prop :=
  ∀ (arguments : Arguments) (a : α) (rest : Arguments), run arguments = .ok (a, rest) →
    ∃ taken, arguments = taken ++ rest ∧ Consumed tokens run taken a

namespace Consumed

variable {first second : List Text} {f : Arguments → Except Fault (α × Arguments)}
  {g : α → Arguments → Except Fault (β × Arguments)} {one two : Arguments} {a : α} {b : β}

/-- Cut short in the first run, the second is not reached; cut short behind it, the first is
completed. -/
theorem bind (hf : Consumed first f one a) (hg : Consumed second (g a) two b) :
    Consumed (first ++ second) (fun arguments => f arguments >>= fun done => g done.1 done.2)
      (one ++ two) b := by
  refine ⟨?_, ?_, ?_⟩
  · rw [List.length_append, List.length_append, hf.length, hg.length]
  · intro more
    rw [List.append_assoc, hf.more, Outcome.ok_bind, hg.more]
  · intro k token hk
    have length := hf.length
    by_cases h : k < first.length
    · rw [List.getElem?_append_left h] at hk
      have cut : (one ++ two).take k = one.take k :=
        List.take_append_of_le_length (by omega)
      rw [cut, hf.missing k token hk, Outcome.error_bind]
    · rw [List.getElem?_append_right (by omega)] at hk
      have cut : (one ++ two).take k = one ++ two.take (k - first.length) := by
        rw [List.take_append, List.take_of_length_le (by omega), length]
      rw [cut, hf.more, Outcome.ok_bind, hg.missing _ token hk]

end Consumed

namespace Consumes

theorem pure (a : α) : Consumes [] fun arguments => .ok (a, arguments) := by
  rintro arguments _ _ ⟨⟩
  exact ⟨[], rfl, rfl, fun _ => rfl, fun _ _ h => nomatch h⟩

theorem fail (tokens : List Text) (fault : Fault) :
    Consumes tokens fun _ => (.error fault : Except Fault (α × Arguments)) :=
  fun _ _ _ h => nomatch h

theorem next (token : Text) : Consumes [token] (Arguments.next token) := by
  intro arguments a rest h
  cases arguments with
  | nil => exact nomatch h
  | cons t arguments =>
      cases h
      refine ⟨[a], rfl, rfl, fun _ => rfl, ?_⟩
      intro k other hk
      cases k with
      | zero =>
          cases hk
          rfl
      | succ k => exact nomatch hk

theorem bind {first second : List Text} {f : Arguments → Except Fault (α × Arguments)}
    {g : α → Arguments → Except Fault (β × Arguments)} (hf : Consumes first f)
    (hg : ∀ a, Consumes second (g a)) :
    Consumes (first ++ second) fun arguments => f arguments >>= fun done => g done.1 done.2 := by
  intro arguments b rest h
  obtain ⟨⟨a, middle⟩, h₁, h₂⟩ := Outcome.bind_eq_ok.mp h
  obtain ⟨one, rfl, hone⟩ := hf _ _ _ h₁
  obtain ⟨two, rfl, htwo⟩ := hg a _ _ _ h₂
  exact ⟨one ++ two, (List.append_assoc ..).symm, hone.bind htwo⟩

/-- What comes behind may need no arguments of its own. -/
theorem settle {tokens : List Text} {f : Arguments → Except Fault (α × Arguments)}
    (hf : Consumes tokens f) (g : α → Arguments → Except Fault (β × Arguments))
    (hg : ∀ a, Consumes [] (g a)) :
    Consumes tokens fun arguments => f arguments >>= fun done => g done.1 done.2 := by
  have h := hf.bind hg
  rwa [List.append_nil] at h

theorem convert {tokens : List Text} {f : Arguments → Except Fault (α × Arguments)}
    (hf : Consumes tokens f) (read : α → Except Fault β) (result : β → γ) :
    Consumes tokens fun arguments => f arguments >>= fun done =>
      read done.1 >>= fun b => .ok (result b, done.2) := by
  refine hf.settle (fun a rest => read a >>= fun b => .ok (result b, rest)) fun a => ?_
  cases read a with
  | error fault => exact fail [] fault
  | ok b => exact pure (result b)

theorem map {tokens : List Text} {f : Arguments → Except Fault (α × Arguments)}
    (hf : Consumes tokens f) (result : α → β) :
    Consumes tokens fun arguments => f arguments >>= fun done => .ok (result done.1, done.2) :=
  hf.convert (fun a => .ok a) result

end Consumes

namespace Count

def need : Count → Nat
  | .next => 1
  | _ => 0

def counts (count : Count) : List Bool := List.replicate count.need true

theorem value_consumes (count : Count) (default : Int) (token : Text) :
    Consumes (List.replicate count.need token) (count.value default token) := by
  cases count with
  | absent => exact .pure default
  | number n => exact .pure (n : Int)
  | next => exact (Consumes.next token).convert (fun t => Expected.integer.require t t.int?) id

theorem natural_consumes (count : Count) (default : Int) (token : Text) :
    Consumes (List.replicate count.need token) (count.natural default token) := by
  refine (count.value_consumes default token).settle
    (fun n rest => if n < 0 then .error (.negativeCount n) else .ok (n, rest)) fun n => ?_
  by_cases h : n < 0
  · simp only [if_pos h]
    exact .fail [] _
  · simp only [if_neg h]
    exact .pure n

end Count

namespace Command

def need : Command → Nat
  | .write _ | .atomic | .chars | .ignore => 1
  | .decimal _ count | .float count => count.need + 1
  | .newlines count | .column count | .relativeColumn count => count.need
  | .glue _ | .unknown => 0

def counts : Command → List Bool
  | .write _ | .atomic | .chars | .ignore => [false]
  | .decimal _ count | .float count => count.counts ++ [false]
  | .newlines count | .column count | .relativeColumn count => count.counts
  | .glue _ | .unknown => []

theorem length_counts (command : Command) : command.counts.length = command.need := by
  cases command <;> simp [counts, need, Count.counts]

theorem insert_consumes (text : Term → Except Fault Text) (token : Text) :
    Consumes [token] (insert text token) :=
  (Consumes.next token).convert text fun shown => [Operation.chars shown]

theorem insertPlaces_consumes (text : Term → Int → Except Fault Text) (count : Count)
    (token : Text) :
    Consumes (List.replicate (count.need + 1) token) (insertPlaces text count token) := by
  rw [List.replicate_succ']
  exact (count.natural_consumes 0 token).bind fun n => insert_consumes (text · n) token

theorem effect_consumes (command : Command) (token : Text) :
    Consumes (List.replicate command.need token) (command.effect token) := by
  cases command with
  | write quoted => exact insert_consumes _ token
  | atomic => exact insert_consumes _ token
  | chars => exact insert_consumes _ token
  | decimal grouped count =>
      cases grouped with
      | false => exact insertPlaces_consumes _ count token
      | true => exact insertPlaces_consumes _ count token
  | float count =>
      cases count with
      | absent => exact insert_consumes _ token
      | number n => exact insertPlaces_consumes _ (.number n) token
      | next => exact insertPlaces_consumes _ .next token
  | ignore => exact (Consumes.next token).map fun _ => []
  | newlines count => exact (count.natural_consumes 1 token).map fun n => [Operation.newlines n]
  | column count =>
      cases count with
      | absent => exact .pure _
      | number n =>
          exact (Count.value_consumes (.number n) 0 token).map fun n => [Operation.column n]
      | next => exact (Count.value_consumes .next 0 token).map fun n => [Operation.column n]
  | relativeColumn count =>
      exact (count.value_consumes 0 token).map fun n => [Operation.relativeColumn n]
  | glue fill => exact .pure _
  | unknown => exact .fail _ _

end Command

namespace Directive

def takesArgument (d : Directive) : Bool :=
  d.letter.any fun c => c ∈ ['w', 'q', 'a', 's', 'i', 'd', 'D', 'f']

def takesCount (d : Directive) : Bool :=
  d.parameter = .next && d.letter.any fun c => c ∈ ['d', 'D', 'f', 'n', '|', '+']

/-- How many arguments a directive takes, by its letter and whether its count is a star. -/
def need (d : Directive) : Nat := d.takesArgument.toNat + d.takesCount.toNat

/-- For each argument that the directive takes, whether a star takes it for a count. -/
def counts (d : Directive) : List Bool :=
  List.replicate d.takesCount.toNat true ++ List.replicate d.takesArgument.toNat false

theorem counts_eq {d : Directive} (known : d.command ≠ .unknown) : d.counts = d.command.counts := by
  obtain ⟨parameter, letter⟩ := d
  unfold command at known ⊢
  split at known
  case h_13 => exact absurd rfl known
  all_goals
    next h =>
      subst h
      -- a parameter of a kind that the letter does not take leaves no command
      cases parameter <;> first | rfl | exact absurd rfl known

theorem need_eq {d : Directive} (known : d.command ≠ .unknown) : d.need = d.command.need := by
  rw [← d.command.length_counts, ← counts_eq known, counts, List.length_append,
    List.length_replicate, List.length_replicate, need, Nat.add_comm]

end Directive

namespace Piece

/-- For each argument that a piece takes, the token of the piece. -/
def tokens : Piece → List Text
  | .literal _ => []
  | .tilde => []
  | .directive d => List.replicate d.need d.token

theorem effect_consumes (piece : Piece) : Consumes piece.tokens piece.effect := by
  cases piece with
  | literal text => exact .pure _
  | tilde => exact .pure _
  | directive d =>
      by_cases known : d.command = .unknown
      · show Consumes _ (d.command.effect d.token)
        rw [known]
        exact .fail _ _
      · rw [tokens, Directive.need_eq known]
        exact d.command.effect_consumes d.token

theorem effects_consume (pieces : List Piece) :
    Consumes (pieces.flatMap tokens) (effects pieces) := by
  induction pieces with
  | nil => exact .pure _
  | cons piece pieces ih =>
      refine piece.effect_consumes.bind
        (g := fun operations rest => effects pieces rest >>= fun others =>
          .ok (operations ++ others.1, others.2)) ?_
      intro operations
      exact ih.map fun others => operations ++ others

/-- Pieces that come to their end leave unread what is added behind their arguments. -/
theorem effects_append_arguments {pieces : List Piece} {arguments rest : Arguments}
    {operations : List Operation} (h : effects pieces arguments = .ok (operations, rest))
    (more : Arguments) : effects pieces (arguments ++ more) = .ok (operations, rest ++ more) := by
  obtain ⟨taken, rfl, consumed⟩ := effects_consume pieces _ _ _ h
  rw [List.append_assoc, consumed.more]

/-- A directive that the end of the text cuts short is not known. -/
theorem effect_truncated {d : Directive} (truncated : d.Truncated) (arguments : Arguments) :
    (Piece.directive d).effect arguments = .error (.unknownDirective d.token) := by
  cases truncated <;> rfl

theorem not_truncated_of_effects {pieces : List Piece} {arguments rest : Arguments}
    {operations : List Operation} (h : effects pieces arguments = .ok (operations, rest)) :
    ∀ d, .directive d ∈ pieces → ¬ d.Truncated := by
  induction pieces generalizing arguments operations with
  | nil => exact fun _ hd => nomatch hd
  | cons piece pieces ih =>
      obtain ⟨first, one, h⟩ := Outcome.bind_eq_ok.mp h
      obtain ⟨others, two, h⟩ := Outcome.bind_eq_ok.mp h
      cases h
      intro d hd truncated
      cases hd with
      | head =>
          rw [effect_truncated truncated] at one
          exact nomatch one
      | tail _ hd => exact ih two d hd truncated

end Piece

end LogicFormat
