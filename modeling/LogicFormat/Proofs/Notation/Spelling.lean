import LogicFormat.Proofs.Notation.Tree

/-!
# Spellings

The tokens of a tree are read from left to right as operators and operands in turn. An
operator that is its own operand stands alone, so that an operator in front of further tokens
is never an operand, and an operator is kept from a bracket behind it, so that it is never a
functor.
-/

namespace LogicFormat

/-- Whether a tree can begin with the token. -/
def Token.opens : Token → Bool
  | .blank | .parenClose | .bracketClose | .braceClose | .comma | .bar => false
  | _ => true

def Token.closes : Token → Bool
  | .parenClose | .bracketClose | .braceClose => true
  | _ => false

/-- Whether a tree whose operators bind no looser than `bound` ends before the token. -/
def Token.Stops (bound : Int) : Token → Prop
  | .parenClose | .bracketClose | .braceClose => True
  | .comma => bound < 1000
  | _ => False

theorem Token.stops_of_closes {t : Token} (closes : t.closes = true) (bound : Int) :
    t.Stops bound := by
  cases t <;> first | exact trivial | exact nomatch closes

namespace Tree

theorem tokens_opens : (t : Tree) → ∃ first rest, t.tokens = first :: rest ∧ first.opens = true
  | .between op left right => by
      obtain ⟨first, rest, spelled, opens⟩ := tokens_opens left
      refine ⟨first, ?_, ?_, opens⟩
      rotate_left
      · rw [tokens, tokensBetween, spelled, List.cons_append, List.cons_append]
  | .var _ | .int _ | .atom _ | .chars _ | .list _ _ | .braced _ | .applied _ _ _
  | .bracketed _ | .before _ _ => ⟨_, _, by rw [tokens], rfl⟩

/-- What a tree that is no operation can be, by its first token. -/
def Headed : Token → Tree → Prop
  | .var n, t => t = .var n
  | .int n, t => t = .int n
  | .atom name, t => t = .atom name ∨ ∃ first others, t = .applied name first others
  | .chars text, t => t = .chars text
  | .bracketOpen, t => ∃ first others, t = .list first others
  | .braceOpen, t => ∃ inside, t = .braced inside
  | .parenOpen, t => ∃ inside, t = .bracketed inside
  | _, _ => False

theorem headed {t : Tree} {first : Token} {more rest : List Token} (simple : t.simple = true)
    (same : first :: more = t.tokens ++ rest) : Headed first t := by
  cases t with
  | before op operand => exact nomatch simple
  | between op left right => exact nomatch simple
  | _ =>
      have head := List.head_eq_of_cons_eq same
      rw [head]
      simp [Headed]

/-- An operand that begins with an atom apart from any bracket is that atom. -/
theorem eq_atom {t : Tree} {name : Text} {more rest : List Token} (simple : t.simple = true)
    (apart : more.head? ≠ some .parenOpen) (same : .atom name :: more = t.tokens ++ rest) :
    t = .atom name ∧ more = rest := by
  rcases headed simple same with rfl | ⟨first, others, rfl⟩
  · exact ⟨rfl, List.tail_eq_of_cons_eq same⟩
  · have behind := List.tail_eq_of_cons_eq same
    exact absurd (by rw [behind]; rfl) apart

/-! ## Blanks and signs -/

def blanks (n : Nat) : List Token := List.replicate n .blank

theorem gap_eq_blanks (needed : Bool) : gap needed = blanks needed.toNat := by
  cases needed <;> rfl

theorem head_blanks {n : Nat} {first t : Token} {rest : List Token}
    (h : t ∈ (blanks n ++ first :: rest).head?) : t = .blank ∨ t = first := by
  cases n with
  | zero =>
      cases h
      exact .inr rfl
  | succ n =>
      cases h
      exact .inl rfl

theorem head?_blanks_append {n : Nat} {first : Token} {rest more : List Token} :
    (blanks n ++ (first :: rest ++ more)).head? = (blanks n ++ first :: rest).head? := by
  cases n <;> rfl

theorem blanks_injective {m n : Nat} {first first' : Token} {rest rest' : List Token}
    (h : first ≠ .blank) (h' : first' ≠ .blank)
    (same : blanks m ++ first :: rest = blanks n ++ first' :: rest') :
    m = n ∧ first = first' ∧ rest = rest' := by
  induction m generalizing n with
  | zero =>
      cases n with
      | zero =>
          cases same
          exact ⟨rfl, rfl, rfl⟩
      | succ n => exact absurd (List.head_eq_of_cons_eq same) h
  | succ m ih =>
      cases n with
      | zero => exact absurd (List.head_eq_of_cons_eq same).symm h'
      | succ n =>
          obtain ⟨rfl, behind⟩ := ih (List.tail_eq_of_cons_eq same)
          exact ⟨rfl, behind⟩

theorem ne_blank_of_opens {first : Token} (opens : first.opens = true) : first ≠ .blank := by
  rintro rfl
  exact nomatch opens

theorem sign_cases (op : BinaryOperator) :
    (sign op = .comma ∨ sign op = .bar) ∨ sign op = .atom op.name := by
  unfold sign
  split
  · exact .inl (.inl rfl)
  split
  · exact .inl (.inr rfl)
  · exact .inr rfl

theorem textIn_sign (op : BinaryOperator) (names : Nat → Text) :
    (sign op).textIn names = (sign op).text := by
  rcases sign_cases op with (sign | sign) | sign <;> rw [sign] <;> rfl

theorem sign_ne_blank (op : BinaryOperator) : sign op ≠ .blank := by
  rcases sign_cases op with (sign | sign) | sign <;> rw [sign] <;> exact nofun

theorem sign_ne_parenOpen (op : BinaryOperator) : sign op ≠ .parenOpen := by
  rcases sign_cases op with (sign | sign) | sign <;> rw [sign] <;> exact nofun

theorem name_of_sign {op : BinaryOperator} {name : Text} (h : sign op = .atom name) :
    op.name = name := by
  rcases sign_cases op with (sign | sign) | sign <;> rw [sign] at h <;> cases h
  rfl

theorem sign_injective {op op' : BinaryOperator} (known : op ∈ Operator.binaryOperators)
    (known' : op' ∈ Operator.binaryOperators) (same : sign op = sign op') : op = op' := by
  have names : op.name = op'.name := by
    unfold sign at same
    split at same <;> split at same <;> (try split at same) <;> (try split at same) <;> simp_all
  exact Operator.binary_injective known known' names

/-- No operator between operands stands where a tree ends, unless it binds too loosely. -/
theorem not_stops_sign {op : BinaryOperator} {bound : Int}
    (known : op ∈ Operator.binaryOperators) (tight : op.level ≤ bound) :
    ¬ (sign op).Stops bound := by
  unfold sign
  split
  · next comma =>
      have := Operator.comma_level op known comma
      simp only [Token.Stops]
      omega
  split <;> exact id

def Stopped (bound : Int) (rest : List Token) : Prop := ∀ t ∈ rest.head?, t.Stops bound

theorem stopped_cons {bound : Int} {t : Token} {rest : List Token} (h : t.Stops bound) :
    Stopped bound (t :: rest) := by
  intro u hu
  cases hu
  exact h

/-! ## Operators on their operands -/

/-- The tokens of an operator and of all that stands behind it: blanks may set it off, and an
operator that can end a line may be read as one token with the atom that begins the next line. -/
inductive Joined (op : BinaryOperator) (tokens : List Token) : List Token → Prop where
  | spaced (m n : Nat) : Joined op tokens (blanks m ++ sign op :: (blanks n ++ tokens))
  | fused {name : Text} {rest : List Token} (breaks : op.name ∈ Operator.lineBreaking)
      (symbol : Atom.isSymbol name = true) (begins : tokens = .atom name :: rest) :
      Joined op tokens (.blank :: .atom (op.name ++ name) :: rest)

namespace Joined

variable {op op' : BinaryOperator} {bound : Int} {tokens tokens' joint more : List Token}

theorem append (h : Joined op tokens joint) (more : List Token) :
    Joined op (tokens ++ more) (joint ++ more) := by
  cases h with
  | spaced m n =>
      rw [List.append_assoc, List.cons_append, List.append_assoc]
      exact .spaced m n
  | fused breaks symbol begins =>
      subst begins
      exact .fused breaks symbol rfl

theorem head (h : Joined op tokens joint) :
    ∀ t ∈ joint.head?, t = .blank ∨ t = sign op := by
  cases h with
  | spaced m n => exact fun t ht => head_blanks ht
  | fused _ _ _ =>
      intro t ht
      cases ht
      exact .inl rfl

theorem ne_nil (h : Joined op tokens joint) : joint ≠ [] := by
  cases h with
  | spaced m n => exact List.append_ne_nil_of_right_ne_nil _ (List.cons_ne_nil _ _)
  | fused _ _ _ => exact List.cons_ne_nil _ _

theorem apart (h : Joined op tokens joint) : (joint ++ more).head? ≠ some .parenOpen := by
  intro found
  rw [List.head?_append_of_ne_nil joint h.ne_nil] at found
  rcases h.head _ found with same | same
  · cases same
  · exact sign_ne_parenOpen op same.symm

theorem not_stopped (h : Joined op tokens joint) (known : op ∈ Operator.binaryOperators)
    (tight : op.level ≤ bound) : ¬ Stopped bound (joint ++ more) := by
  intro stopped
  rw [Stopped, List.head?_append_of_ne_nil joint h.ne_nil] at stopped
  obtain ⟨first, rest, rfl⟩ := List.exists_cons_of_ne_nil h.ne_nil
  have stops := stopped first rfl
  rcases h.head first rfl with rfl | rfl
  · exact stops
  · exact not_stops_sign known tight stops

theorem ne_fused {name : Text} {rest : List Token} {m n : Nat}
    (known : op ∈ Operator.binaryOperators) (breaks : op'.name ∈ Operator.lineBreaking)
    (symbol : Atom.isSymbol name = true) :
    blanks m ++ sign op :: (blanks n ++ tokens) ≠ .blank :: .atom (op'.name ++ name) :: rest := by
  intro same
  have atom : Token.atom (op'.name ++ name) ≠ .blank := nofun
  obtain ⟨-, signs, -⟩ := blanks_injective (n := 1) (sign_ne_blank op) atom same
  have longer := Operator.not_longer known breaks (name_of_sign signs)
  rw [longer] at symbol
  cases symbol

theorem unique {joint' : List Token} (h : Joined op tokens joint) (h' : Joined op' tokens' joint')
    (known : op ∈ Operator.binaryOperators) (known' : op' ∈ Operator.binaryOperators)
    (opens : ∃ first rest, tokens = first :: rest ∧ first.opens = true)
    (opens' : ∃ first rest, tokens' = first :: rest ∧ first.opens = true)
    (same : joint = joint') : op = op' ∧ tokens = tokens' := by
  cases h with
  | spaced m n =>
      cases h' with
      | spaced m' n' =>
          obtain ⟨first, rest, rfl, opens⟩ := opens
          obtain ⟨first', rest', rfl, opens'⟩ := opens'
          obtain ⟨-, signs, behind⟩ := blanks_injective (sign_ne_blank op) (sign_ne_blank op') same
          obtain ⟨-, rfl, rfl⟩ :=
            blanks_injective (ne_blank_of_opens opens) (ne_blank_of_opens opens') behind
          exact ⟨sign_injective known known' signs, rfl⟩
      | fused breaks symbol _ => exact absurd same (ne_fused known breaks symbol)
  | @fused name rest breaks symbol begins =>
      cases h' with
      | spaced m n => exact absurd same.symm (ne_fused known' breaks symbol)
      | @fused name' rest' breaks' symbol' begins' =>
          simp only [List.cons.injEq, Token.atom.injEq, true_and] at same
          obtain ⟨spelled, rfl⟩ := same
          obtain ⟨names, rfl⟩ := Operator.lineBreaking_apart breaks breaks' spelled
          exact ⟨Operator.binary_injective known known' names, begins.trans begins'.symm⟩

end Joined

/-! ## Spellings -/

/-- What the tokens of operands have in common: the first of them begins a tree, and an atom that
is not the name of a functor is an operand of its own. -/
structure Operands (P : Tree → List Token → Prop) : Prop where
  opens : ∀ {t tokens}, P t tokens → ∃ first rest, tokens = first :: rest ∧ first.opens = true
  atoms : ∀ {t tokens name more rest}, P t tokens → more.head? ≠ some .parenOpen →
    .atom name :: more = tokens ++ rest → t = .atom name ∧ more = rest

/-- The tokens of operators and operands in a row, an operand `t` being written as tokens that `P`
holds of. -/
inductive Spelled (P : Tree → List Token → Prop) (bound : Int) :
    List Symbol → List Token → Prop where
  | operand {t : Tree} {tokens : List Token} (held : P t tokens) :
      Spelled P bound [.operand t] tokens
  | before {op : UnaryOperator} {symbols : List Symbol} {tokens : List Token} (n : Nat)
      (known : op ∈ Operator.unaryOperators)
      (apart : (blanks n ++ tokens).head? ≠ some .parenOpen)
      (spelled : Spelled P bound symbols tokens) :
      Spelled P bound (.before op :: symbols) (.atom op.name :: (blanks n ++ tokens))
  | between {t : Tree} {op : BinaryOperator} {symbols : List Symbol}
      {own tokens joint : List Token} (held : P t own) (plain : t.isOperator = false)
      (known : op ∈ Operator.binaryOperators) (tight : op.level ≤ bound)
      (joined : Joined op tokens joint) (spelled : Spelled P bound symbols tokens) :
      Spelled P bound (.operand t :: .between op :: symbols) (own ++ joint)

namespace Spelled

variable {P : Tree → List Token → Prop} {bound : Int} {symbols symbols' : List Symbol}
  {tokens tokens' joint : List Token}

theorem opens (operands : Operands P) (h : Spelled P bound symbols tokens) :
    ∃ first rest, tokens = first :: rest ∧ first.opens = true := by
  cases h with
  | operand held => exact operands.opens held
  | before _ _ _ _ => exact ⟨_, _, rfl, rfl⟩
  | between held _ _ _ _ _ =>
      obtain ⟨first, rest, rfl, opens⟩ := operands.opens held
      exact ⟨first, _, List.cons_append, opens⟩

theorem opens_append (operands : Operands P) (h : Spelled P bound symbols tokens)
    {more : List Token} :
    ∃ first rest, tokens ++ more = first :: rest ∧ first.opens = true := by
  obtain ⟨first, rest, rfl, opens⟩ := h.opens operands
  exact ⟨first, rest ++ more, rfl, opens⟩

theorem append {op : BinaryOperator} (operands : Operands P) (h : Spelled P bound symbols tokens)
    (plain : ∀ t, .operand t ∈ symbols → t.isOperator = false)
    (known : op ∈ Operator.binaryOperators) (tight : op.level ≤ bound)
    (joined : Joined op tokens' joint) (h' : Spelled P bound symbols' tokens') :
    Spelled P bound (symbols ++ .between op :: symbols') (tokens ++ joint) := by
  induction h with
  | @operand t tokens held => exact .between held (plain t (by simp)) known tight joined h'
  | @before op' symbols tokens n known' apart spelled ih =>
      have longer := ih fun t ht => plain t (List.mem_cons_of_mem _ ht)
      obtain ⟨first, rest, rfl, -⟩ := spelled.opens operands
      rw [List.cons_append, List.cons_append, List.append_assoc]
      exact .before n known' (head?_blanks_append.trans_ne apart) longer
  | @between t op' symbols own tokens joint' held plain' known' tight' joined' _ ih =>
      have longer := ih fun t ht => plain t (by simp [ht])
      rw [List.append_assoc]
      exact .between held plain' known' tight' (joined'.append joint) longer

theorem imp {Q : Tree → List Token → Prop} (h : Spelled P bound symbols tokens)
    (weaken : ∀ t tokens, P t tokens → Q t tokens) : Spelled Q bound symbols tokens := by
  induction h with
  | operand held => exact .operand (weaken _ _ held)
  | before n known apart _ ih => exact .before n known apart ih
  | between held plain known tight joined _ ih =>
      exact .between (weaken _ _ held) plain known tight joined ih

end Spelled

theorem operands_plain {t : Tree} (formed : t.WellFormed) (plain : t.isOperator = false) :
    ∀ s, .operand s ∈ t.symbols → s.isOperator = false := by
  induction formed with
  | before known _ suits ih =>
      intro s h
      rcases List.mem_cons.mp h with h | h
      · exact nomatch h
      · exact ih suits.2 s h
  | between known _ _ leftSuits rightSuits ihLeft ihRight =>
      intro s h
      rcases List.mem_append.mp h with h | h
      · exact ihLeft leftSuits.2 s h
      rcases List.mem_cons.mp h with h | h
      · exact nomatch h
      · exact ihRight rightSuits.2 s h
  | _ =>
      intro s h
      cases List.mem_singleton.mp h
      exact plain

/-! ## The tokens of a tree -/

structure Solid (t : Tree) (tokens : List Token) : Prop where
  simple : t.simple = true
  formed : t.WellFormed
  own : tokens = t.tokens

theorem solid_operands : Operands Solid where
  opens := by
    rintro t _ ⟨_, _, rfl⟩
    exact t.tokens_opens
  atoms := by
    rintro t _ name more rest ⟨simple, _, rfl⟩ apart same
    exact eq_atom simple apart same

theorem spacedBefore_apart {op : UnaryOperator} {numeral : Bool} {tokens : List Token}
    {first : Token} {rest : List Token} (spelled : tokens = first :: rest) :
    (gap (spacedBefore op numeral (Token.render tokens)) ++ tokens).head? ≠ some .parenOpen := by
  subst spelled
  rcases spaced : spacedBefore op numeral (Token.render (first :: rest)) with _ | _
  · intro h
    cases h
    simp [spacedBefore, Token.text] at spaced
  · intro h
    cases h

theorem joined_between (op : BinaryOperator) (left right : List Token) :
    ∃ joint, tokensBetween op left right = left ++ joint ∧ Joined op right joint := by
  refine ⟨_, List.append_assoc .., ?_⟩
  rw [gap_eq_blanks, gap_eq_blanks]
  exact .spaced _ _

/-- The tokens of a well-formed tree spell its operators and operands. -/
theorem tokens_spelled {t : Tree} (formed : t.WellFormed) :
    ∀ bound : Int, t.level ≤ bound → Spelled Solid bound t.symbols t.tokens := by
  induction formed with
  | @before op operand known formed suits ih =>
      intro bound tight
      have within := Int.le_trans suits.1 (op.operand.bound_le op.level)
      obtain ⟨first, rest, spelled, _⟩ := operand.tokens_opens
      have apart : (gap (spacedBefore op operand.isNumeral (Token.render operand.tokens)) ++
          operand.tokens).head? ≠ some .parenOpen := spacedBefore_apart spelled
      rw [symbols, tokens]
      rw [gap_eq_blanks] at apart ⊢
      exact .before _ known apart (ih bound (Int.le_trans within tight))
  | @between op left right known leftFormed _ leftSuits rightSuits ihLeft ihRight =>
      intro bound tight
      have leftWithin := Int.le_trans leftSuits.1 (op.left.bound_le op.level)
      have rightWithin := Int.le_trans rightSuits.1 (op.right.bound_le op.level)
      obtain ⟨joint, spelled, joined⟩ := joined_between op left.tokens right.tokens
      rw [symbols, tokens, spelled]
      exact .append solid_operands (ihLeft bound (Int.le_trans leftWithin tight))
        (operands_plain leftFormed leftSuits.2) known tight joined
        (ihRight bound (Int.le_trans rightWithin tight))
  | var n => exact fun _ _ => .operand ⟨rfl, .var n, rfl⟩
  | int n => exact fun _ _ => .operand ⟨rfl, .int n, rfl⟩
  | atom name => exact fun _ _ => .operand ⟨rfl, .atom name, rfl⟩
  | chars text => exact fun _ _ => .operand ⟨rfl, .chars text, rfl⟩
  | list formed tight _ => exact fun _ _ => .operand ⟨rfl, .list formed tight, rfl⟩
  | braced formed _ => exact fun _ _ => .operand ⟨rfl, .braced formed, rfl⟩
  | applied formed tight _ => exact fun _ _ => .operand ⟨rfl, .applied formed tight, rfl⟩
  | bracketed formed _ => exact fun _ _ => .operand ⟨rfl, .bracketed formed, rfl⟩

end Tree

end LogicFormat
