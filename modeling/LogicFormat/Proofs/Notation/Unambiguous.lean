import LogicFormat.Proofs.Notation.Spelling

/-!
# Trees are told apart by their tokens

Two well-formed trees with the same tokens are the same tree. The operators and operands of
both are compared from left to right: the first token of each tells whether it is an operator
or an operand, and operands are compared by what they enclose.
-/

namespace LogicFormat.Tree

/-- Whether no other operand is written as this one, whatever stands behind them. -/
def Told (P : Tree → List Token → Prop) (t : Tree) : Prop :=
  ∀ {t' : Tree} {own own' rest rest' : List Token}, P t own → P t' own' →
    rest.head? ≠ some .parenOpen → rest'.head? ≠ some .parenOpen →
    own ++ rest = own' ++ rest' → t = t' ∧ rest = rest'

/-- Whether no other operand has the tokens of this one, whatever stands behind them. -/
def Exact (t : Tree) : Prop :=
  ∀ {t' : Tree} {rest rest' : List Token}, t'.simple = true → t'.WellFormed →
    rest.head? ≠ some .parenOpen → rest'.head? ≠ some .parenOpen →
    t.tokens ++ rest = t'.tokens ++ rest' → t = t' ∧ rest = rest'

/-- Whether no other tree has the tokens of this one, wherever both can end. -/
def Settled (t : Tree) : Prop :=
  ∀ {bound : Int} {t' : Tree} {rest rest' : List Token}, t'.WellFormed →
    t.level ≤ bound → t'.level ≤ bound → Stopped bound rest → Stopped bound rest' →
    t.tokens ++ rest = t'.tokens ++ rest' → t = t' ∧ rest = rest'

variable {P : Tree → List Token → Prop} {bound : Int} {rest rest' : List Token}

theorem Exact.told {t : Tree} (exact : t.Exact) : Told Solid t := by
  rintro t' _ _ rest rest' ⟨_, _, rfl⟩ ⟨simple, formed, rfl⟩
  exact exact simple formed

theorem ne_parenOpen_of_stopped (h : Stopped bound rest) : rest.head? ≠ some .parenOpen :=
  fun found => h _ found

theorem not_stopped_opens {n : Nat} {first : Token} (opens : first.opens = true) :
    ¬ Stopped bound (blanks n ++ first :: rest) := by
  intro stopped
  cases n with
  | zero =>
      have stops := stopped first rfl
      cases first <;> first | exact stops | exact nomatch opens
  | succ n => exact stopped .blank rfl

/-- Where one spelling begins with an operator before its operand, another cannot begin with
an operand. -/
theorem not_operand_first (operands : Operands P) {op : UnaryOperator} {n : Nat}
    {symbols : List Symbol} {tokens own : List Token} {t : Tree}
    (known : op ∈ Operator.unaryOperators)
    (apart : (blanks n ++ tokens).head? ≠ some .parenOpen)
    (spelled : Spelled P bound symbols tokens) (held : P t own)
    (ends : Stopped bound rest ∨ t.isOperator = false) :
    own ++ rest ≠ .atom op.name :: (blanks n ++ tokens) ++ rest' := by
  intro same
  obtain ⟨first, more, rfl, opens⟩ := spelled.opens operands
  rw [List.cons_append, List.append_assoc] at same
  obtain ⟨rfl, behind⟩ := operands.atoms held (head?_blanks_append.trans_ne apart) same.symm
  rcases ends with stopped | plain
  · rw [← behind] at stopped
    exact not_stopped_opens opens stopped
  · exact nomatch (Operator.isOperator_unary known).symm.trans plain

theorem Spelled.eq_of_blanks (operands : Operands P) {symbols symbols' : List Symbol}
    {tokens tokens' : List Token} {m n : Nat} (h : Spelled P bound symbols tokens)
    (h' : Spelled P bound symbols' tokens')
    (same : blanks m ++ (tokens ++ rest) = blanks n ++ (tokens' ++ rest')) :
    tokens ++ rest = tokens' ++ rest' := by
  obtain ⟨first, more, rfl, opens⟩ := h.opens operands
  obtain ⟨first', more', rfl, opens'⟩ := h'.opens operands
  obtain ⟨-, rfl, behind⟩ :=
    blanks_injective (ne_blank_of_opens opens) (ne_blank_of_opens opens') same
  exact congrArg (first :: ·) behind

/-- A spelling is settled by its tokens, if its operands are. -/
theorem Spelled.unique (operands : Operands P) {symbols symbols' : List Symbol}
    {tokens tokens' : List Token} (h : Spelled P bound symbols tokens)
    (told : ∀ t, .operand t ∈ symbols → Told P t) (h' : Spelled P bound symbols' tokens')
    (stopped : Stopped bound rest) (stopped' : Stopped bound rest')
    (same : tokens ++ rest = tokens' ++ rest') : symbols = symbols' ∧ rest = rest' := by
  -- along the first spelling; the second can only begin in the same way
  induction h generalizing symbols' tokens' with
  | @operand t own held =>
      cases h' with
      | operand held' =>
          obtain ⟨rfl, behind⟩ := told t (by simp) held held'
            (ne_parenOpen_of_stopped stopped) (ne_parenOpen_of_stopped stopped') same
          exact ⟨rfl, behind⟩
      | before n known apart spelled =>
          exact absurd same (not_operand_first operands known apart spelled held (.inl stopped))
      | between held' plain known tight joined spelled =>
          rw [List.append_assoc] at same
          obtain ⟨_, behind⟩ := told t (by simp) held held'
            (ne_parenOpen_of_stopped stopped) joined.apart same
          rw [behind] at stopped
          exact absurd stopped (joined.not_stopped known tight)
  | @before op symbols tokens n known apart spelled ih =>
      cases h' with
      | operand held =>
          exact absurd same.symm
            (not_operand_first operands known apart spelled held (.inl stopped'))
      | @before op' symbols' tokens' n' known' apart' spelled' =>
          simp only [List.cons_append, List.append_assoc, List.cons.injEq,
            Token.atom.injEq] at same
          obtain ⟨names, behind⟩ := same
          obtain ⟨rfl, ends⟩ := ih (fun t ht => told t (List.mem_cons_of_mem _ ht)) spelled'
            (spelled.eq_of_blanks operands spelled' behind)
          rw [Operator.unary_injective known known' names]
          exact ⟨rfl, ends⟩
      | between held plain _ _ _ _ =>
          rw [List.append_assoc] at same
          exact absurd same.symm
            (not_operand_first operands known apart spelled held (.inr plain))
  | @between t op symbols own tokens joint held plain known tight joined spelled ih =>
      cases h' with
      | operand held' =>
          rw [List.append_assoc] at same
          obtain ⟨_, behind⟩ := told t (by simp) held held' joined.apart
            (ne_parenOpen_of_stopped stopped') same
          rw [← behind] at stopped'
          exact absurd stopped' (joined.not_stopped known tight)
      | before n known' apart' spelled' =>
          rw [List.append_assoc] at same
          exact absurd same
            (not_operand_first operands known' apart' spelled' held (.inr plain))
      | between held' _ known' _ joined' spelled' =>
          rw [List.append_assoc, List.append_assoc] at same
          obtain ⟨rfl, behind⟩ := told t (by simp) held held' joined.apart joined'.apart same
          obtain ⟨rfl, further⟩ := (joined.append rest).unique (joined'.append rest') known known'
            (spelled.opens_append operands) (spelled'.opens_append operands) behind
          obtain ⟨rfl, ends⟩ := ih (fun t ht => told t (by simp [ht])) spelled' further
          exact ⟨rfl, ends⟩

theorem settled_of_exact {t : Tree} (formed : t.WellFormed)
    (exact : ∀ s, .operand s ∈ t.symbols → s.Exact) : t.Settled := by
  intro bound t' rest rest' formed' tight tight' stopped stopped' same
  obtain ⟨symbols, behind⟩ := (tokens_spelled formed bound tight).unique solid_operands
    (fun s hs => Exact.told (exact s hs)) (tokens_spelled formed' bound tight') stopped stopped'
    same
  exact ⟨symbols_injective formed formed' symbols, behind⟩

/-! ## What operands enclose -/

theorem stopped_behind {close : Token} (closes : close.closes = true) (ts : List Tree) :
    Stopped argumentLevel (tokensBehind ts ++ close :: rest) := by
  cases ts with
  | nil => exact stopped_cons (close.stops_of_closes closes argumentLevel)
  | cons t ts =>
      have comma : Token.comma.Stops argumentLevel := by
        show argumentLevel < 1000
        decide
      exact stopped_cons comma

theorem behind_unique {close : Token} (closes : close.closes = true) {ts ts' : List Tree}
    (settled : ∀ t ∈ ts, t.Settled) (tight : ∀ t ∈ ts, (t.level : Int) ≤ argumentLevel)
    (formed' : ∀ t ∈ ts', t.WellFormed)
    (tight' : ∀ t ∈ ts', (t.level : Int) ≤ argumentLevel)
    (same : tokensBehind ts ++ close :: rest = tokensBehind ts' ++ close :: rest') :
    ts = ts' ∧ rest = rest' := by
  have notComma : close ≠ .comma := by
    rintro rfl
    exact nomatch closes
  induction ts generalizing ts' with
  | nil =>
      cases ts' with
      | nil => exact ⟨rfl, List.tail_eq_of_cons_eq same⟩
      | cons t' ts' => exact absurd (List.head_eq_of_cons_eq same) notComma
  | cons t ts ih =>
      cases ts' with
      | nil => exact absurd (List.head_eq_of_cons_eq same).symm notComma
      | cons t' ts' =>
          rw [List.forall_mem_cons] at settled tight formed' tight'
          simp only [tokensBehind, List.cons_append, List.append_assoc, List.cons.injEq,
            true_and] at same
          obtain ⟨rfl, behind⟩ := settled.1 formed'.1 tight.1 tight'.1 (stopped_behind closes ts)
            (stopped_behind closes ts') same
          obtain ⟨rfl, ends⟩ := ih settled.2 tight.2 formed'.2 tight'.2 behind
          exact ⟨rfl, ends⟩

theorem arguments_unique {close : Token} (closes : close.closes = true) {first first' : Tree}
    {others others' : List Tree} (settled : ∀ t ∈ first :: others, t.Settled)
    (tight : ∀ t ∈ first :: others, (t.level : Int) ≤ argumentLevel)
    (formed' : ∀ t ∈ first' :: others', t.WellFormed)
    (tight' : ∀ t ∈ first' :: others', (t.level : Int) ≤ argumentLevel)
    (same : first.tokens ++ tokensBehind others ++ [close] ++ rest =
      first'.tokens ++ tokensBehind others' ++ [close] ++ rest') :
    first = first' ∧ others = others' ∧ rest = rest' := by
  have listed : tokensBehind (first :: others) ++ close :: rest =
      tokensBehind (first' :: others') ++ close :: rest' := by
    simpa [tokensBehind] using same
  obtain ⟨trees, ends⟩ := behind_unique closes settled tight formed' tight' listed
  cases trees
  exact ⟨rfl, rfl, ends⟩

theorem inside_unique {close : Token} (closes : close.closes = true) {inside inside' : Tree}
    (formed : inside.WellFormed) (settled : inside.Settled) (formed' : inside'.WellFormed)
    (same : inside.tokens ++ [close] ++ rest = inside'.tokens ++ [close] ++ rest') :
    inside = inside' ∧ rest = rest' := by
  simp only [List.append_assoc, List.cons_append, List.nil_append] at same
  have stops := close.stops_of_closes closes termLevel
  obtain ⟨rfl, behind⟩ := settled formed' (level_le_termLevel formed) (level_le_termLevel formed')
    (stopped_cons stops) (stopped_cons stops) same
  exact ⟨rfl, List.tail_eq_of_cons_eq behind⟩

theorem exact_var (n : Nat) : (Tree.var n).Exact := by
  intro t' rest rest' simple _ _ _ same
  obtain rfl : t' = .var n := headed simple same
  exact ⟨rfl, List.tail_eq_of_cons_eq same⟩

theorem exact_int (n : Nat) : (Tree.int n).Exact := by
  intro t' rest rest' simple _ _ _ same
  obtain rfl : t' = .int n := headed simple same
  exact ⟨rfl, List.tail_eq_of_cons_eq same⟩

theorem exact_chars (text : Text) : (Tree.chars text).Exact := by
  intro t' rest rest' simple _ _ _ same
  obtain rfl : t' = .chars text := headed simple same
  exact ⟨rfl, List.tail_eq_of_cons_eq same⟩

theorem exact_atom (name : Text) : (Tree.atom name).Exact := by
  intro t' rest rest' simple _ apart _ same
  obtain ⟨rfl, behind⟩ := eq_atom simple apart same
  exact ⟨rfl, behind⟩

theorem exact_list {first : Tree} {others : List Tree}
    (settled : ∀ t ∈ first :: others, t.Settled)
    (tight : ∀ t ∈ first :: others, (t.level : Int) ≤ argumentLevel) :
    (Tree.list first others).Exact := by
  intro t' rest rest' simple formed' _ _ same
  obtain ⟨first', others', rfl⟩ := headed simple same
  cases formed' with
  | list formed' tight' =>
      have behind := List.tail_eq_of_cons_eq same
      obtain ⟨rfl, rfl, ends⟩ :=
        arguments_unique (by rfl) settled tight formed' tight' behind
      exact ⟨rfl, ends⟩

theorem exact_applied {name : Text} {first : Tree} {others : List Tree}
    (settled : ∀ t ∈ first :: others, t.Settled)
    (tight : ∀ t ∈ first :: others, (t.level : Int) ≤ argumentLevel) :
    (Tree.applied name first others).Exact := by
  intro t' rest rest' simple formed' _ apart' same
  rcases headed simple same with rfl | ⟨first', others', rfl⟩
  · obtain ⟨same, _⟩ := eq_atom (t := .applied name first others) rfl apart' same.symm
    exact nomatch same
  cases formed' with
  | applied formed' tight' =>
      have behind := List.tail_eq_of_cons_eq (List.tail_eq_of_cons_eq same)
      obtain ⟨rfl, rfl, ends⟩ :=
        arguments_unique (by rfl) settled tight formed' tight' behind
      exact ⟨rfl, ends⟩

theorem exact_braced {inside : Tree} (formed : inside.WellFormed) (settled : inside.Settled) :
    (Tree.braced inside).Exact := by
  intro t' rest rest' simple formed' _ _ same
  obtain ⟨inside', rfl⟩ := headed simple same
  cases formed' with
  | braced formed' =>
      have behind := List.tail_eq_of_cons_eq same
      obtain ⟨rfl, ends⟩ := inside_unique (by rfl) formed settled formed' behind
      exact ⟨rfl, ends⟩

theorem exact_bracketed {inside : Tree} (formed : inside.WellFormed)
    (settled : inside.Settled) : (Tree.bracketed inside).Exact := by
  intro t' rest rest' simple formed' _ _ same
  obtain ⟨inside', rfl⟩ := headed simple same
  cases formed' with
  | bracketed formed' =>
      have behind := List.tail_eq_of_cons_eq same
      obtain ⟨rfl, ends⟩ := inside_unique (by rfl) formed settled formed' behind
      exact ⟨rfl, ends⟩

theorem operands_of_simple {t : Tree} (simple : t.simple = true) (exact : t.Exact) :
    ∀ s, .operand s ∈ t.symbols → s.Exact := by
  intro s h
  rw [symbols_of_simple simple] at h
  cases List.mem_singleton.mp h
  exact exact

/-- Every operand of a well-formed tree is exact, by induction on what operands enclose. -/
theorem operands_exact {t : Tree} (formed : t.WellFormed) :
    ∀ s, .operand s ∈ t.symbols → s.Exact := by
  induction formed with
  | var n => exact operands_of_simple rfl (exact_var n)
  | int n => exact operands_of_simple rfl (exact_int n)
  | atom name => exact operands_of_simple rfl (exact_atom name)
  | chars text => exact operands_of_simple rfl (exact_chars text)
  | @list first others formed tight ih =>
      have settled : ∀ t ∈ first :: others, t.Settled :=
        fun t ht => settled_of_exact (formed t ht) (ih t ht)
      exact operands_of_simple rfl (exact_list settled tight)
  | braced formed ih =>
      exact operands_of_simple rfl (exact_braced formed (settled_of_exact formed ih))
  | @applied name first others formed tight ih =>
      have settled : ∀ t ∈ first :: others, t.Settled :=
        fun t ht => settled_of_exact (formed t ht) (ih t ht)
      exact operands_of_simple rfl (exact_applied settled tight)
  | bracketed formed ih =>
      exact operands_of_simple rfl (exact_bracketed formed (settled_of_exact formed ih))
  | before _ _ _ ih =>
      intro s h
      rcases List.mem_cons.mp h with h | h
      · exact nomatch h
      · exact ih s h
  | between _ _ _ _ _ ihLeft ihRight =>
      intro s h
      rcases List.mem_append.mp h with h | h
      · exact ihLeft s h
      rcases List.mem_cons.mp h with h | h
      · exact nomatch h
      · exact ihRight s h

/-- The tokens of a well-formed tree settle the tree. -/
theorem tokens_injective {s t : Tree} (hs : s.WellFormed) (ht : t.WellFormed)
    (same : s.tokens = t.tokens) : s = t := by
  have settled : s.Settled := settled_of_exact hs (operands_exact hs)
  have stopped : Stopped termLevel [] := nofun
  exact (settled ht (level_le_termLevel hs) (level_le_termLevel ht) stopped stopped
    (by rw [same])).1

end LogicFormat.Tree
