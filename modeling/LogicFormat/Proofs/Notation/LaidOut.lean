import LogicFormat.Proofs.Notation.Unambiguous

/-!
# Brackets that are laid out

A bracket whose inside is laid out has two blanks behind it, and inside it operators may stand apart
from their operands, or be read as one token with them. Trees are told apart all the same.
-/

namespace LogicFormat.Tree

/-- The tokens of an operand in which brackets are laid out, at most `depth` within one another. -/
def Laid : Nat → Tree → List Token → Prop
  | 0, t, tokens => Solid t tokens
  | depth + 1, t, tokens =>
      Solid t tokens ∨ ∃ inside row, t = .bracketed inside ∧ inside.WellFormed ∧
        Spelled (Laid depth) termLevel inside.symbols row ∧
        tokens = .parenOpen :: .blank :: .blank :: (row ++ [.parenClose])

/-- A row of operators and operands with brackets that may be laid out. -/
def LaidOut (bound : Int) (symbols : List Symbol) (tokens : List Token) : Prop :=
  ∃ depth, Spelled (Laid depth) bound symbols tokens

theorem laid_operands (depth : Nat) : Operands (Laid depth) := by
  cases depth with
  | zero => exact solid_operands
  | succ depth =>
      constructor
      · rintro t tokens (solid | ⟨inside, row, -, -, -, rfl⟩)
        · exact solid_operands.opens solid
        · exact ⟨_, _, rfl, rfl⟩
      · rintro t tokens name more rest (solid | ⟨inside, row, -, -, -, rfl⟩) apart same
        · exact solid_operands.atoms solid apart same
        · exact nomatch List.head_eq_of_cons_eq same

theorem Laid.succ {depth : Nat} {t : Tree} {tokens : List Token} (h : Laid depth t tokens) :
    Laid (depth + 1) t tokens := by
  induction depth generalizing t tokens with
  | zero => exact .inl h
  | succ depth ih =>
      rcases h with solid | ⟨inside, row, same, formed, spelled, own⟩
      · exact .inl solid
      · exact .inr ⟨inside, row, same, formed, spelled.imp fun _ _ held => ih held, own⟩

theorem Laid.mono {depth deeper : Nat} (h : depth ≤ deeper) {t : Tree} {tokens : List Token}
    (held : Laid depth t tokens) : Laid deeper t tokens := by
  induction h with
  | refl => exact held
  | step _ ih => exact ih.succ

theorem Solid.told {t : Tree} {tokens : List Token} (h : Solid t tokens) : Told Solid t := by
  refine Exact.told (operands_exact h.formed t ?_)
  rw [symbols_of_simple h.simple]
  exact List.mem_singleton_self _

/-- What is bracketed does not begin with a blank, unless it is laid out. -/
theorem Solid.not_laid {t : Tree} {tokens rest more : List Token} (h : Solid t tokens) :
    tokens ++ rest ≠ .parenOpen :: .blank :: more := by
  intro same
  obtain ⟨simple, -, rfl⟩ := h
  obtain ⟨inside, rfl⟩ := headed simple same.symm
  obtain ⟨first, others, spelled, opens⟩ := inside.tokens_opens
  rw [tokens, spelled] at same
  have second := List.head_eq_of_cons_eq (List.tail_eq_of_cons_eq same)
  rw [second] at opens
  cases opens

/-- Every operand is told from the others by its tokens, by induction on the depth of brackets. -/
theorem told_laid (depth : Nat) (t : Tree) : Told (Laid depth) t := by
  induction depth generalizing t with
  | zero => exact fun held held' => held.told held held'
  | succ depth ih =>
      intro t' own own' rest rest' held held' apart apart' same
      rcases held with solid | ⟨inside, row, rfl, formed, spelled, rfl⟩
      · rcases held' with solid' | ⟨inside, row, rfl, formed, spelled, rfl⟩
        · exact solid.told solid solid' apart apart' same
        · exact absurd same solid.not_laid
      · rcases held' with solid' | ⟨inside', row', rfl, formed', spelled', rfl⟩
        · exact absurd same.symm solid'.not_laid
        · simp only [List.cons_append, List.append_assoc, List.nil_append, List.cons.injEq,
            true_and] at same
          have stops := Token.parenClose.stops_of_closes rfl termLevel
          obtain ⟨symbols, behind⟩ := spelled.unique (laid_operands depth) (fun s _ => ih s)
            spelled' (stopped_cons stops) (stopped_cons stops) same
          rw [symbols_injective formed formed' symbols]
          exact ⟨rfl, List.tail_eq_of_cons_eq behind⟩

namespace LaidOut

variable {bound : Int} {symbols symbols' : List Symbol} {tokens tokens' : List Token}

theorem solid {t : Tree} (formed : t.WellFormed) (tight : t.level ≤ bound) :
    LaidOut bound t.symbols t.tokens := ⟨0, tokens_spelled formed bound tight⟩

theorem append {op : BinaryOperator} {joint : List Token} (h : LaidOut bound symbols tokens)
    (plain : ∀ t, .operand t ∈ symbols → t.isOperator = false)
    (known : op ∈ Operator.binaryOperators) (tight : op.level ≤ bound)
    (joined : Joined op tokens' joint) (h' : LaidOut bound symbols' tokens') :
    LaidOut bound (symbols ++ .between op :: symbols') (tokens ++ joint) := by
  obtain ⟨depth, spelled⟩ := h
  obtain ⟨depth', spelled'⟩ := h'
  refine ⟨max depth depth', .append (laid_operands _) ?_ plain known tight joined ?_⟩
  · exact spelled.imp fun _ _ => Laid.mono (Nat.le_max_left depth depth')
  · exact spelled'.imp fun _ _ => Laid.mono (Nat.le_max_right depth depth')

theorem bracketed {inside : Tree} (formed : inside.WellFormed)
    (h : LaidOut termLevel inside.symbols tokens) :
    LaidOut bound (Tree.bracketed inside).symbols
      (.parenOpen :: .blank :: .blank :: (tokens ++ [.parenClose])) := by
  obtain ⟨depth, spelled⟩ := h
  exact ⟨depth + 1, .operand (.inr ⟨inside, tokens, rfl, formed, spelled, rfl⟩)⟩

theorem eq {s t : Tree} (hs : s.WellFormed) (ht : t.WellFormed)
    (h : LaidOut termLevel s.symbols tokens) (h' : LaidOut termLevel t.symbols tokens) : s = t := by
  obtain ⟨depth, spelled⟩ := h
  obtain ⟨depth', spelled'⟩ := h'
  have deep := spelled.imp fun _ _ => Laid.mono (Nat.le_max_left depth depth')
  have deep' := spelled'.imp fun _ _ => Laid.mono (Nat.le_max_right depth depth')
  have stopped : Stopped termLevel [] := nofun
  obtain ⟨symbols, -⟩ := deep.unique (laid_operands _) (fun t _ => told_laid _ t) deep' stopped
    stopped rfl
  exact symbols_injective hs ht symbols

end LaidOut

end LogicFormat.Tree
