import LogicFormat.Proofs.Notation.LaidOut
import LogicFormat.Proofs.Notation.Spacing

/-!
# Connectives of clauses

The connectives that a clause is laid out with, as operators on their operands: a comma stands apart
from nothing, a semicolon has two blanks behind it, and a neck or an arrow has one before it and a
line break behind it, where the next goal may go on with it.
-/

namespace LogicFormat

open Token

namespace Atom

theorem isSymbol_append {front name : Text} (first : isSymbol front = true)
    (second : isSymbol name = true) : isSymbol (front ++ name) = true := by
  simp only [isSymbol, Bool.and_eq_true, decide_eq_true_eq, List.all_eq_true] at first second ⊢
  refine ⟨⟨List.append_ne_nil_of_left_ne_nil first.1.1 _, ?_⟩, ?_⟩
  · intro c hc
    exact (List.mem_append.mp hc).elim (first.1.2 c) (second.1.2 c)
  · intro point
    have length := congrArg List.length point
    have one := List.length_pos_of_ne_nil first.1.1
    have two := List.length_pos_of_ne_nil second.1.1
    rw [List.length_append, List.length_singleton] at length
    omega

end Atom

namespace Token

theorem not_symbol_start {u : Token} (opens : u.opens = true)
    (other : ∀ name, u = .atom name → Atom.isSymbol name = false) :
    ∀ c ∈ u.text.head?, Atom.isSymbolChar c = false := by
  intro c hc
  cases u with
  | var n =>
      cases hc
      rfl
  | int n => exact symbol_of_isDigit (Naming.isDigit_ofNat c (List.mem_of_mem_head? hc))
  | atom name =>
      rcases Atom.start_quoted c hc with mark | lower | symbol
      · have table : Atom.starts.all (fun d => !Atom.isSymbolChar d) = true := by
          decide
        simpa using List.all_eq_true.mp table c mark
      · exact symbol_of_isLower lower
      · exact absurd symbol.1 (Bool.eq_false_iff.mp (other name rfl))
  | chars text =>
      cases hc
      rfl
  | parenOpen =>
      cases hc
      rfl
  | bracketOpen =>
      cases hc
      rfl
  | braceOpen =>
      cases hc
      rfl
  | _ => exact nomatch opens

variable {ts us rest : List Token}

namespace Spaced

theorem fused {front name : Text} (first : Atom.isSymbol front = true)
    (symbol : Atom.isSymbol name = true) (h : Spaced (.atom name :: rest)) :
    Spaced (.atom (front ++ name) :: rest) where
  chain := by
    have absorbs : (atom (front ++ name)).absorbs = (atom name).absorbs := by
      rw [absorbs_symbol symbol, absorbs_symbol (Atom.isSymbol_append first symbol)]
    refine List.isChain_cons.mpr ⟨fun u hu => ?_, (List.isChain_cons.mp h.chain).2⟩
    rw [Fits, absorbs]
    exact (List.isChain_cons.mp h.chain).1 u hu
  nonempty := List.cons_ne_nil _ _
  first := by
    intro t ht
    cases ht
    rfl
  last := by
    cases rest with
    | nil =>
        intro t ht
        cases ht
        rfl
    | cons u rest => exact h.last

theorem bracketed (h : Spaced ts) :
    Spaced (.parenOpen :: .blank :: .blank :: (ts ++ [.parenClose])) where
  chain := by
    have enclosed : Spaced (.parenOpen :: (ts ++ [.parenClose])) := h.enclosed rfl rfl rfl rfl
    have inside := (List.isChain_cons.mp enclosed.chain).2
    refine List.isChain_cons_cons.mpr ⟨Text.ends_cons.mpr rfl, List.isChain_cons_cons.mpr
      ⟨Text.ends_cons.mpr rfl, List.isChain_cons.mpr ⟨?_, inside⟩⟩⟩
    rw [List.head?_append_of_ne_nil ts h.nonempty]
    exact fun u hu => fits_start rfl (h.first u hu)
  nonempty := List.cons_ne_nil _ _
  first := by
    intro t ht
    cases ht
    rfl
  last := by
    intro t ht
    rw [← List.cons_append, ← List.cons_append, ← List.cons_append, List.getLast?_concat] at ht
    cases ht
    rfl

theorem alternative (hts : Spaced ts) (hus : Spaced us) :
    Spaced (ts ++ .atom [';'] :: .blank :: .blank :: us) := by
  have behind : Spaced (.atom [';'] :: .blank :: .blank :: us) :=
    { chain := by
        refine List.isChain_cons_cons.mpr ⟨Text.ends_cons.mpr rfl, List.isChain_cons_cons.mpr
          ⟨Text.ends_cons.mpr rfl, List.isChain_cons.mpr ⟨?_, hus.chain⟩⟩⟩
        exact fun u hu => fits_start rfl (hus.first u hu)
      nonempty := List.cons_ne_nil _ _
      first := by
        intro t ht
        cases ht
        rfl
      last := by
        intro t ht
        rw [List.getLast?_cons_cons, List.getLast?_cons_cons,
          List.getLast?_cons_of_ne_nil hus.nonempty] at ht
        exact hus.last t ht }
  refine hts.append behind fun t ht u hu => ?_
  cases hu
  exact Text.ends_cons.mpr (absorbs_mark (hts.last t ht) rfl rfl)

end Spaced

end Token

namespace Tree

variable {l r : Tree} {ts us joint : List Token} {op : BinaryOperator}

/-- A tree that is no bare operator, and the tokens that it is laid out as. -/
structure Row (t : Tree) (tokens : List Token) : Prop where
  formed : t.WellFormed
  plain : t.isOperator = false
  laid : LaidOut termLevel t.symbols tokens
  spaced : Spaced tokens

namespace Row

theorem solid {t : Tree} (formed : t.WellFormed) (plain : t.isOperator = false) :
    Row t t.tokens where
  formed := formed
  plain := plain
  laid := .solid formed (level_le_termLevel formed)
  spaced := tokens_spaced formed

theorem bracketed (h : Row l ts) :
    Row (.bracketed l) (.parenOpen :: .blank :: .blank :: (ts ++ [.parenClose])) where
  formed := .bracketed h.formed
  plain := rfl
  laid := .bracketed h.formed h.laid
  spaced := h.spaced.bracketed

theorem between (left : Row l ts) (right : Row r us) (known : op ∈ Operator.binaryOperators)
    (leftTight : l.level ≤ op.left.bound op.level)
    (rightTight : r.level ≤ op.right.bound op.level) (joined : Joined op us joint)
    (spaced : Spaced (ts ++ joint)) : Row (.between op l r) (ts ++ joint) where
  formed := .between known left.formed right.formed ⟨leftTight, left.plain⟩
    ⟨rightTight, right.plain⟩
  plain := rfl
  laid := by
    have tight : (op.level : Int) ≤ termLevel :=
      Int.ofNat_le.mpr (Operator.binary_level op known).2
    rw [symbols]
    exact left.laid.append (operands_plain left.formed left.plain) known tight joined right.laid
  spaced := spaced

end Row

/-- An operator that ends a line, with the next line right behind it. -/
theorem exists_joined (known : op ∈ Operator.binaryOperators)
    (breaks : op.name ∈ Operator.lineBreaking) (spaced : Spaced us) :
    ∃ joint, Joined op us joint ∧ (∀ ts, Spaced ts → Spaced (ts ++ joint)) ∧
      ∀ names, renderIn names joint = ' ' :: (op.name ++ renderIn names us) := by
  have table : ∀ op ∈ Operator.binaryOperators, op.name ∈ Operator.lineBreaking →
      sign op = .atom op.name ∧ Atom.isSymbol op.name = true := by
    decide
  obtain ⟨isAtom, symbol⟩ := table op known breaks
  obtain ⟨u, rest, rfl⟩ := List.exists_cons_of_ne_nil spaced.nonempty
  by_cases fuses : ∃ name, u = .atom name ∧ Atom.isSymbol name = true
  · obtain ⟨name, rfl, begins⟩ := fuses
    refine ⟨_, .fused breaks begins rfl,
      fun ts hts => hts.joined rfl rfl (spaced.fused symbol begins), fun names => ?_⟩
    simp only [renderIn_cons, textIn, Token.text, Atom.quoted_symbol begins,
      Atom.quoted_symbol (Atom.isSymbol_append symbol begins), List.append_assoc]
    rfl
  · have apart : Token.Fits (.atom op.name) u := by
      rw [Fits, absorbs_symbol symbol]
      refine not_symbol_start (spaced.first u rfl) fun name same => ?_
      exact Bool.eq_false_iff.mpr fun begins => fuses ⟨name, same, begins⟩
    have behind : Spaced (sign op :: u :: rest) := by
      rw [isAtom]
      refine (Spaced.single rfl rfl).append spaced fun t ht u' hu => ?_
      cases ht
      cases hu
      exact apart
    refine ⟨_, .spaced 1 0, fun ts hts => hts.joined rfl rfl behind, fun names => ?_⟩
    show ' ' :: ((sign op).textIn names ++ renderIn names (u :: rest)) = _
    rw [textIn_sign, isAtom, Token.text, Atom.quoted_symbol symbol]

theorem Row.exists_breaking (left : Row l ts) (right : Row r us)
    (known : op ∈ Operator.binaryOperators) (breaks : op.name ∈ Operator.lineBreaking)
    (leftTight : l.level ≤ op.left.bound op.level)
    (rightTight : r.level ≤ op.right.bound op.level) :
    ∃ tokens, Row (.between op l r) tokens ∧ ∀ names, renderIn names tokens =
      renderIn names ts ++ ' ' :: (op.name ++ renderIn names us) := by
  obtain ⟨joint, joined, spaced, shown⟩ := exists_joined known breaks right.spaced
  refine ⟨ts ++ joint, left.between right known leftTight rightTight joined
    (spaced ts left.spaced), fun names => ?_⟩
  rw [renderIn_append, shown]

end Tree

end LogicFormat
