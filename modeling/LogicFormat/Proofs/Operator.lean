import LogicFormat.Atom

/-!
# The table of operators

What the table of operators has to satisfy. Each fact is checked on the table itself; all that
follows from the table follows from these.
-/

namespace LogicFormat

namespace Operand

theorem bound_le (operand : Operand) (level : Nat) : operand.bound level ≤ level := by
  cases operand <;> simp only [bound] <;> omega

theorem bound_nonneg (operand : Operand) {level : Nat} (h : 0 < level) :
    0 ≤ operand.bound level := by
  cases operand <;> simp only [bound] <;> omega

/-- Each of two levels only admits the other if they are one level, admitted on both sides. -/
theorem equal_of_crossing {m n : Nat} {p q : Operand} (hm : (m : Int) ≤ p.bound n)
    (hn : (n : Int) ≤ q.bound m) : m = n ∧ p = .equal ∧ q = .equal := by
  cases p <;> cases q <;> simp only [bound] at hm hn <;> simp <;> omega

end Operand

namespace Operator

theorem unary_level : ∀ op ∈ unaryOperators, 0 < op.level ∧ op.level ≤ 1200 := by
  decide

theorem binary_level : ∀ op ∈ binaryOperators, 0 < op.level ∧ op.level ≤ 1200 := by
  decide

theorem comma_level : ∀ op ∈ binaryOperators, op.name = [','] → op.level = 1000 := by
  decide

theorem unary?_name : ∀ op ∈ unaryOperators, unary? op.name = some op := by
  decide

theorem binary?_name : ∀ op ∈ binaryOperators, binary? op.name = some op := by
  decide

theorem unary_not_word : ∀ op ∈ unaryOperators, Atom.isWord op.name = false := by
  decide

/-- No term of one level can stand behind one operator and before another of that level. -/
theorem binary_apart : ∀ op ∈ binaryOperators, ∀ op' ∈ binaryOperators,
    op.level = op'.level → op.right = .equal → op'.left = .equal → False := by
  decide

theorem unary_apart : ∀ op ∈ unaryOperators, ∀ op' ∈ binaryOperators,
    op.level = op'.level → op.operand = .equal → op'.left = .equal → False := by
  decide

theorem of_unary? {name : Text} {op : UnaryOperator} (h : unary? name = some op) :
    op ∈ unaryOperators ∧ op.name = name :=
  ⟨List.mem_of_find?_eq_some h, by simpa using List.find?_some h⟩

theorem of_binary? {name : Text} {op : BinaryOperator} (h : binary? name = some op) :
    op ∈ binaryOperators ∧ op.name = name :=
  ⟨List.mem_of_find?_eq_some h, by simpa using List.find?_some h⟩

theorem unary_injective {op op' : UnaryOperator} (known : op ∈ unaryOperators)
    (known' : op' ∈ unaryOperators) (same : op.name = op'.name) : op = op' := by
  have found := unary?_name op known
  rw [same, unary?_name op' known'] at found
  exact (Option.some.inj found).symm

theorem binary_injective {op op' : BinaryOperator} (known : op ∈ binaryOperators)
    (known' : op' ∈ binaryOperators) (same : op.name = op'.name) : op = op' := by
  have found := binary?_name op known
  rw [same, binary?_name op' known'] at found
  exact (Option.some.inj found).symm

theorem isOperator_unary {op : UnaryOperator} (known : op ∈ unaryOperators) :
    isOperator op.name = true := by
  rw [isOperator, unary?_name op known, Option.isSome_some, Bool.or_true]

/-- The operators behind which a line of a clause can end. -/
def lineBreaking : List Text := [":-", "-->", "->"]

/-- No operator has a name that begins with one of these and goes on. -/
theorem not_longer {op : BinaryOperator} (known : op ∈ binaryOperators) {front name : Text}
    (breaks : front ∈ lineBreaking) (longer : op.name = front ++ name) : name = [] := by
  have table : ∀ op ∈ binaryOperators, ∀ front ∈ lineBreaking, front <+: op.name →
      op.name.length = front.length := by
    decide
  have length := table op known front breaks ⟨name, longer.symm⟩
  rw [longer, List.length_append] at length
  exact List.eq_nil_of_length_eq_zero (by omega)

theorem lineBreaking_apart {front front' name name' : Text} (breaks : front ∈ lineBreaking)
    (breaks' : front' ∈ lineBreaking) (same : front ++ name = front' ++ name') :
    front = front' ∧ name = name' := by
  have table : ∀ front ∈ lineBreaking, ∀ front' ∈ lineBreaking, front <+: front' →
      front = front' := by
    decide
  have fronts : front = front' := by
    have whole : front' <+: front ++ name := ⟨name', same.symm⟩
    rcases List.prefix_or_prefix_of_prefix (List.prefix_append front name) whole with first | first
    · exact table front breaks front' breaks' first
    · exact (table front' breaks' front breaks first).symm
  subst fronts
  exact ⟨rfl, List.append_cancel_left same⟩

end Operator

end LogicFormat
