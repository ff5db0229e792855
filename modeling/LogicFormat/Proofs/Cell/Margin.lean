import LogicFormat.Cell.Builder
import Mathlib.Data.List.DropRight

/-!
# The tab stop within a line

A line starts with its tab stop at the margin, and only columns move it. The builder takes the tab
stop back whenever new lines are asked for, were it none: then the line goes on, and its tab stop
is at the margin all the same.
-/

namespace LogicFormat

namespace Operation

/-- Where the operation takes a tab stop within a line. -/
def move (tab : Int) : Operation → Int
  | .column n => n
  | .relativeColumn n => tab + n
  | _ => tab

/-- Whether the operation asks for new lines, in whatever number. -/
def requestsLines : Operation → Bool
  | .newlines _ => true
  | _ => false

def lines : Operation → Nat
  | .newlines n => n.toNat
  | _ => 0

def breaksLine (operation : Operation) : Bool := 0 < operation.lines

/-- The tab stop of a line that begins behind the last operation of some kind, or with the first
operation of all. -/
def tabSince (begins : Operation → Bool) (operations : List Operation) : Int :=
  (operations.rtakeWhile fun operation => !begins operation).foldl move 0

variable {begins : Operation → Bool}

theorem tabSince_concat (operations : List Operation) (operation : Operation) :
    tabSince begins (operations ++ [operation]) =
      if begins operation then 0 else operation.move (tabSince begins operations) := by
  unfold tabSince
  rw [List.rtakeWhile_concat]
  cases begins operation with
  | true => rfl
  | false => exact List.foldl_append

theorem tabSince_congr {other : Operation → Bool} {operations : List Operation}
    (same : ∀ operation ∈ operations, begins operation = other operation) :
    tabSince begins operations = tabSince other operations := by
  induction operations using List.reverseRecOn with
  | nil => rfl
  | append_singleton operations operation ih =>
      rw [List.forall_mem_append, List.forall_mem_singleton] at same
      rw [tabSince_concat, tabSince_concat, ih same.1, same.2]

theorem requestsLines_eq_breaksLine {operation : Operation}
    (positive : ∀ n, operation = .newlines n → 0 < n) :
    operation.requestsLines = operation.breaksLine := by
  cases operation with
  | newlines n =>
      have some : 0 < n.toNat := Int.pos_iff_toNat_pos.mp (positive n rfl)
      exact (decide_eq_true some).symm
  | _ => rfl

end Operation

namespace Builder

open Operation

/-- The newlines on the page are those that the operation starts and those that were there. -/
theorem count_newline_perform (b : Builder) (operation : Operation) :
    (b.perform operation).blocks.count .newline = b.blocks.count .newline + operation.lines := by
  have closed (stop : Int) : (b.close stop).blocks.count .newline = b.blocks.count .newline := by
    unfold close closedBlocks
    rw [List.count_append]
    split <;> rfl
  cases operation with
  | chars text => exact congrArg (List.count Block.newline) (b.blocks_chars text)
  | glue fill => rfl
  | close stop => exact closed stop
  | column n => exact closed n
  | relativeColumn n => exact closed (b.tab + n)
  | newlines n =>
      show ((b.close b.tab).blocks ++ List.replicate n.toNat Block.newline).count .newline = _
      rw [List.count_append, closed, List.count_replicate_self]
      rfl
  | finish => exact closed b.tab

/-- The operations that break a line are those behind which there are more newlines on the page. -/
theorem breaksLine_iff (b : Builder) (operation : Operation) :
    operation.breaksLine = true ↔
      b.blocks.count .newline < (b.perform operation).blocks.count .newline := by
  rw [count_newline_perform, breaksLine, decide_eq_true_iff]
  omega

theorem tab_perform (b : Builder) (operation : Operation) :
    (b.perform operation).tab =
      if operation.requestsLines then 0 else operation.move b.tab := by
  cases operation with
  | chars text => exact b.tab_chars text
  | _ => rfl

/-- The tab stop is that of a line that begins behind the last request for new lines, and so that of
the line on the page, behind its last newline, if no request is for none. -/
theorem tab_performAll (operations : List Operation) :
    (empty.performAll operations).tab = tabSince requestsLines operations ∧
    ((∀ n, .newlines n ∈ operations → 0 < n) →
      (empty.performAll operations).tab = tabSince breaksLine operations) := by
  have requested : (empty.performAll operations).tab = tabSince requestsLines operations := by
    induction operations using List.reverseRecOn with
    | nil => rfl
    | append_singleton operations operation ih =>
        rw [performAll_append, performAll_cons, performAll_nil, tab_perform, tabSince_concat, ih]
  refine ⟨requested, fun positive => ?_⟩
  rw [requested]
  apply tabSince_congr
  intro operation member
  exact requestsLines_eq_breaksLine fun n same => positive n (same ▸ member)

theorem tab_performAll_second_line :
    (∀ n, .newlines n ∈ [Operation.column 8, .newlines 1, .relativeColumn 3] → 0 < n) ∧
    (empty.performAll [.column 8, .newlines 1, .relativeColumn 3]).tab = 3 := by
  have positive : ∀ n, .newlines n ∈ [Operation.column 8, .newlines 1, .relativeColumn 3] →
      0 < n := by
    simp
  exact ⟨positive, ((tab_performAll _).2 positive).trans rfl⟩

/-- A request for no new lines leaves the page without a newline, but takes the tab stop back to
the margin. -/
theorem tab_performAll_no_lines :
    (empty.performAll [.column 8, .newlines 0]).blocks = [] ∧
    (empty.performAll [.column 8, .newlines 0]).tab ≠
      tabSince breaksLine [.column 8, .newlines 0] := by
  decide

end Builder

end LogicFormat
