import LogicFormat.Proofs.Cell.Lines

/-!
# Nothing is lost in a builder

The elements of all cells, closed and open, with the newlines between them, are what the operations
put in, in their order: elements move from the open cell to closed ones, but are never dropped,
repeated or passed by others. Where nothing stretches, the text of a page is the text put in.
-/

namespace LogicFormat

inductive Content where
  | element (element : Element)
  | newline
  deriving DecidableEq

namespace Content

def stretches : Content → Bool
  | .element e => e.isGlue
  | .newline => false

def text : Content → Text
  | .element (.chars shown) => shown
  | .element (.glue _ _) => []
  | .newline => ['\n']

end Content

/-- The contents of a block, without the cell they are in. -/
def Block.contents : Block → List Content
  | .cell c => c.elements.map .element
  | .newline => [.newline]

/-- The contents in the closed blocks, and behind them those of the open cell. -/
def Builder.contents (b : Builder) : List Content :=
  b.blocks.flatMap Block.contents ++ b.elements.map .element

namespace Operation

/-- What the operation puts in, when its glue is given `slot`. -/
def contents (slot : Nat) : Operation → List Content
  | .chars text => if text = [] then [] else [.element (.chars text)]
  | .glue fill => [.element (.glue fill slot)]
  | .newlines n => List.replicate n.toNat .newline
  | _ => []

/-- The slot for glue behind the operation: each end of a cell starts the count again. -/
def slotAfter (slot : Nat) : Operation → Nat
  | .chars _ => slot
  | .glue _ => slot + 1
  | _ => 0

def allContents (slot : Nat) : List Operation → List Content
  | [] => []
  | operation :: operations =>
      operation.contents slot ++ allContents (operation.slotAfter slot) operations

end Operation

namespace Builder

open Operation

theorem flatMap_contents_replicate (n : Nat) :
    (List.replicate n Block.newline).flatMap Block.contents = List.replicate n Content.newline := by
  induction n with
  | zero => rfl
  | succ n ih =>
      rw [List.replicate_succ, List.flatMap_cons, ih]
      rfl

theorem contents_close (b : Builder) (stop : Int) :
    (b.close stop).blocks.flatMap Block.contents = b.contents := by
  unfold close closedBlocks contents
  rw [List.flatMap_append]
  split
  · next none => rw [none]; rfl
  · rw [List.flatMap_singleton, Block.contents]

theorem glueCount_perform (b : Builder) (operation : Operation) :
    (b.perform operation).glueCount = operation.slotAfter b.glueCount := by
  cases operation with
  | chars text => exact b.glueCount_chars text
  | _ => rfl

theorem contents_perform (b : Builder) (operation : Operation) :
    (b.perform operation).contents = b.contents ++ operation.contents b.glueCount := by
  -- an end of a cell leaves no open elements
  have closed (stop : Int) : (b.close stop).contents = b.contents ++ [] :=
    congrArg (· ++ []) (b.contents_close stop)
  cases operation with
  | chars text =>
      by_cases h : text = []
      · simp [perform, chars, Operation.contents, h]
      · simp [perform, chars, contents, Operation.contents, h]
  | glue fill => simp [perform, glue, contents, Operation.contents]
  | close stop => exact closed stop
  | column n => exact closed n
  | relativeColumn n => exact closed (b.tab + n)
  | newlines n =>
      have blocks : ((b.close b.tab).blocks ++ List.replicate n.toNat Block.newline).flatMap
          Block.contents = b.contents ++ List.replicate n.toNat .newline := by
        rw [List.flatMap_append, contents_close, flatMap_contents_replicate]
      exact (congrArg (· ++ []) blocks).trans (List.append_nil _)
  | finish => exact closed b.tab

theorem contents_performAll (b : Builder) (operations : List Operation) :
    (b.performAll operations).contents = b.contents ++ allContents b.glueCount operations := by
  induction operations generalizing b with
  | nil => exact (List.append_nil _).symm
  | cons operation operations ih =>
      rw [performAll_cons, ih, contents_perform, glueCount_perform, List.append_assoc, allContents]

end Builder

/-! ## Pages that do not stretch -/

theorem Element.renderAll_of_chars {elements : List Element} (widths : List Nat)
    (fixed : ∀ element ∈ elements, element.isGlue = false) :
    renderAll widths elements = .ok ((elements.map Content.element).flatMap Content.text) := by
  induction elements with
  | nil => rfl
  | cons element rest ih =>
      rw [List.forall_mem_cons] at fixed
      cases element with
      | chars text =>
          rw [renderAll, ih fixed.2]
          rfl
      | glue fill slot => exact absurd fixed.1 Bool.noConfusion

theorem Block.renderAll_of_fixed {blocks : List Block}
    (fixed : ∀ content ∈ blocks.flatMap Block.contents, content.stretches = false) :
    renderAll blocks = .ok ((blocks.flatMap Block.contents).flatMap Content.text) := by
  induction blocks with
  | nil => rfl
  | cons block rest ih =>
      rw [List.flatMap_cons, List.forall_mem_append] at fixed
      have rendered : block.render = .ok (block.contents.flatMap Content.text) := by
        cases block with
        | newline => rfl
        | cell cell =>
            exact Element.renderAll_of_chars cell.widths fun element h =>
              fixed.1 (.element element) (List.mem_map_of_mem h)
      rw [renderAll, rendered, ih fixed.2, List.flatMap_cons, List.flatMap_append]
      rfl

namespace Operation

def text : Operation → Text
  | .chars shown => shown
  | .newlines n => List.replicate n.toNat '\n'
  | _ => []

def stretches : Operation → Bool
  | .glue _ => true
  | _ => false

theorem contents_of_fixed {operation : Operation} (fixed : operation.stretches = false)
    (slot : Nat) :
    (∀ content ∈ operation.contents slot, content.stretches = false) ∧
      (operation.contents slot).flatMap Content.text = operation.text := by
  cases operation with
  | chars shown =>
      by_cases h : shown = []
      · simp [contents, text, h]
      · rw [contents, if_neg h]
        exact ⟨List.forall_mem_singleton.mpr rfl, List.flatMap_singleton ..⟩
  | newlines n =>
      refine ⟨fun content h => ?_, ?_⟩
      · rw [(List.mem_replicate.mp h).2]
        rfl
      · simp [contents, text, Content.text, List.flatMap_replicate]
  | glue fill => exact absurd fixed Bool.noConfusion
  | _ => exact ⟨nofun, rfl⟩

theorem allContents_of_fixed {operations : List Operation}
    (fixed : ∀ operation ∈ operations, operation.stretches = false) (slot : Nat) :
    (∀ content ∈ allContents slot operations, content.stretches = false) ∧
      (allContents slot operations).flatMap Content.text = operations.flatMap text := by
  induction operations generalizing slot with
  | nil => exact ⟨nofun, rfl⟩
  | cons operation operations ih =>
      rw [List.forall_mem_cons] at fixed
      obtain ⟨first, shown⟩ := contents_of_fixed fixed.1 slot
      obtain ⟨others, shownAll⟩ := ih fixed.2 (operation.slotAfter slot)
      refine ⟨List.forall_mem_append.mpr ⟨first, others⟩, ?_⟩
      rw [allContents, List.flatMap_append, shown, shownAll, List.flatMap_cons]

end Operation

/-- Where nothing stretches, tab stops leave no trace in the text. -/
theorem Block.renderAll_built {operations : List Operation}
    (fixed : ∀ operation ∈ operations, operation.stretches = false) :
    renderAll (Builder.built operations) = .ok (operations.flatMap Operation.text) := by
  obtain ⟨contents, text⟩ := Operation.allContents_of_fixed fixed 0
  have conserved : (Builder.built operations).flatMap Block.contents =
      Operation.allContents 0 operations :=
    (Builder.contents_close _ _).trans (Builder.contents_performAll Builder.empty operations)
  rw [← conserved] at contents text
  rw [renderAll_of_fixed contents, text]

end LogicFormat
