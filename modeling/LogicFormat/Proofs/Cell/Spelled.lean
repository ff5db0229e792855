import LogicFormat.Proofs.Cell.Lines
import LogicFormat.Proofs.Cell.Slots

/-!
# Texts spelled out

A text may be put into a cell at once or in portions. Either way the cell that is closed has the
same length and the same glue, so that its widths and its text are the same. To compare two ways to
cut a text, both are cut as finely as they can be, into single characters.
-/

namespace LogicFormat

/-! ## Cells -/

namespace Element

def letters (text : Text) : List Element := text.map fun c => .chars [c]

def spell : Element → List Element
  | .chars text => letters text
  | .glue fill slot => [.glue fill slot]

theorem totalLength_letters (text : Text) : totalLength (letters text) = text.length := by
  induction text with
  | nil => rfl
  | cons c text ih =>
      show 1 + totalLength (letters text) = text.length + 1
      rw [ih, Nat.add_comm]

theorem totalLength_spell (elements : List Element) :
    totalLength (elements.flatMap spell) = totalLength elements := by
  induction elements with
  | nil => rfl
  | cons element rest ih =>
      have same : totalLength element.spell = element.length := by
        cases element with
        | chars text => exact totalLength_letters text
        | glue fill slot => rfl
      rw [List.flatMap_cons, totalLength_append, same, ih, totalLength]

theorem countP_letters (text : Text) : (letters text).countP isGlue = 0 := by
  rw [List.countP_eq_zero]
  intro element h
  obtain ⟨c, -, rfl⟩ := List.mem_map.mp h
  exact Bool.noConfusion

theorem countP_spell (elements : List Element) :
    (elements.flatMap spell).countP isGlue = elements.countP isGlue := by
  induction elements with
  | nil => rfl
  | cons element rest ih =>
      rw [List.flatMap_cons, List.countP_append, ih, List.countP_cons]
      cases element with
      | chars text =>
          have none : (Element.chars text).spell.countP isGlue = 0 := countP_letters text
          rw [none, Nat.zero_add]
          rfl
      | glue fill slot => exact Nat.add_comm _ _

theorem renderAll_letters (widths : List Nat) (text : Text) (rest : List Element) :
    renderAll widths (letters text ++ rest) =
      renderAll widths rest >>= fun others => .ok (text ++ others) := by
  induction text with
  | nil =>
      show renderAll widths rest = _
      cases renderAll widths rest with
      | error fault => rfl
      | ok others => rfl
  | cons c text ih =>
      show renderAll widths (.chars [c] :: (letters text ++ rest)) = _
      rw [renderAll, ih]
      cases renderAll widths rest with
      | error fault => rfl
      | ok others => rfl

theorem renderAll_spell (widths : List Nat) (elements : List Element) :
    renderAll widths (elements.flatMap spell) = renderAll widths elements := by
  induction elements with
  | nil => rfl
  | cons element rest ih =>
      rw [List.flatMap_cons]
      cases element with
      | chars text =>
          show renderAll widths (letters text ++ rest.flatMap spell) = _
          rw [renderAll_letters, ih]
          rfl
      | glue fill slot =>
          show renderAll widths (.glue fill slot :: rest.flatMap spell) = _
          rw [renderAll, renderAll, ih]

theorem spell_eq_nil {elements : List Element} (shown : ∀ element ∈ elements, element.Shown) :
    elements.flatMap spell = [] ↔ elements = [] := by
  cases elements with
  | nil => exact Iff.rfl
  | cons element rest =>
      have visible : element.spell ≠ [] := by
        cases element with
        | chars text => exact fun h => shown _ List.mem_cons_self (List.map_eq_nil_iff.mp h)
        | glue fill slot => exact List.cons_ne_nil _ _
      simp [visible]

end Element

namespace Cell

def spell (cell : Cell) : Cell := { cell with elements := cell.elements.flatMap Element.spell }

theorem widths_spell (cell : Cell) : cell.spell.widths = cell.widths := by
  have glue : cell.spell.glueCount = cell.glueCount := Element.countP_spell cell.elements
  have length : cell.spell.length = cell.length := Element.totalLength_spell cell.elements
  have space : cell.spell.space = cell.space := by
    rw [Cell.space, length]
    rfl
  rw [widths, widths, glue, space]

theorem render_spell (cell : Cell) : cell.spell.render = cell.render := by
  rw [render, widths_spell]
  exact Element.renderAll_spell cell.widths cell.elements

end Cell

namespace Block

def spell : Block → Block
  | .cell c => .cell c.spell
  | .newline => .newline

theorem renderAll_spell (blocks : List Block) :
    renderAll (blocks.map spell) = renderAll blocks := by
  induction blocks with
  | nil => rfl
  | cons block rest ih =>
      have same : block.spell.render = block.render := by
        cases block with
        | cell c => exact c.render_spell
        | newline => rfl
      rw [List.map_cons, renderAll, same, ih, renderAll]

end Block

/-! ## Builders -/

namespace Operation

def spell : Operation → List Operation
  | .chars text => text.map fun c => .chars [c]
  | operation => [operation]

theorem spell_spell (text : Text) :
    (Operation.chars text).spell.flatMap spell = (Operation.chars text).spell := by
  induction text with
  | nil => rfl
  | cons c text ih => exact congrArg (Operation.chars [c] :: ·) ih

end Operation

namespace Builder

open Element

def spell (b : Builder) : Builder :=
  { b with elements := b.elements.flatMap Element.spell, blocks := b.blocks.map Block.spell }

theorem performAll_letters (b : Builder) (text : Text) :
    b.performAll (Operation.chars text).spell =
      { b with elements := b.elements ++ letters text } := by
  induction text generalizing b with
  | nil =>
      show b = { b with elements := b.elements ++ [] }
      rw [List.append_nil]
  | cons c text ih =>
      show (b.chars [c]).performAll (Operation.chars text).spell = _
      have added : b.chars [c] = { b with elements := b.elements ++ [.chars [c]] } :=
        if_neg (List.cons_ne_nil c [])
      rw [ih, added, List.append_assoc]
      rfl

variable {b : Builder}

theorem spell_chars (b : Builder) (text : Text) :
    (b.chars text).spell = b.spell.performAll (Operation.chars text).spell := by
  rw [performAll_letters]
  by_cases h : text = []
  · simp [chars, spell, letters, h]
  · simp [chars, spell, Element.spell, h]

theorem spell_close (orderly : b.Orderly Shown) (stop : Int) :
    (b.close stop).spell = b.spell.close stop := by
  have nonempty : b.spell.elements = [] ↔ b.elements = [] := spell_eq_nil orderly.opened.each
  have closed : (b.closedBlocks stop).map Block.spell = b.spell.closedBlocks stop := by
    unfold closedBlocks
    by_cases none : b.elements = []
    · rw [if_pos none, if_pos (nonempty.mpr none)]
      rfl
    · rw [if_neg none, if_neg fun h => none (nonempty.mp h)]
      rfl
  simp [close, spell, closed, List.map_append]

theorem spell_column (orderly : b.Orderly Shown) (n : Int) :
    (b.column n).spell = b.spell.column n :=
  congrArg (fun closed : Builder => { closed with tab := n }) (spell_close orderly n)

theorem spell_newlines (orderly : b.Orderly Shown) (n : Int) :
    (b.newlines n).spell = b.spell.newlines n := by
  have blocks : (b.close b.tab).blocks.map Block.spell = (b.spell.close b.tab).blocks :=
    congrArg Builder.blocks (spell_close orderly b.tab)
  have added : ((b.close b.tab).blocks ++ List.replicate n.toNat Block.newline).map Block.spell =
      (b.spell.close b.tab).blocks ++ List.replicate n.toNat Block.newline := by
    rw [List.map_append, blocks, List.map_replicate]
    rfl
  exact congrArg (Builder.mk 0 [] 0) added

/-- Spelled out, an operation does to the spelled builder what it does to the builder. -/
theorem spell_perform (orderly : b.Orderly Shown) (operation : Operation) :
    (b.perform operation).spell = b.spell.performAll operation.spell := by
  cases operation with
  | chars text => exact b.spell_chars text
  | glue fill => simp [perform, glue, spell, Operation.spell, Element.spell]
  | close stop => exact spell_close orderly stop
  | column n => exact spell_column orderly n
  | relativeColumn n => exact spell_column orderly (b.tab + n)
  | newlines n => exact spell_newlines orderly n
  | finish => exact spell_close orderly b.tab

theorem spell_performAll (orderly : b.Orderly Shown) (operations : List Operation) :
    (b.performAll operations).spell = b.spell.performAll (operations.flatMap Operation.spell) := by
  induction operations generalizing b with
  | nil => rfl
  | cons operation operations ih =>
      rw [performAll_cons, ih (orderly.perform (supplies_shown operation)), spell_perform orderly,
        List.flatMap_cons, performAll_append]

theorem built_spell (operations : List Operation) :
    built (operations.flatMap Operation.spell) = (built operations).map Block.spell := by
  have orderly : (empty.performAll operations).Orderly Shown :=
    Orderly.empty.performAll fun operation _ => supplies_shown operation
  have spelled : empty.performAll (operations.flatMap Operation.spell) =
      (empty.performAll operations).spell :=
    (spell_performAll Orderly.empty operations).symm
  rw [built, spelled]
  exact congrArg Builder.blocks (spell_close orderly _).symm

end Builder

/-- A page is the same for every way to cut the texts that are put on it. -/
theorem Block.renderAll_built_spell (operations : List Operation) :
    renderAll (Builder.built (operations.flatMap Operation.spell)) =
      renderAll (Builder.built operations) := by
  rw [Builder.built_spell, renderAll_spell]

end LogicFormat
