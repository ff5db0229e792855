import LogicFormat.Proofs.Cell.Slots
import Mathlib.Data.List.Chain

/-!
# Widths of cells

The space that the text of a cell leaves free is shared out among its glue: every piece gets the
same whole number of columns, and the last one what is left over. So a cell with glue is as wide as
its tab stops are apart, unless its text is wider; without glue it is as wide as its text. Cells
that stand side by side, each with glue of its own, reach the column at which the last of them
stops, and go beyond it exactly if some text overflows its cell.
-/

namespace LogicFormat

namespace Cell

theorem space_eq_max (cell : Cell) :
    (cell.space : Int) = max 0 (cell.stop - cell.start - cell.length) := by
  rw [space, Int.toNat_eq_max, Int.max_comm]

theorem mem_dropLast_widths {cell : Cell} {width : Nat} (member : width ∈ cell.widths.dropLast) :
    width = cell.space / cell.glueCount := by
  unfold widths at member
  split at member
  · cases member
  · next n counted =>
      rw [List.dropLast_concat] at member
      rw [counted, List.eq_of_mem_replicate member]

theorem getLast?_widths {cell : Cell} (glued : 0 < cell.glueCount) :
    cell.widths.getLast? =
      some (cell.space / cell.glueCount + cell.space % cell.glueCount) := by
  unfold widths
  split
  · next none => omega
  · next n counted => rw [List.getLast?_concat, counted]

/-- The glue of a cell shares out what the text leaves free between the tab stops: evenly, but for a
remainder that goes to the last piece. The cell is then as long as its text or as its tab stops are
apart, whichever is more. A cell without glue is as long as its text, wherever its tab stops are. -/
theorem widths_shared {cell : Cell} (orderly : Element.Orderly Element.Exact cell.elements) :
    (0 < cell.glueCount →
      cell.widths.length = cell.glueCount ∧
      (cell.widths.sum : Int) = max 0 (cell.stop - cell.start - cell.length) ∧
      (∀ width ∈ cell.widths.dropLast, width = cell.widths.sum / cell.glueCount) ∧
      cell.widths.getLast? =
        some (cell.widths.sum / cell.glueCount + cell.widths.sum % cell.glueCount)) ∧
    ∃ text, cell.render = .ok text ∧
      (0 < cell.glueCount → (text.length : Int) = max ↑cell.length (cell.stop - cell.start)) ∧
      (cell.glueCount = 0 → text.length = cell.length) := by
  constructor
  · intro glued
    rw [sum_widths glued]
    exact ⟨cell.length_widths, cell.space_eq_max, fun _ => mem_dropLast_widths,
      getLast?_widths glued⟩
  · obtain ⟨text, rendered, length⟩ := render_of_numbered orderly.numbered
    have width := length orderly.each
    refine ⟨text, rendered, fun glued => ?_, fun none => ?_⟩
    · rw [sum_widths glued] at width
      have space := cell.space_eq_max
      omega
    · have noWidths : cell.widths = [] := by
        rw [← List.length_eq_zero_iff, length_widths, none]
      rwa [noWidths] at width

theorem widths_shared_remainder :
    let cell : Cell := ⟨3, 20, [.glue ['.'] 0, .chars ['a', 'b'], .glue [' '] 1, .chars ['c'],
      .glue ['-'] 2]⟩
    Element.Orderly Element.Exact cell.elements ∧ 0 < cell.glueCount ∧
      cell.widths = [4, 4, 6] ∧ ∃ text, cell.render = .ok text ∧ text.length = 17 := by
  intro cell
  have orderly : Element.Orderly Element.Exact cell.elements := by
    refine ⟨?_, rfl⟩
    simp [cell, Element.Exact]
  obtain ⟨text, rendered, length, -⟩ := (widths_shared orderly).2
  exact ⟨orderly, by decide, by decide, text, rendered, Int.ofNat.inj (length (by decide))⟩

/-! ## Rows of cells -/

/-- Whether the text of the cell fits between its tab stops. -/
def Fits (cell : Cell) : Prop := (cell.length : Int) ≤ cell.stop - cell.start

/-- The cells stand side by side from the column `start` to the column `stop`. -/
def Reaches : Int → List Cell → Int → Prop
  | start, [], stop => start = stop
  | start, cell :: row, stop => cell.start = start ∧ Reaches cell.stop row stop

theorem reaches_take {row : List Cell} {start : Int}
    (first : ∀ cell ∈ row.head?, cell.start = start)
    (adjoin : row.IsChain fun left right => right.start = left.stop) {k : Nat} {last : Cell}
    (h : row[k]? = some last) : Reaches start (row.take (k + 1)) last.stop := by
  induction row generalizing start k with
  | nil => exact nomatch h
  | cons cell row ih =>
      have starts : cell.start = start := first cell rfl
      rw [List.isChain_cons] at adjoin
      cases k with
      | zero =>
          cases h
          exact ⟨starts, rfl⟩
      | succ k => exact ⟨starts, ih adjoin.1 adjoin.2 h⟩

/-- A cell with glue in order is at least as wide as asked for, and wider only if its text is. -/
theorem length_render {cell : Cell} (orderly : Element.Orderly Element.Exact cell.elements)
    (glued : 0 < cell.glueCount) :
    ∃ text, cell.render = .ok text ∧ cell.stop - cell.start ≤ text.length ∧
      ((text.length : Int) = cell.stop - cell.start ↔ cell.Fits) := by
  obtain ⟨text, rendered, length⟩ := render_of_numbered orderly.numbered
  have width := length orderly.each
  rw [sum_widths glued, space] at width
  refine ⟨text, rendered, ?_, ?_⟩
  · omega
  · unfold Fits
    omega

/-- The text of a row is at least as long as the row, and longer only if some cell overflows. -/
theorem length_renderAll {row : List Cell} {start stop : Int}
    (orderly : ∀ cell ∈ row, Element.Orderly Element.Exact cell.elements)
    (glued : ∀ cell ∈ row, 0 < cell.glueCount) (reaches : Reaches start row stop) :
    ∃ text, Block.renderAll (row.map .cell) = .ok text ∧ stop - start ≤ text.length ∧
      ((text.length : Int) = stop - start ↔ ∀ cell ∈ row, cell.Fits) := by
  induction row generalizing start with
  | nil =>
      have meets : start = stop := reaches
      refine ⟨[], rfl, ?_, ?_⟩
      · rw [List.length_nil]
        omega
      · rw [List.length_nil]
        exact ⟨fun _ => nofun, fun _ => by omega⟩
  | cons cell row ih =>
      rw [List.forall_mem_cons] at orderly glued
      obtain ⟨rfl, reaches⟩ := reaches
      obtain ⟨text, rendered, wide, fits⟩ := length_render orderly.1 glued.1
      obtain ⟨others, renderedAll, wideAll, fitAll⟩ := ih orderly.2 glued.2 reaches
      refine ⟨text ++ others, ?_, ?_, ?_⟩
      · rw [List.map_cons, Block.renderAll, Block.render, rendered, renderedAll]
        rfl
      · rw [List.length_append]
        omega
      · rw [List.length_append, List.forall_mem_cons, ← fits, ← fitAll]
        omega

end Cell

end LogicFormat
