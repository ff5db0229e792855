import LogicFormat.Proofs.Cell.Widths
import LogicFormat.Proofs.Control.Lines
import Mathlib

/-!
# Tab stops stand where they are declared

Control texts fill space with single characters only, so that a row of cells with glue is as wide
as its tab stops ask for, as long as no text overflows its cell.
-/

namespace LogicFormat

open Element (Exact)

namespace Command

def SuppliesExact (run : Arguments → Effect) : Prop :=
  ∀ arguments operations rest, run arguments = .ok (operations, rest) →
    ∀ operation ∈ operations, operation.Supplies Exact

theorem supplies_of_result {α : Type} {run : Arguments → Except Fault (α × Arguments)}
    (result : α → List Operation)
    (exactly : ∀ a, ∀ operation ∈ result a, operation.Supplies Exact) :
    SuppliesExact fun arguments => run arguments >>= fun done => .ok (result done.1, done.2) := by
  intro arguments operations rest h
  obtain ⟨done, -, h⟩ := Outcome.bind_eq_ok.mp h
  cases h
  exact exactly done.1

theorem insert_supplies (text : Term → Except Fault Text) (token : Text) :
    SuppliesExact (insert text token) := by
  intro arguments operations rest h
  obtain ⟨taken, -, h⟩ := Outcome.bind_eq_ok.mp h
  obtain ⟨shown, -, h⟩ := Outcome.bind_eq_ok.mp h
  cases h
  exact List.forall_mem_singleton.mpr fun _ => trivial

theorem insertPlaces_supplies (text : Term → Int → Except Fault Text) (places : Count)
    (token : Text) : SuppliesExact (insertPlaces text places token) := by
  intro arguments operations rest h
  obtain ⟨counted, -, h⟩ := Outcome.bind_eq_ok.mp h
  exact insert_supplies _ token _ _ _ h

theorem effect_supplies (command : Command) (token : Text) :
    SuppliesExact (command.effect token) := by
  have one (run : Arguments → Except Fault (Int × Arguments)) (operation : Int → Operation)
      (exactly : ∀ n, (operation n).Supplies Exact) : SuppliesExact fun arguments =>
        run arguments >>= fun done => .ok ([operation done.1], done.2) :=
    supplies_of_result _ fun n => List.forall_mem_singleton.mpr (exactly n)
  cases command with
  | write quoted => exact insert_supplies _ token
  | atomic => exact insert_supplies _ token
  | chars => exact insert_supplies _ token
  | decimal grouped count =>
      cases grouped with
      | false => exact insertPlaces_supplies _ count token
      | true => exact insertPlaces_supplies _ count token
  | float count =>
      cases count with
      | absent => exact insert_supplies _ token
      | number n => exact insertPlaces_supplies _ (.number n) token
      | next => exact insertPlaces_supplies _ .next token
  | ignore => exact supplies_of_result (fun _ => []) fun _ => nofun
  | newlines count => exact one (count.natural 1 token) .newlines fun _ => trivial
  | column count =>
      cases count with
      | absent => exact one (fun arguments => .ok (0, arguments)) .relativeColumn fun _ => trivial
      | number n => exact one (Count.value (.number n) 0 token) .column fun _ => trivial
      | next => exact one (Count.value .next 0 token) .column fun _ => trivial
  | relativeColumn count => exact one (count.value 0 token) .relativeColumn fun _ => trivial
  | glue fill =>
      rintro arguments _ _ ⟨⟩
      exact List.forall_mem_singleton.mpr fun _ => rfl
  | unknown => exact fun _ _ _ h => nomatch h

end Command

namespace Piece

theorem effect_supplies (piece : Piece) : Command.SuppliesExact piece.effect := by
  cases piece with
  | literal text =>
      rintro arguments _ _ ⟨⟩
      exact List.forall_mem_singleton.mpr fun _ => trivial
  | tilde =>
      rintro arguments _ _ ⟨⟩
      exact List.forall_mem_singleton.mpr fun _ => trivial
  | directive d => exact d.command.effect_supplies d.token

theorem effects_supply (pieces : List Piece) : Command.SuppliesExact (effects pieces) := by
  induction pieces with
  | nil =>
      rintro arguments _ _ ⟨⟩
      exact nofun
  | cons piece pieces ih =>
      intro arguments operations rest h
      obtain ⟨first, one, h⟩ := Outcome.bind_eq_ok.mp h
      obtain ⟨others, two, h⟩ := Outcome.bind_eq_ok.mp h
      cases h
      rw [List.forall_mem_append]
      exact ⟨piece.effect_supplies _ _ _ one, ih _ _ _ two⟩

end Piece

namespace Control

theorem orderly_of_blocks {control : Text} {arguments : Arguments} {blocks : List Block}
    (h : Control.blocks control arguments = .ok blocks) :
    ∀ cell, .cell cell ∈ blocks → Element.Orderly Exact cell.elements := by
  obtain ⟨operations, effects, rfl⟩ := blocks_eq_ok.mp h
  have supplied := Piece.effects_supply _ _ _ _ effects
  have built := Builder.Orderly.empty.performAll supplied
  exact fun cell hcell => ((built.close _).closed cell hcell).2

/-- Cells side by side from the margin on, each with glue, wherever they stand among the blocks:
they reach the tab stop of each of them, and meet it exactly if the text of every cell so far fits
between its tab stops. -/
theorem blocks_reach_tab_stops {control arguments : Term} {before after : List Block}
    {row : List Cell}
    (h : blocksTerm control arguments = .ok (before ++ row.map .cell ++ after))
    (margin : ∀ cell ∈ row.head?, cell.start = 0)
    (adjoin : row.IsChain fun left right => right.start = left.stop)
    (glued : ∀ cell ∈ row, 0 < cell.glueCount) :
    ∀ k last, row[k]? = some last →
      ∃ text, Block.renderAll ((row.take (k + 1)).map .cell) = .ok text ∧
        last.stop ≤ (text.length : Int) ∧
        ((text.length : Int) = last.stop ↔
          ∀ cell ∈ row.take (k + 1), (cell.length : Int) ≤ cell.stop - cell.start) := by
  intro k last hlast
  obtain ⟨source, -, h⟩ := Outcome.bind_eq_ok.mp h
  obtain ⟨items, -, h⟩ := Outcome.bind_eq_ok.mp h
  have orderly : ∀ cell ∈ row.take (k + 1), Element.Orderly Exact cell.elements := by
    intro cell hcell
    apply orderly_of_blocks h
    have inRow := List.mem_map_of_mem (f := Block.cell) (List.mem_of_mem_take hcell)
    exact List.mem_append_left _ (List.mem_append_right _ inRow)
  have gluedTake : ∀ cell ∈ row.take (k + 1), 0 < cell.glueCount :=
    fun cell hcell => glued cell (List.mem_of_mem_take hcell)
  have reaches := Cell.reaches_take margin adjoin hlast
  obtain ⟨text, rendered, wide, fits⟩ := Cell.length_renderAll orderly gluedTake reaches
  rw [Int.sub_zero] at wide fits
  exact ⟨text, rendered, wide, fits⟩

def overflowingRow : List Cell :=
  [⟨0, 4, [.chars ['a'], .glue [' '] 0]⟩, ⟨4, 6, [.chars ['b', 'c', 'd'], .glue ['-'] 0]⟩]

theorem blocks_reach_tab_stops_overflowing :
    blocksTerm (.atom "a~t~4|bcd~\x60-t~2+".toList) (.list []) =
        .ok ([] ++ overflowingRow.map .cell ++ []) ∧
      ∃ text, Block.renderAll (overflowingRow.map .cell) = .ok text ∧ 6 ≤ (text.length : Int) ∧
        ((text.length : Int) = 6 ↔
          ∀ cell ∈ overflowingRow, (cell.length : Int) ≤ cell.stop - cell.start) := by
  have h : blocksTerm (.atom "a~t~4|bcd~\x60-t~2+".toList) (.list []) =
      .ok ([] ++ overflowingRow.map .cell ++ []) := by
    cbv
  have margin : ∀ cell ∈ overflowingRow.head?, cell.start = 0 := by decide
  have adjoin : overflowingRow.IsChain fun left right => right.start = left.stop := by
    simp [overflowingRow]
  have glued : ∀ cell ∈ overflowingRow, 0 < cell.glueCount := by decide
  exact ⟨h, blocks_reach_tab_stops h margin adjoin glued 1 _ rfl⟩

end Control

end LogicFormat
