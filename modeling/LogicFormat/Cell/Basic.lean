import LogicFormat.Fault

/-!
# Cells

A cell is what stands between two tab stops: fixed text, and glue that stretches to fill the
space the text leaves. Each piece of glue has a slot, under which its width is found once the
whole cell is known. A line is a row of cells; a page is rows of cells with newlines between
them.

The free space of a cell is shared out evenly among its glue, and what cannot be shared goes
to the last piece. Glue is then replaced by its fill, repeated to its width.
-/

namespace LogicFormat

inductive Element where
  | chars (text : Text)
  | glue (fill : Text) (slot : Int)
  deriving DecidableEq

/-- The elements between the tab stops at the columns `start` and `stop`. -/
structure Cell where
  start : Int
  stop : Int
  elements : List Element
  deriving DecidableEq

inductive Block where
  | cell (cell : Cell)
  | newline
  deriving DecidableEq

namespace Element

def isGlue : Element → Bool
  | .chars _ => false
  | .glue _ _ => true

/-- The length of fixed text; glue has none of its own. -/
def length : Element → Nat
  | .chars text => text.length
  | .glue _ _ => 0

def totalLength : List Element → Nat
  | [] => 0
  | element :: rest => element.length + totalLength rest

@[simp] theorem totalLength_append (first second : List Element) :
    totalLength (first ++ second) = totalLength first + totalLength second := by
  induction first with
  | nil => simp [totalLength]
  | cons element rest ih => simp [totalLength, ih, Nat.add_assoc]

def display : Element → Text
  | .chars text => "Chars(text=" ++ text.display ++ ")"
  | .glue fill slot =>
      "Glue(fill=" ++ fill.display ++ ", slot=" ++ Numeral.ofInt slot ++ ")"

end Element

namespace Cell

def length (cell : Cell) : Nat := Element.totalLength cell.elements

def glueCount (cell : Cell) : Nat := cell.elements.countP Element.isGlue

/-- The columns that the fixed text leaves free, none if it overflows the cell. -/
def space (cell : Cell) : Nat := (cell.stop - cell.start - cell.length).toNat

def display (cell : Cell) : Text :=
  "Cell(" ++ Text.listed [Numeral.ofInt cell.start, Numeral.ofInt cell.stop,
    "[" ++ Text.listed (cell.elements.map Element.display) ++ "]"] ++ ")"

end Cell

def Block.display : Block → Text
  | .cell c => c.display
  | .newline => "NEWLINE"

/-! ## Rendering -/

namespace Cell

/-- One width for every piece of glue. -/
def widths (cell : Cell) : List Nat :=
  match cell.glueCount with
  | 0 => []
  | n + 1 =>
      List.replicate n (cell.space / (n + 1)) ++ [cell.space / (n + 1) + cell.space % (n + 1)]

theorem length_widths (cell : Cell) : cell.widths.length = cell.glueCount := by
  unfold widths
  split <;> simp_all

end Cell

/-- The width in a slot. Negative slots count from the end. -/
def slotWidth? (widths : List Nat) (slot : Int) : Option Nat :=
  if 0 ≤ slot then widths[slot.toNat]?
  else if -slot ≤ widths.length then widths[(widths.length + slot).toNat]?
  else none

def Element.render (widths : List Nat) : Element → Except Fault Text
  | .chars text => .ok text
  | .glue fill slot =>
      match slotWidth? widths slot with
      | some width => .ok (List.replicate width fill).flatten
      | none => .error .slotOutOfRange

def Element.renderAll (widths : List Nat) : List Element → Except Fault Text
  | [] => .ok []
  | element :: rest => do
      let text ← element.render widths
      let others ← renderAll widths rest
      return text ++ others

def Cell.render (cell : Cell) : Except Fault Text := Element.renderAll cell.widths cell.elements

namespace Block

def render : Block → Except Fault Text
  | .cell c => c.render
  | .newline => .ok ['\n']

def renderAll : List Block → Except Fault Text
  | [] => .ok []
  | block :: rest => do
      let text ← block.render
      let others ← renderAll rest
      return text ++ others

theorem renderAll_append (first second : List Block) :
    renderAll (first ++ second) = do
      let text ← renderAll first
      let others ← renderAll second
      return text ++ others := by
  induction first with
  | nil =>
      rw [List.nil_append, renderAll]
      cases renderAll second <;> rfl
  | cons block rest ih =>
      rw [List.cons_append, renderAll, renderAll, ih]
      cases block.render with
      | error fault => rfl
      | ok text =>
          cases renderAll rest with
          | error fault => rfl
          | ok others =>
              cases renderAll second with
              | error fault => rfl
              | ok more => simp [bind, Except.bind, pure, Except.pure]

end Block

end LogicFormat
