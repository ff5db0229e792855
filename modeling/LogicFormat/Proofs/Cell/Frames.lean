import LogicFormat.Cell.Builder
import Mathlib.Data.List.Forall2

/-!
# The frame of a page

The frame of a page is what is left of it without its texts: the newlines, and the tab stops and the
glue of the cells that have glue. Texts are put into a builder without a change to the frame, so
operations that differ in texts only build pages of one frame.
-/

namespace LogicFormat

/-- A newline, or a cell with its tab stops and the fills and slots of its glue. -/
inductive Frame where
  | cell (start stop : Int) (glue : List (Text × Int))
  | newline
  deriving DecidableEq

def Element.glue? : Element → Option (Text × Int)
  | .chars _ => none
  | .glue fill slot => some (fill, slot)

/-- A cell without glue has no frame. -/
def Block.frame? : Block → Option Frame
  | .cell c =>
      if 0 < c.glueCount then some (.cell c.start c.stop (c.elements.filterMap Element.glue?))
      else none
  | .newline => some .newline

def Block.frames (blocks : List Block) : List Frame := blocks.filterMap frame?

theorem Block.frames_append (first second : List Block) :
    frames (first ++ second) = frames first ++ frames second :=
  List.filterMap_append ..

theorem Element.countP_isGlue (elements : List Element) :
    elements.countP isGlue = (elements.filterMap glue?).length := by
  induction elements with
  | nil => rfl
  | cons element rest ih =>
      cases element with
      | chars text => exact ih
      | glue fill slot =>
          rw [List.countP_cons_of_pos rfl, ih]
          rfl

/-- Operations that put in the same things, texts aside. -/
inductive Operation.Alike : Operation → Operation → Prop where
  | chars (one two : Text) : Alike (.chars one) (.chars two)
  | refl (operation : Operation) : Alike operation operation

namespace Builder

/-- Builders that differ in texts, and in cells without glue, only. -/
structure Alike (one two : Builder) : Prop where
  tab : one.tab = two.tab
  glueCount : one.glueCount = two.glueCount
  glued : one.elements.filterMap Element.glue? = two.elements.filterMap Element.glue?
  frames : Block.frames one.blocks = Block.frames two.blocks

/-- A cell is closed into a frame if glue has been put into it. -/
theorem frames_closedBlocks (b : Builder) (stop : Int) :
    Block.frames (b.closedBlocks stop) =
      if b.elements.filterMap Element.glue? = [] then []
      else [.cell b.tab stop (b.elements.filterMap Element.glue?)] := by
  have closed : Block.frame? (.cell ⟨b.tab, stop, b.elements⟩) =
      if b.elements.filterMap Element.glue? = [] then none
      else some (.cell b.tab stop (b.elements.filterMap Element.glue?)) := by
    rw [Block.frame?, Cell.glueCount, Element.countP_isGlue]
    cases b.elements.filterMap Element.glue? <;> rfl
  unfold closedBlocks
  by_cases empty : b.elements = []
  · rw [if_pos empty, empty]
    rfl
  · rw [if_neg empty, Block.frames, List.filterMap_cons, closed]
    by_cases textOnly : b.elements.filterMap Element.glue? = []
    · rw [if_pos textOnly, if_pos textOnly]
      rfl
    · rw [if_neg textOnly, if_neg textOnly]
      rfl

namespace Alike

variable {one two : Builder}

theorem refl (b : Builder) : b.Alike b := ⟨rfl, rfl, rfl, rfl⟩

theorem glue_chars (b : Builder) (text : Text) :
    (b.chars text).elements.filterMap Element.glue? = b.elements.filterMap Element.glue? := by
  unfold chars
  split
  · rfl
  · exact List.filterMap_append.trans (List.append_nil _)

theorem chars (h : one.Alike two) (left right : Text) :
    (one.chars left).Alike (two.chars right) := by
  refine ⟨?_, ?_, ?_, ?_⟩
  · rw [tab_chars, tab_chars, h.tab]
  · rw [glueCount_chars, glueCount_chars, h.glueCount]
  · rw [glue_chars, glue_chars, h.glued]
  · rw [blocks_chars, blocks_chars, h.frames]

theorem glue (h : one.Alike two) (fill : Text) : (one.glue fill).Alike (two.glue fill) := by
  refine ⟨h.tab, congrArg (· + 1) h.glueCount, ?_, h.frames⟩
  show (one.elements ++ [_]).filterMap Element.glue? = (two.elements ++ [_]).filterMap Element.glue?
  rw [List.filterMap_append, List.filterMap_append, h.glued, h.glueCount]

theorem close (h : one.Alike two) (stop : Int) : (one.close stop).Alike (two.close stop) := by
  refine ⟨h.tab, rfl, rfl, ?_⟩
  show Block.frames (one.blocks ++ _) = Block.frames (two.blocks ++ _)
  rw [Block.frames_append, Block.frames_append, frames_closedBlocks, frames_closedBlocks, h.frames,
    h.glued, h.tab]

theorem column (h : one.Alike two) (n : Int) : (one.column n).Alike (two.column n) :=
  ⟨rfl, rfl, rfl, (h.close n).frames⟩

theorem newlines (h : one.Alike two) (n : Int) : (one.newlines n).Alike (two.newlines n) := by
  refine ⟨rfl, rfl, rfl, ?_⟩
  have closed :
      Block.frames (one.close one.tab).blocks = Block.frames (two.close two.tab).blocks := by
    rw [h.tab]
    exact (h.close two.tab).frames
  show Block.frames ((one.close one.tab).blocks ++ _) =
    Block.frames ((two.close two.tab).blocks ++ _)
  rw [Block.frames_append, Block.frames_append, closed]

theorem finish (h : one.Alike two) : one.finish.Alike two.finish := by
  unfold Builder.finish
  rw [h.tab]
  exact h.close two.tab

theorem perform (h : one.Alike two) {left right : Operation} (alike : left.Alike right) :
    (one.perform left).Alike (two.perform right) := by
  cases alike with
  | chars left right => exact h.chars left right
  | refl =>
      cases left with
      | chars text => exact h.chars text text
      | glue fill => exact h.glue fill
      | close stop => exact h.close stop
      | column n => exact h.column n
      | relativeColumn n =>
          show (one.column (one.tab + n)).Alike (two.column (two.tab + n))
          rw [h.tab]
          exact h.column _
      | newlines n => exact h.newlines n
      | finish => exact h.finish

theorem performAll (h : one.Alike two) {left right : List Operation}
    (alike : List.Forall₂ Operation.Alike left right) :
    (one.performAll left).Alike (two.performAll right) := by
  induction alike generalizing one two with
  | nil => exact h
  | cons first _ ih => exact ih (h.perform first)

end Alike

end Builder

end LogicFormat
