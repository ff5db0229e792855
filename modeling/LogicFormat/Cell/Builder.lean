import LogicFormat.Cell.Basic

/-!
# Building cells

Text and glue collect in an open cell until a tab stop or a newline closes it. A cell without
elements leaves no trace. Glue is numbered from zero in every cell, and the first tab stop of
a line is column zero.
-/

namespace LogicFormat

structure Builder where
  /-- The tab stop at which the open cell starts. -/
  tab : Int
  /-- The elements of the open cell. -/
  elements : List Element
  glueCount : Nat
  /-- The blocks closed so far. -/
  blocks : List Block
  deriving DecidableEq

namespace Builder

def empty : Builder := ⟨0, [], 0, []⟩

def chars (b : Builder) (text : Text) : Builder :=
  if text = [] then b else { b with elements := b.elements ++ [.chars text] }

@[simp] theorem tab_chars (b : Builder) (text : Text) : (b.chars text).tab = b.tab := by
  unfold chars
  split <;> rfl

@[simp] theorem blocks_chars (b : Builder) (text : Text) : (b.chars text).blocks = b.blocks := by
  unfold chars
  split <;> rfl

@[simp] theorem glueCount_chars (b : Builder) (text : Text) :
    (b.chars text).glueCount = b.glueCount := by
  unfold chars
  split <;> rfl

def glue (b : Builder) (fill : Text) : Builder :=
  { b with
    elements := b.elements ++ [.glue fill b.glueCount]
    glueCount := b.glueCount + 1 }

def closedBlocks (b : Builder) (stop : Int) : List Block :=
  if b.elements = [] then [] else [.cell ⟨b.tab, stop, b.elements⟩]

def close (b : Builder) (stop : Int) : Builder :=
  { b with elements := [], glueCount := 0, blocks := b.blocks ++ b.closedBlocks stop }

def column (b : Builder) (n : Int) : Builder := { b.close n with tab := n }

def relativeColumn (b : Builder) (n : Int) : Builder := b.column (b.tab + n)

/-- Starts new lines. Even no new line ends the cell and takes the tab stop back to the margin. -/
def newlines (b : Builder) (n : Int) : Builder :=
  let closed := b.close b.tab
  { closed with tab := 0, blocks := closed.blocks ++ List.replicate n.toNat .newline }

/-- Ends the open cell at the tab stop at which it starts. -/
def finish (b : Builder) : Builder := b.close b.tab

end Builder

inductive Operation where
  | chars (text : Text)
  | glue (fill : Text)
  | close (stop : Int)
  | column (n : Int)
  | relativeColumn (n : Int)
  | newlines (n : Int)
  | finish
  deriving DecidableEq

namespace Builder

def perform (b : Builder) : Operation → Builder
  | .chars text => b.chars text
  | .glue fill => b.glue fill
  | .close stop => b.close stop
  | .column n => b.column n
  | .relativeColumn n => b.relativeColumn n
  | .newlines n => b.newlines n
  | .finish => b.finish

def performAll (b : Builder) (operations : List Operation) : Builder :=
  operations.foldl perform b

@[simp] theorem performAll_nil (b : Builder) : b.performAll [] = b := rfl

@[simp] theorem performAll_cons (b : Builder) (operation : Operation)
    (operations : List Operation) :
    b.performAll (operation :: operations) = (b.perform operation).performAll operations := rfl

theorem performAll_append (b : Builder) (first second : List Operation) :
    b.performAll (first ++ second) = (b.performAll first).performAll second :=
  List.foldl_append

end Builder

end LogicFormat
