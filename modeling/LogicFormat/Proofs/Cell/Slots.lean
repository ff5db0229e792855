import LogicFormat.Cell.Builder
import LogicFormat.Cell.Basic
import Mathlib.Algebra.GroupWithZero.Nat

/-!
# Slots of glue

In every cell that a builder closes, glue is numbered from zero on. Each piece of glue therefore
finds its width, a cell is always rendered, and its widths fill up exactly the space that its text
leaves free. This holds of a builder whatever is done to it.
-/

namespace LogicFormat

namespace Element

def slot? : Element → Option Int
  | .chars _ => none
  | .glue _ slot => some slot

/-- The glue among the elements has the slots `first`, `first + 1`, … from left to right. -/
def NumberedFrom (first : Nat) (elements : List Element) : Prop :=
  elements.filterMap slot? = (List.range' first (elements.countP isGlue)).map Int.ofNat

variable {P : Element → Prop} {first : Nat} {elements : List Element}

theorem numberedFrom_nil (first : Nat) : NumberedFrom first [] := rfl

theorem numberedFrom_chars {text : Text} :
    NumberedFrom first (.chars text :: elements) ↔ NumberedFrom first elements := Iff.rfl

theorem numberedFrom_glue {fill : Text} {slot : Int} :
    NumberedFrom first (.glue fill slot :: elements) ↔
      slot = first ∧ NumberedFrom (first + 1) elements := by
  have count : (Element.glue fill slot :: elements).countP isGlue = elements.countP isGlue + 1 :=
    List.countP_cons_of_pos rfl
  simp [NumberedFrom, slot?, count, List.range'_succ]

theorem NumberedFrom.append_chars (h : NumberedFrom first elements) (text : Text) :
    NumberedFrom first (elements ++ [Element.chars text]) := by
  have count : (elements ++ [Element.chars text]).countP isGlue = elements.countP isGlue := by
    rw [List.countP_append]
    rfl
  rw [NumberedFrom, count, List.filterMap_append, h]
  exact List.append_nil _

theorem NumberedFrom.append_glue (h : NumberedFrom 0 elements) (fill : Text) :
    NumberedFrom 0 (elements ++ [.glue fill (elements.countP isGlue : Nat)]) := by
  have count : (elements ++ [Element.glue fill (elements.countP isGlue : Nat)]).countP isGlue =
      elements.countP isGlue + 1 := by
    rw [List.countP_append]
    rfl
  rw [NumberedFrom, count, List.filterMap_append, h, List.range'_concat, List.map_append]
  simp [slot?]

/-- The elements of one cell, in the order in which a builder collects them. -/
structure Orderly (P : Element → Prop) (elements : List Element) : Prop where
  each : ∀ element ∈ elements, P element
  numbered : NumberedFrom 0 elements

end Element

namespace Builder

open Element

/-- Everything in the builder is in order: the elements satisfy `P`, the glue of the open cell and
of each closed one is numbered from zero, and no closed cell is empty. -/
structure Orderly (P : Element → Prop) (b : Builder) : Prop where
  opened : Element.Orderly P b.elements
  count : b.glueCount = b.elements.countP isGlue
  closed : ∀ cell, .cell cell ∈ b.blocks → cell.elements ≠ [] ∧ Element.Orderly P cell.elements

end Builder

def Operation.Supplies (P : Element → Prop) : Operation → Prop
  | .chars text => text ≠ [] → P (.chars text)
  | .glue fill => ∀ slot, P (.glue fill slot)
  | _ => True

namespace Builder.Orderly

open Element

variable {P : Element → Prop} {b : Builder}

theorem empty : Builder.empty.Orderly P :=
  ⟨⟨nofun, numberedFrom_nil 0⟩, rfl, nofun⟩

theorem chars (h : b.Orderly P) {text : Text} (supplied : text ≠ [] → P (.chars text)) :
    (b.chars text).Orderly P := by
  unfold Builder.chars
  split
  · exact h
  · next nonempty =>
      refine ⟨⟨?_, h.opened.numbered.append_chars text⟩, ?_, h.closed⟩
      · rw [List.forall_mem_append, List.forall_mem_singleton]
        exact ⟨h.opened.each, supplied nonempty⟩
      · rw [List.countP_append, h.count]
        rfl

theorem glue (h : b.Orderly P) {fill : Text} (supplied : ∀ slot, P (.glue fill slot)) :
    (b.glue fill).Orderly P := by
  refine ⟨⟨?_, ?_⟩, ?_, h.closed⟩
  · show ∀ element ∈ b.elements ++ [.glue fill b.glueCount], P element
    rw [List.forall_mem_append, List.forall_mem_singleton]
    exact ⟨h.opened.each, supplied _⟩
  · show NumberedFrom 0 (b.elements ++ [.glue fill b.glueCount])
    rw [h.count]
    exact h.opened.numbered.append_glue fill
  · show b.glueCount + 1 = (b.elements ++ [Element.glue fill b.glueCount]).countP isGlue
    rw [List.countP_append, h.count]
    rfl

theorem close (h : b.Orderly P) (stop : Int) : (b.close stop).Orderly P := by
  refine ⟨⟨nofun, numberedFrom_nil 0⟩, rfl, ?_⟩
  intro cell hcell
  rcases List.mem_append.mp hcell with earlier | last
  · exact h.closed cell earlier
  · unfold closedBlocks at last
    split at last
    · exact nomatch last
    · next nonempty =>
        cases List.mem_singleton.mp last
        exact ⟨nonempty, h.opened⟩

theorem column (h : b.Orderly P) (n : Int) : (b.column n).Orderly P :=
  ⟨(h.close n).opened, (h.close n).count, (h.close n).closed⟩

theorem newlines (h : b.Orderly P) (n : Int) : (b.newlines n).Orderly P := by
  have closed := h.close b.tab
  refine ⟨closed.opened, closed.count, ?_⟩
  intro cell hcell
  rcases List.mem_append.mp hcell with earlier | added
  · exact closed.closed cell earlier
  · exact nomatch (List.mem_replicate.mp added).2

theorem perform (h : b.Orderly P) {operation : Operation} (supplied : operation.Supplies P) :
    (b.perform operation).Orderly P := by
  cases operation with
  | chars text => exact h.chars supplied
  | glue fill => exact h.glue supplied
  | close stop => exact h.close stop
  | column n => exact h.column n
  | relativeColumn n => exact h.column (b.tab + n)
  | newlines n => exact h.newlines n
  | finish => exact h.close b.tab

theorem performAll (h : b.Orderly P) {operations : List Operation}
    (supplied : ∀ operation ∈ operations, operation.Supplies P) :
    (b.performAll operations).Orderly P := by
  induction operations generalizing b with
  | nil => exact h
  | cons operation operations ih =>
      rw [List.forall_mem_cons] at supplied
      exact ih (h.perform supplied.1) supplied.2

end Builder.Orderly

/-! ## Rendering -/

namespace Element

/-- Whether the element is as wide as it is told to be: a fill has one character. -/
def Exact : Element → Prop
  | .chars _ => True
  | .glue fill _ => fill.length = 1

theorem slotWidth?_append (before : List Nat) (width : Nat) (after : List Nat) :
    slotWidth? (before ++ width :: after) before.length = some width := by
  rw [slotWidth?, if_pos (Int.natCast_nonneg _), Int.toNat_natCast,
    List.getElem?_append_right (Nat.le_refl _), Nat.sub_self]
  rfl

/-- Elements whose glue is numbered behind some widths are rendered with the widths that follow. -/
theorem renderAll_of_numbered {elements : List Element} {before widths : List Nat}
    (numbered : NumberedFrom before.length elements)
    (enough : widths.length = elements.countP isGlue) :
    ∃ text, renderAll (before ++ widths) elements = .ok text ∧
      ((∀ element ∈ elements, element.Exact) →
        text.length = totalLength elements + widths.sum) := by
  induction elements generalizing before widths with
  | nil =>
      refine ⟨[], rfl, fun _ => ?_⟩
      rw [List.eq_nil_of_length_eq_zero enough]
      rfl
  | cons element rest ih =>
      cases element with
      | chars shown =>
          obtain ⟨text, rendered, length⟩ := ih (numberedFrom_chars.mp numbered) enough
          refine ⟨shown ++ text, ?_, ?_⟩
          · rw [renderAll, rendered]
            rfl
          · intro exactly
            rw [List.length_append, length fun e he => exactly e (List.mem_cons_of_mem _ he),
              totalLength, Element.length, Nat.add_assoc]
      | glue fill slot =>
          obtain ⟨rfl, others⟩ := numberedFrom_glue.mp numbered
          rw [List.countP_cons_of_pos rfl] at enough
          obtain ⟨width, widths, rfl⟩ := List.exists_cons_of_length_eq_add_one enough
          have next : NumberedFrom (before ++ [width]).length rest := by
            rw [List.length_append]
            exact others
          obtain ⟨text, rendered, length⟩ := ih next (Nat.succ.inj enough)
          refine ⟨(List.replicate width fill).flatten ++ text, ?_, ?_⟩
          · rw [List.append_assoc, List.singleton_append] at rendered
            rw [renderAll, rendered, render, slotWidth?_append]
            rfl
          · intro exactly
            rw [List.forall_mem_cons] at exactly
            have one : fill.length = 1 := exactly.1
            have stretched : (List.replicate width fill).flatten.length = width := by
              rw [List.length_flatten, List.map_replicate, List.sum_replicate_nat, one, Nat.mul_one]
            rw [List.length_append, stretched, length exactly.2, totalLength, Element.length,
              List.sum_cons]
            omega

end Element

namespace Cell

/-- The widths of a cell fill up the space that its text leaves free. -/
theorem sum_widths {cell : Cell} (glued : 0 < cell.glueCount) : cell.widths.sum = cell.space := by
  unfold widths
  split
  · next none => omega
  · next n _ =>
      have divided := Nat.div_add_mod cell.space (n + 1)
      rw [Nat.succ_mul] at divided
      rw [List.sum_append_nat, List.sum_replicate_nat, List.sum_singleton]
      omega

theorem render_of_numbered {cell : Cell} (numbered : Element.NumberedFrom 0 cell.elements) :
    ∃ text, cell.render = .ok text ∧
      ((∀ element ∈ cell.elements, element.Exact) →
        text.length = cell.length + cell.widths.sum) := by
  have numberedBehind : Element.NumberedFrom ([] : List Nat).length cell.elements := numbered
  exact Element.renderAll_of_numbered numberedBehind cell.length_widths

end Cell

theorem Block.renderAll_of_numbered {blocks : List Block}
    (numbered : ∀ cell, .cell cell ∈ blocks → Element.NumberedFrom 0 cell.elements) :
    ∃ text, renderAll blocks = .ok text := by
  induction blocks with
  | nil => exact ⟨[], rfl⟩
  | cons block rest ih =>
      obtain ⟨others, rendered⟩ := ih fun cell h => numbered cell (List.mem_cons_of_mem _ h)
      cases block with
      | newline => exact ⟨_, by rw [renderAll, rendered]; rfl⟩
      | cell cell =>
          obtain ⟨text, first, -⟩ := Cell.render_of_numbered (numbered cell List.mem_cons_self)
          exact ⟨_, by rw [renderAll, render, first, rendered]; rfl⟩

/-! ## Reachable builders -/

/-- Whether there is something to show: a text has characters, and glue may stretch. -/
def Element.Shown : Element → Prop
  | .chars text => text ≠ []
  | .glue _ _ => True

namespace Builder

open Element

theorem supplies_shown (operation : Operation) : operation.Supplies Shown := by
  cases operation with
  | chars text => exact id
  | glue fill => exact fun _ => trivial
  | _ => trivial

/-- Whatever is done to an empty builder, the open glue is counted and numbered from zero, and so is
the glue of every closed cell, of which none is empty; there is no empty text; and the closed blocks
are rendered without a fault. -/
theorem performAll_numbered (operations : List Operation) :
    let b := Builder.empty.performAll operations
    b.glueCount = b.elements.countP isGlue ∧
    b.elements.filterMap slot? = (List.range b.glueCount).map Int.ofNat ∧
    (∀ cell, .cell cell ∈ b.blocks → cell.elements ≠ [] ∧
      cell.elements.filterMap slot? = (List.range cell.widths.length).map Int.ofNat) ∧
    (∀ text, .chars text ∈ b.elements → text ≠ []) ∧
    (∀ cell text, .cell cell ∈ b.blocks → .chars text ∈ cell.elements → text ≠ []) ∧
    ∃ text, Block.renderAll b.blocks = .ok text := by
  intro b
  have orderly : b.Orderly Shown :=
    Orderly.empty.performAll fun operation _ => supplies_shown operation
  refine ⟨orderly.count, ?_, ?_, ?_, ?_, ?_⟩
  · rw [orderly.count, List.range_eq_range']
    exact orderly.opened.numbered
  · intro cell hcell
    obtain ⟨nonempty, closed⟩ := orderly.closed cell hcell
    rw [cell.length_widths, List.range_eq_range']
    exact ⟨nonempty, closed.numbered⟩
  · exact fun text htext => orderly.opened.each _ htext
  · exact fun cell text hcell htext => (orderly.closed cell hcell).2.each _ htext
  · exact Block.renderAll_of_numbered fun cell hcell => (orderly.closed cell hcell).2.numbered

end Builder

end LogicFormat
