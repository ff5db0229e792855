import LogicFormat.Cell.Builder
import LogicFormat.Cell.Basic

/-!
# Lines are built independently

The blocks closed so far are never looked at again, and a newline takes everything else in a
builder back to its start. What is built behind a newline is therefore what would be built on an
empty page.
-/

namespace LogicFormat

namespace Builder

def behind (b : Builder) (earlier : List Block) : Builder :=
  { b with blocks := earlier ++ b.blocks }

theorem close_behind (b : Builder) (earlier : List Block) (stop : Int) :
    (b.behind earlier).close stop = (b.close stop).behind earlier :=
  congrArg (Builder.mk b.tab [] 0) (List.append_assoc ..)

theorem column_behind (b : Builder) (earlier : List Block) (n : Int) :
    (b.behind earlier).column n = (b.column n).behind earlier :=
  congrArg (fun closed : Builder => { closed with tab := n }) (close_behind b earlier n)

theorem newlines_behind (b : Builder) (earlier : List Block) (n : Int) :
    (b.behind earlier).newlines n = (b.newlines n).behind earlier := by
  have blocks := congrArg (· ++ List.replicate n.toNat Block.newline)
    (List.append_assoc earlier b.blocks (b.closedBlocks b.tab))
  exact congrArg (Builder.mk 0 [] 0) (blocks.trans (List.append_assoc ..))

theorem perform_behind (b : Builder) (earlier : List Block) (operation : Operation) :
    (b.behind earlier).perform operation = (b.perform operation).behind earlier := by
  cases operation with
  | chars text =>
      by_cases h : text = []
      · simp [perform, chars, h]
      · simp [perform, chars, h, behind]
  | glue fill => rfl
  | close stop => exact close_behind b earlier stop
  | column n => exact column_behind b earlier n
  | relativeColumn n => exact column_behind b earlier (b.tab + n)
  | newlines n => exact newlines_behind b earlier n
  | finish => exact close_behind b earlier b.tab

theorem performAll_behind (b : Builder) (earlier : List Block) (operations : List Operation) :
    (b.behind earlier).performAll operations = (b.performAll operations).behind earlier := by
  induction operations generalizing b with
  | nil => rfl
  | cons operation operations ih =>
      rw [performAll_cons, performAll_cons, perform_behind, ih]

/-- Of a builder that starts new lines only its blocks are left. -/
theorem newlines_eq_behind (b : Builder) (n : Int) :
    b.newlines n = empty.behind (b.finish.blocks ++ List.replicate n.toNat .newline) := by
  simp [newlines, finish, close, behind, empty]

/-- The blocks that some operations leave on an empty page. -/
def built (operations : List Operation) : List Block := (empty.performAll operations).finish.blocks

theorem built_newlines (first second : List Operation) (n : Int) :
    built (first ++ .newlines n :: second) =
      built first ++ List.replicate n.toNat .newline ++ built second := by
  have restart : (empty.performAll first).perform (.newlines n) =
      empty.behind (built first ++ List.replicate n.toNat .newline) :=
    newlines_eq_behind _ n
  rw [built, performAll_append, performAll_cons, restart, performAll_behind]
  exact congrArg Builder.blocks (close_behind _ _ _)

end Builder

namespace Block

theorem renderAll_newlines_one (first second : List Operation) :
    renderAll (Builder.built (first ++ .newlines 1 :: second)) =
      renderAll (Builder.built first) >>= fun text =>
        renderAll (Builder.built second) >>= fun others => .ok (text ++ '\n' :: others) := by
  rw [Builder.built_newlines, List.append_assoc, renderAll_append]
  cases renderAll (Builder.built first) with
  | error fault => rfl
  | ok text =>
      have newline : renderAll (List.replicate (1 : Int).toNat .newline ++ Builder.built second) =
          renderAll (Builder.built second) >>= fun others => .ok ('\n' :: others) := rfl
      rw [newline]
      cases renderAll (Builder.built second) with
      | error fault => rfl
      | ok others => rfl

end Block

end LogicFormat
