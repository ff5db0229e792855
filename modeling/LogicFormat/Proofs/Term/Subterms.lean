import LogicFormat.Term.Subterms
import Mathlib.Data.List.Basic

/-!
# The search of a term

The search with a list of pending terms meets what recursion over the terms meets, in the same
order. It is a loop on a stack, whose top is at its end: each turn takes the top off, meets it and
pushes its children, the last one first. It stops after one turn for each node of the term, and
meets the subterms in preorder. In terms of places, it meets what stands at the paths into the term,
in lexicographic order and each path once.
-/

namespace LogicFormat

namespace Term

theorem preorder_eq_cons (t : Term) : t.preorder = t :: preorderAll t.children := by
  cases t <;> simp [preorder, preorderAll, children]

theorem preorderAll_append (ts us : List Term) :
    preorderAll (ts ++ us) = preorderAll ts ++ preorderAll us := by
  induction ts with
  | nil => rfl
  | cons t ts ih => rw [List.cons_append, preorderAll, preorderAll, ih, List.append_assoc]

theorem preorderAll_eq_flatMap (ts : List Term) : preorderAll ts = ts.flatMap preorder := by
  induction ts with
  | nil => rfl
  | cons t ts ih => rw [preorderAll, ih, List.flatMap_cons]

theorem visit_eq_preorderAll (pending : List Term) : visit pending = preorderAll pending := by
  induction pending using visit.induct with
  | case1 => rw [visit, preorderAll]
  | case2 t pending ih =>
      rw [visit, ih, preorderAll_append, preorderAll, preorder_eq_cons, List.cons_append]

theorem subterms_eq_preorder (t : Term) : t.subterms = t.preorder := by
  rw [subterms, visit_eq_preorderAll, preorderAll, preorderAll, List.append_nil]

theorem mem_subterms {s t : Term} : s ∈ t.subterms ↔ s ∈ t.preorder := by
  rw [subterms_eq_preorder]

theorem null_not_mem_pair {name : Text} {first second : Term} :
    .null ∉ (compound name first [second]).preorder ↔
      .null ∉ first.preorder ∧ .null ∉ second.preorder := by
  simp [preorder, preorderAll]

/-! ## Children -/

theorem size_eq_children (t : Term) : t.size = totalSize t.children + 1 := by
  cases t <;> simp [size, children]

theorem size_le_totalSize {t : Term} {ts : List Term} (member : t ∈ ts) :
    t.size ≤ totalSize ts := by
  induction member with
  | head => exact Nat.le_add_right _ _
  | tail _ _ ih => exact Nat.le_trans ih (Nat.le_add_left _ _)

theorem size_lt_of_child {t child : Term} (member : child ∈ t.children) : child.size < t.size := by
  rw [t.size_eq_children]
  exact Nat.lt_succ_of_le (size_le_totalSize member)

theorem children_induction {motive : Term → Prop}
    (step : ∀ t : Term, (∀ child ∈ t.children, motive child) → motive t) (t : Term) : motive t :=
  step t fun child member =>
    have := size_lt_of_child member
    children_induction step child
termination_by t.size

theorem length_preorder (t : Term) : t.preorder.length = t.size := by
  have all (ts : List Term) (each : ∀ t ∈ ts, t.preorder.length = t.size) :
      (preorderAll ts).length = totalSize ts := by
    induction ts with
    | nil => rfl
    | cons t ts ih =>
        rw [List.forall_mem_cons] at each
        rw [preorderAll, List.length_append, each.1, ih each.2, totalSize_cons]
  induction t using children_induction with
  | step t ih => rw [preorder_eq_cons, List.length_cons, all _ ih, size_eq_children]

/-! ## Turns of the loop -/

theorem totalSize_reverse (ts : List Term) : totalSize ts.reverse = totalSize ts := by
  induction ts with
  | nil => rfl
  | cons t ts ih => simp [ih, Nat.add_comm]

/-- The terms met so far, and the stack of those still to visit. -/
structure Search where
  met : List Term
  stack : List Term

namespace Search

def start (t : Term) : Search := ⟨[], [t]⟩

/-- One turn of the loop, unless the stack is empty. -/
def turn? (search : Search) : Option Search :=
  search.stack.getLast?.map fun top =>
    ⟨search.met ++ [top], search.stack.dropLast ++ top.children.reverse⟩

/-- The search after `n` turns, if it takes as many. -/
def after? : Nat → Search → Option Search
  | 0, search => some search
  | n + 1, search => search.turn?.bind (after? n)

/-- What recursion would still meet. -/
def ahead (search : Search) : List Term := preorderAll search.stack.reverse

theorem turn?_concat (met rest : List Term) (top : Term) :
    (⟨met, rest ++ [top]⟩ : Search).turn? =
      some ⟨met ++ [top], rest ++ top.children.reverse⟩ := by
  simp [turn?]

/-- A turn takes one term from what is ahead to what is met, and one node from the stack. -/
theorem turn?_spec {search next : Search} (h : search.turn? = some next) :
    ∃ top, next.met = search.met ++ [top] ∧ search.ahead = top :: next.ahead ∧
      totalSize search.stack = totalSize next.stack + 1 := by
  obtain ⟨met, stack⟩ := search
  rcases List.eq_nil_or_concat' stack with rfl | ⟨rest, top, rfl⟩
  · cases h
  · rw [turn?_concat] at h
    cases h
    refine ⟨top, rfl, ?_, ?_⟩
    · show preorderAll (rest ++ [top]).reverse =
        top :: preorderAll (rest ++ top.children.reverse).reverse
      rw [List.reverse_append, List.reverse_append, List.reverse_reverse, List.reverse_singleton,
        List.singleton_append, preorderAll, preorder_eq_cons, preorderAll_append, List.cons_append]
    · show totalSize (rest ++ [top]) = totalSize (rest ++ top.children.reverse) + 1
      rw [totalSize_append, totalSize_append, totalSize_reverse, totalSize_cons, totalSize_nil,
        size_eq_children]
      rfl

theorem turn?_eq_none {search : Search} : search.turn? = none ↔ search.stack = [] := by
  simp [turn?]

/-- A search takes one turn for each node on its stack, and meets what is ahead one by one. -/
theorem met_after? (n : Nat) (search : Search) :
    (search.after? n).map met =
      if n ≤ totalSize search.stack then some (search.met ++ search.ahead.take n) else none := by
  induction n generalizing search with
  | zero => simp [after?]
  | succ n ih =>
      cases h : search.turn? with
      | none =>
          have empty : totalSize search.stack = 0 := by rw [turn?_eq_none.mp h, totalSize_nil]
          rw [after?, h, empty]
          rfl
      | some next =>
          obtain ⟨top, met, ahead, size⟩ := turn?_spec h
          rw [after?, h, Option.bind_some, ih, met, ahead, size]
          simp

end Search

/-! ## Places -/

/-- What stands in the term at the end of a path, which says child by child where to go down. -/
def at? (t : Term) : List Nat → Option Term
  | [] => some t
  | i :: path => t.children[i]?.bind (at? · path)

mutual

/-- The paths into a term, to the parents before the children and to the left before the right. -/
def paths : Term → List (List Nat)
  | .list items => [] :: pathsFrom 0 items
  | .tuple items => [] :: pathsFrom 0 items
  | .compound _ first others => [] :: ((paths first).map (0 :: ·) ++ pathsFrom 1 others)
  | _ => [[]]

def pathsFrom (i : Nat) : List Term → List (List Nat)
  | [] => []
  | t :: ts => (paths t).map (i :: ·) ++ pathsFrom (i + 1) ts

end

theorem paths_eq_cons (t : Term) : t.paths = [] :: pathsFrom 0 t.children := by
  cases t <;> simp [paths, pathsFrom, children]

theorem mem_pathsFrom {ts : List Term} {i : Nat} {path : List Nat} :
    path ∈ pathsFrom i ts ↔
      ∃ k t rest, ts[k]? = some t ∧ rest ∈ t.paths ∧ path = (i + k) :: rest := by
  induction ts generalizing i with
  | nil => simp [pathsFrom]
  | cons t ts ih =>
      rw [pathsFrom, List.mem_append, List.mem_map, ih]
      constructor
      · rintro (⟨rest, member, rfl⟩ | ⟨k, s, rest, place, member, rfl⟩)
        · exact ⟨0, t, rest, rfl, member, rfl⟩
        · exact ⟨k + 1, s, rest, place, member, by rw [Nat.add_assoc, Nat.add_comm 1]⟩
      · rintro ⟨k, s, rest, place, member, rfl⟩
        cases k with
        | zero =>
            cases place
            exact .inl ⟨rest, member, rfl⟩
        | succ k => exact .inr ⟨k, s, rest, place, member, by rw [Nat.add_assoc, Nat.add_comm 1]⟩

theorem mem_paths {t : Term} {path : List Nat} : path ∈ t.paths ↔ (t.at? path).isSome := by
  induction path generalizing t with
  | nil => simp [paths_eq_cons, at?]
  | cons i path ih =>
      rw [paths_eq_cons, List.mem_cons, mem_pathsFrom, at?]
      cases place : t.children[i]? with
      | none => simp [place]
      | some child =>
          rw [Option.bind_some, ← ih]
          simp [place]

theorem pairwise_pathsFrom {ts : List Term} (each : ∀ t ∈ ts, t.paths.Pairwise (· < ·)) (i : Nat) :
    (pathsFrom i ts).Pairwise (· < ·) := by
  induction ts generalizing i with
  | nil => exact .nil
  | cons t ts ih =>
      rw [List.forall_mem_cons] at each
      refine List.pairwise_append.mpr ⟨?_, ih each.2 (i + 1), ?_⟩
      · exact List.pairwise_map.mpr (each.1.imp fun less => List.Lex.cons less)
      · intro one left two right
        obtain ⟨rest, -, rfl⟩ := List.mem_map.mp left
        obtain ⟨k, s, more, -, -, rfl⟩ := mem_pathsFrom.mp right
        exact List.Lex.rel (by omega)

theorem pairwise_paths (t : Term) : t.paths.Pairwise (· < ·) := by
  induction t using children_induction with
  | step t ih =>
      rw [paths_eq_cons]
      refine List.pairwise_cons.mpr ⟨fun path member => ?_, pairwise_pathsFrom ih 0⟩
      obtain ⟨k, s, rest, -, -, rfl⟩ := mem_pathsFrom.mp member
      exact List.Lex.nil

theorem map_pathsFrom {t : Term} {before ts : List Term} (split : t.children = before ++ ts)
    (each : ∀ child ∈ ts, child.paths.map child.at? = child.preorder.map some) :
    (pathsFrom before.length ts).map t.at? = (preorderAll ts).map some := by
  induction ts generalizing before with
  | nil => rfl
  | cons child ts ih =>
      rw [List.forall_mem_cons] at each
      have place : t.children[before.length]? = some child := by simp [split]
      have first : (child.paths.map (before.length :: ·)).map t.at? = child.preorder.map some := by
        rw [List.map_map, ← each.1]
        refine List.map_congr_left fun path _ => ?_
        show t.children[before.length]?.bind (at? · path) = child.at? path
        rw [place, Option.bind_some]
      have next : t.children = (before ++ [child]) ++ ts := by
        rw [split, List.append_assoc, List.singleton_append]
      have others := ih next each.2
      rw [List.length_append, List.length_singleton] at others
      rw [pathsFrom, List.map_append, first, others, preorderAll, List.map_append]

theorem map_paths (t : Term) : t.paths.map t.at? = t.preorder.map some := by
  induction t using children_induction with
  | step t ih =>
      have whole : t.children = [] ++ t.children := rfl
      have below : (pathsFrom 0 t.children).map t.at? = (preorderAll t.children).map some :=
        map_pathsFrom whole ih
      rw [paths_eq_cons, preorder_eq_cons, List.map_cons, List.map_cons, below]
      rfl

/-- The search ends, and meets the subterms in preorder: the term, then what it meets in each child
from left to right. The loop takes one turn for each of them and then stops. They are what stands at
the paths into the term, in lexicographic order, and so no place is met twice or left out. -/
theorem subterms_traversed (t : Term) :
    t.subterms = t.preorder ∧ t.preorder = t :: t.children.flatMap preorder ∧
      t.subterms.length = t.size ∧
      (∀ n, ((Search.start t).after? n).map Search.met =
        if n ≤ t.size then some (t.subterms.take n) else none) ∧
      t.subterms.map some = t.paths.map t.at? ∧ t.paths.Pairwise (· < ·) ∧
      ∀ path, path ∈ t.paths ↔ (t.at? path).isSome := by
  refine ⟨t.subterms_eq_preorder, ?_, ?_, fun n => ?_, ?_, t.pairwise_paths, fun path => mem_paths⟩
  · rw [preorder_eq_cons, preorderAll_eq_flatMap]
  · rw [subterms_eq_preorder, length_preorder]
  · have ahead : (Search.start t).ahead = t.subterms := (visit_eq_preorderAll [t]).symm
    rw [Search.met_after?, ahead]
    rfl
  · rw [subterms_eq_preorder, map_paths]

end Term

end LogicFormat
