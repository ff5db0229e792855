import LogicFormat.Text

/-!
# Texts that differ in the names of variables

Two texts are put together of the same characters, and of the names of the same variables in the
same order, each text by a naming of its own.
-/

namespace LogicFormat

/-- The lists have as many members, and each member has its share of the numbers. -/
inductive Shared {α : Type} (related : List Nat → α → α → Prop) :
    List Nat → List α → List α → Prop
  | nil : Shared related [] [] []
  | cons {ns ms : List Nat} {a b : α} {as bs : List α} (first : related ns a b)
      (rest : Shared related ms as bs) : Shared related (ns ++ ms) (a :: as) (b :: bs)

namespace Shared

variable {α β : Type} {related : List Nat → α → α → Prop} {other : List Nat → β → β → Prop}
  {ns : List Nat} {as bs : List α}

theorem map {change : α → β} (each : ∀ {ns a b}, related ns a b → other ns (change a) (change b))
    (h : Shared related ns as bs) : Shared other ns (as.map change) (bs.map change) := by
  induction h with
  | nil => exact .nil
  | cons first _ ih => exact .cons (each first) ih

theorem single {a b : α} (h : related ns a b) : Shared related ns [a] [b] := by
  simpa using cons h .nil

theorem isEmpty_eq (h : Shared related ns as bs) : as.isEmpty = bs.isEmpty := by
  cases h <;> rfl

end Shared

namespace Text

/-- The first text has the names that `f` gives to some variables, in the order in which they are
listed, where the second has the names that `g` gives to them, and nothing else tells them apart. -/
inductive Renamed (f g : Nat → Text) : List Nat → Text → Text → Prop
  | nil : Renamed f g [] [] []
  | char {ns : List Nat} {s t : Text} (c : Char) (rest : Renamed f g ns s t) :
      Renamed f g ns (c :: s) (c :: t)
  | name {ns : List Nat} {s t : Text} (n : Nat) (rest : Renamed f g ns s t) :
      Renamed f g (n :: ns) (f n ++ s) (g n ++ t)

namespace Renamed

variable {f g f' g' : Nat → Text} {ns ms : List Nat} {s t u v : Text} {ss ts : List Text}

theorem same (text : Text) : Renamed f g [] text text := by
  induction text with
  | nil => exact .nil
  | cons c _ ih => exact .char c ih

theorem single (n : Nat) : Renamed f g [n] (f n) (g n) := by
  simpa using Renamed.name (f := f) (g := g) n .nil

theorem append (front : Renamed f g ns s t) (back : Renamed f g ms u v) :
    Renamed f g (ns ++ ms) (s ++ u) (t ++ v) := by
  induction front with
  | nil => exact back
  | char c _ ih => exact .char c ih
  | name n _ ih =>
      rw [List.append_assoc, List.append_assoc]
      exact .name n ih

theorem before (text : Text) (h : Renamed f g ns s t) :
    Renamed f g ns (text ++ s) (text ++ t) := (same text).append h

theorem after (h : Renamed f g ns s t) (text : Text) :
    Renamed f g ns (s ++ text) (t ++ text) := by
  simpa using h.append (same text)

theorem intercalate (separator : Text) (h : Shared (Renamed f g) ns ss ts) :
    Renamed f g ns (separator.intercalate ss) (separator.intercalate ts) := by
  induction h with
  | nil => exact .nil
  | cons first rest ih =>
      cases rest with
      | nil => simpa using first
      | cons second rest =>
          rw [List.intercalate_cons_cons, List.intercalate_cons_cons, List.append_assoc,
            List.append_assoc]
          exact first.append (ih.before separator)

theorem congr (h : Renamed f g ns s t) (first : ∀ n ∈ ns, f n = f' n)
    (second : ∀ n ∈ ns, g n = g' n) : Renamed f' g' ns s t := by
  induction h with
  | nil => exact .nil
  | char c _ ih => exact .char c (ih first second)
  | name n _ ih =>
      rw [List.forall_mem_cons] at first second
      rw [first.1, second.1]
      exact .name n (ih first.2 second.2)

section Edges

variable {p : Char → Bool}

def Avoids (p : Char → Bool) (names : Nat → Text) : Prop :=
  ∀ n, names n ≠ [] ∧ ∀ c ∈ names n, p c = false

theorem Avoids.head {names : Nat → Text} (h : Avoids p names) (n : Nat) (rest : Text) :
    (names n ++ rest).head?.any p = false := by
  obtain ⟨nonempty, outside⟩ := h n
  obtain ⟨c, name, shown⟩ := List.exists_cons_of_ne_nil nonempty
  rw [shown]
  exact outside c (shown ▸ List.mem_cons_self)

theorem Avoids.last {names : Nat → Text} (h : Avoids p names) (n : Nat) :
    (names n).getLast?.any p = false := by
  obtain ⟨nonempty, outside⟩ := h n
  rw [List.getLast?_eq_some_getLast nonempty]
  exact outside _ (List.getLast_mem nonempty)

theorem last_append (front : Text) {back : Text} (nonempty : back ≠ []) :
    (front ++ back).getLast?.any p = back.getLast?.any p := by
  rw [List.getLast?_append, List.getLast?_eq_some_getLast nonempty, Option.some_or]

variable (first : Avoids p f) (second : Avoids p g)

include first second

theorem head_any (h : Renamed f g ns s t) : s.head?.any p = t.head?.any p := by
  cases h with
  | nil => rfl
  | char c rest => rfl
  | name n rest => rw [first.head, second.head]

theorem eq_nil_iff (h : Renamed f g ns s t) : s = [] ↔ t = [] := by
  cases h with
  | nil => exact Iff.rfl
  | char c rest => simp
  | name n rest => simp [(first n).1, (second n).1]

theorem last_any (h : Renamed f g ns s t) : s.getLast?.any p = t.getLast?.any p := by
  induction h with
  | nil => rfl
  | @char ns s t c rest ih =>
      by_cases empty : s = []
      · rw [empty, (rest.eq_nil_iff first second).mp empty]
      · have more := mt (rest.eq_nil_iff first second).mpr empty
        exact (last_append [c] empty).trans (ih.trans (last_append [c] more).symm)
  | @name ns s t n rest ih =>
      -- the last character is one of the name only if nothing comes behind it
      by_cases empty : s = []
      · rw [empty, (rest.eq_nil_iff first second).mp empty, List.append_nil, List.append_nil,
          first.last, second.last]
      · have more := mt (rest.eq_nil_iff first second).mpr empty
        rw [last_append _ empty, last_append _ more, ih]

end Edges

end Renamed

end Text

end LogicFormat
