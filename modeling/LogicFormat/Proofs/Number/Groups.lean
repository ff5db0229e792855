import LogicFormat.Number.Places
import Mathlib.Data.List.Basic

/-!
# Groups counted from the right

A text cut into groups from its right end loses nothing, and all its groups are full but the first,
which takes what is left over. Joined by a separator, the groups have it exactly where a whole
number of groups follows.
-/

namespace LogicFormat.Places

/-- One more character in front of some groups: the first group takes it unless it is full. -/
def pushFront (size : Nat) (c : Char) : List Text → List Text
  | [] => [[c]]
  | group :: groups =>
      if group.length < size then (c :: group) :: groups else [c] :: group :: groups

/-- Groups of `size` characters, counted from the right. -/
def groupsOf (size : Nat) (text : Text) : List Text := text.foldr (pushFront size) []

/-- Full groups, but for the first one, which only has to have something in it. -/
def Packed (size : Nat) : List Text → Prop
  | [] => True
  | first :: others =>
      first ≠ [] ∧ first.length ≤ size ∧ ∀ group ∈ others, group.length = size

/-- The groups of a text with a separator between them. -/
def joined (size : Nat) (separator : Char) (text : Text) : Text :=
  [separator].intercalate (groupsOf size text)

variable {size : Nat} {separator : Char}

theorem groupsOf_cons (size : Nat) (c : Char) (text : Text) :
    groupsOf size (c :: text) = pushFront size c (groupsOf size text) := rfl

theorem flatten_pushFront (size : Nat) (c : Char) (groups : List Text) :
    (pushFront size c groups).flatten = c :: groups.flatten := by
  cases groups with
  | nil => rfl
  | cons group groups =>
      rw [pushFront]
      split <;> rfl

theorem flatten_groupsOf (size : Nat) (text : Text) : (groupsOf size text).flatten = text := by
  induction text with
  | nil => rfl
  | cons c text ih => rw [groupsOf_cons, flatten_pushFront, ih]

theorem packed_pushFront (positive : 0 < size) (c : Char) {groups : List Text}
    (packed : Packed size groups) : Packed size (pushFront size c groups) := by
  cases groups with
  | nil => exact ⟨List.cons_ne_nil _ _, positive, fun _ member => nomatch member⟩
  | cons first others =>
      obtain ⟨-, fits, full⟩ := packed
      rw [pushFront]
      split
      · next room => exact ⟨List.cons_ne_nil _ _, room, full⟩
      · next crowded =>
          refine ⟨List.cons_ne_nil _ _, positive, ?_⟩
          rw [List.forall_mem_cons]
          exact ⟨by omega, full⟩

theorem packed_groupsOf (positive : 0 < size) (text : Text) : Packed size (groupsOf size text) := by
  induction text with
  | nil => trivial
  | cons c text ih => exact packed_pushFront positive c ih

theorem dvd_length_flatten {groups : List Text} (full : ∀ group ∈ groups, group.length = size) :
    size ∣ groups.flatten.length := by
  rw [List.length_flatten, List.map_eq_replicate_iff.mpr full, List.sum_replicate_nat]
  exact Nat.dvd_mul_left size groups.length

/-- Whether the first group is full can be seen from the length of all groups together. -/
theorem dvd_length_iff {first : Text} {others : List Text}
    (packed : Packed size (first :: others)) :
    size ∣ (first :: others).flatten.length ↔ ¬ first.length < size := by
  obtain ⟨some, fits, full⟩ := packed
  rw [List.flatten_cons, List.length_append, Nat.dvd_add_left (dvd_length_flatten full)]
  constructor
  · intro divides short
    exact absurd (Nat.le_of_dvd (List.length_pos_of_ne_nil some) divides) (Nat.not_le.mpr short)
  · intro long
    exact ⟨1, by omega⟩

/-! ## Separators -/

@[simp] theorem joined_nil : joined size separator [] = [] := rfl

/-- The separator stands behind a character exactly if whole groups follow it, and not nothing. -/
theorem joined_cons (positive : 0 < size) (c : Char) (text : Text) :
    joined size separator (c :: text) =
      c :: ((if text ≠ [] ∧ size ∣ text.length then [separator] else []) ++
        joined size separator text) := by
  have whole := flatten_groupsOf size text
  have packed := packed_groupsOf positive text
  rw [joined, joined, groupsOf_cons]
  cases hgroups : groupsOf size text with
  | nil =>
      rw [hgroups] at whole
      rw [← whole]
      simp [pushFront]
  | cons first others =>
      rw [hgroups] at whole packed
      have nonempty : text ≠ [] := by
        rw [← whole, List.flatten_cons]
        exact List.append_ne_nil_of_left_ne_nil packed.1 _
      have crowded := dvd_length_iff packed
      rw [whole] at crowded
      rw [pushFront]
      by_cases room : first.length < size
      · rw [if_pos room, if_neg (fun h => crowded.mp h.2 room)]
        cases others <;> simp
      · rw [if_neg room, if_pos ⟨nonempty, crowded.mpr room⟩]
        simp

theorem head?_joined (positive : 0 < size) (text : Text) :
    (joined size separator text).head? = text.head? := by
  cases text with
  | nil => rfl
  | cons c text => rw [joined_cons positive, List.head?_cons, List.head?_cons]

/-- Without the separators a text is what it was. -/
theorem filter_joined (positive : 0 < size) {text : Text} (absent : separator ∉ text) :
    (joined size separator text).filter (· ≠ separator) = text := by
  induction text with
  | nil => rfl
  | cons c text ih =>
      rw [List.mem_cons, not_or] at absent
      have apart : c ≠ separator := fun same => absent.1 same.symm
      rw [joined_cons positive, List.filter_cons_of_pos (by simpa using apart), List.filter_append,
        ih absent.2]
      split <;> simp

theorem splitOn_joined {text : Text} (some : text ≠ []) (absent : separator ∉ text) :
    (joined size separator text).splitOn separator = groupsOf size text := by
  have whole := flatten_groupsOf size text
  apply List.splitOn_intercalate
  · intro group member inside
    apply absent
    rw [← whole]
    exact List.mem_flatten_of_mem member inside
  · intro none
    rw [none] at whole
    exact some whole.symm

theorem length_of_joined_eq_cons (positive : 0 < size) {text back : Text} {c : Char}
    (absent : separator ∉ text) (apart : c ≠ separator)
    (begins : joined size separator text = c :: back) :
    text ≠ [] ∧ (back.filter (· ≠ separator)).length + 1 = text.length := by
  have chars := filter_joined positive absent
  rw [begins, List.filter_cons_of_pos (by simpa using apart)] at chars
  rw [← chars]
  exact ⟨List.cons_ne_nil _ _, rfl⟩

/-- A separator stands in front of a character, the first one apart, exactly if that character and
those behind it make up whole groups. -/
theorem getLast?_of_joined (positive : 0 < size) {text front back : Text} {c : Char}
    (absent : separator ∉ text) (cut : joined size separator text = front ++ c :: back)
    (apart : c ≠ separator) :
    front.getLast? = some separator ↔
      front ≠ [] ∧ size ∣ (back.filter (· ≠ separator)).length + 1 := by
  induction text generalizing front with
  | nil => simp at cut
  | cons x text ih =>
      cases front with
      | nil => simp
      | cons y front =>
          rw [joined_cons positive, List.cons_append, List.cons.injEq] at cut
          obtain ⟨rfl, behind⟩ := cut
          rw [List.mem_cons, not_or] at absent
          by_cases whole : text ≠ [] ∧ size ∣ text.length
          · rw [if_pos whole, List.singleton_append] at behind
            cases front with
            | nil => exact absurd (List.cons.inj behind).1.symm apart
            | cons z front =>
                rw [List.cons_append, List.cons.injEq] at behind
                obtain ⟨rfl, rest⟩ := behind
                cases front with
                | nil =>
                    have length := (length_of_joined_eq_cons positive absent.2 apart rest).2
                    rw [length]
                    simp [whole.2]
                | cons w front =>
                    have later := ih absent.2 rest
                    rw [List.getLast?_cons_cons, List.getLast?_cons_cons, later]
                    simp
          · rw [if_neg whole, List.nil_append] at behind
            cases front with
            | nil =>
                obtain ⟨some, length⟩ := length_of_joined_eq_cons positive absent.2 apart behind
                have different : x ≠ separator := fun same => absent.1 same.symm
                have broken : ¬ size ∣ text.length := fun divides => whole ⟨some, divides⟩
                rw [length]
                simp [broken, different]
            | cons z front =>
                have later := ih absent.2 behind
                rw [List.getLast?_cons_cons, later]
                simp

end LogicFormat.Places
