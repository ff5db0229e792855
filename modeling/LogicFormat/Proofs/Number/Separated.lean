import LogicFormat.Proofs.Number.Groups

/-!
# Groups cut off from the left

A text is separated into slices cut off one after the other from its left end, the first of which
takes what whole groups leave over. For a positive size these are the groups counted from the right,
and the only way to cut the text into groups that are all full but the first. For a negative size
there are none.
-/

namespace LogicFormat.Places

variable {size : Nat} {text : Text}

/-! ## Slices -/

@[simp] theorem place_natCast (text : Text) (n : Nat) : place text n = n := by
  rw [place, if_neg (Int.not_lt.mpr (Int.natCast_nonneg n)), Int.toNat_natCast]

theorem slice_natCast (text : Text) (start length : Nat) :
    slice text start (start + length) = (text.drop start).take length := by
  rw [slice, ← Int.natCast_add, place_natCast, place_natCast, List.drop_take,
    Nat.add_sub_cancel_left]

/-- Inside the text, a step cuts off what stands at the position and moves behind it. -/
theorem slicesFrom_step (positive : 0 < size) {position : Nat} (inside : position < text.length) :
    slicesFrom size text position =
      (text.drop position).take size :: slicesFrom size text (position + size : Nat) := by
  have going : 0 < (size : Int) ∧ (position : Int) < text.length := by omega
  rw [slicesFrom, if_pos (.inl going), slice_natCast, Int.natCast_add]

theorem slicesFrom_length (size : Int) (text : Text) : slicesFrom size text text.length = [] := by
  rw [slicesFrom, if_neg (by omega)]

/-- Moving backwards, the end of the text is never reached from within it. -/
theorem slicesFrom_backwards {size position : Int} (negative : size < 0)
    (within : position ≤ text.length) : slicesFrom size text position = [] := by
  rw [slicesFrom, if_neg (by omega)]

/-- From where whole groups are left, all slices are full, and they make up the rest of the text. -/
theorem slicesFrom_spec (positive : 0 < size) {groups position : Nat}
    (whole : text.length = position + groups * size) :
    (slicesFrom size text position).flatten = text.drop position ∧
      ∀ part ∈ slicesFrom size text position, part.length = size := by
  -- by the number of groups left, as each step leaves one less
  induction groups generalizing position with
  | zero =>
      rw [Nat.zero_mul, Nat.add_zero] at whole
      rw [← whole, slicesFrom_length, List.drop_length]
      exact ⟨rfl, List.forall_mem_nil _⟩
  | succ groups ih =>
      rw [Nat.succ_mul] at whole
      obtain ⟨rest, full⟩ := ih (show text.length = position + size + groups * size by omega)
      rw [slicesFrom_step positive (by omega), List.flatten_cons, rest, List.forall_mem_cons]
      refine ⟨?_, ?_, full⟩
      · rw [← List.drop_drop, List.take_append_drop]
      · rw [List.length_take, List.length_drop]
        omega

/-! ## Slices of a whole text -/

theorem slices_natCast (size : Nat) (text : Text) :
    slices size text =
      (if 0 < text.length % size then [text.take (text.length % size)] else []) ++
        slicesFrom size text (text.length % size : Nat) := by
  have first : slice text 0 (text.length % size : Nat) = text.take (text.length % size) := by
    have cut := slice_natCast text 0 (text.length % size)
    rwa [Int.natCast_zero, Int.zero_add] at cut
  have leftover : 0 < ((text.length % size : Nat) : Int) ↔ 0 < text.length % size := by omega
  rw [slices, ← Int.ofNat_fmod, first]
  simp only [leftover]

theorem slices_of_neg {size : Int} (negative : size < 0) (text : Text) : slices size text = [] := by
  -- a remainder has the sign of what it is divided by
  have first : Int.fmod text.length size ≤ 0 := by
    have opposite := Int.fmod_nonneg_of_pos (-text.length) (show 0 < -size by omega)
    rw [Int.neg_fmod_neg] at opposite
    omega
  rw [slices, if_neg (by omega), slicesFrom_backwards negative (by omega)]
  rfl

theorem packed_of_full (positive : 0 < size) {groups : List Text}
    (full : ∀ group ∈ groups, group.length = size) : Packed size groups := by
  cases groups with
  | nil => trivial
  | cons first others =>
      rw [List.forall_mem_cons] at full
      exact ⟨List.ne_nil_of_length_pos (by omega), Nat.le_of_eq full.1, full.2⟩

theorem slices_spec (positive : 0 < size) (text : Text) :
    (slices size text).flatten = text ∧ Packed size (slices size text) := by
  have whole : text.length = text.length % size + text.length / size * size := by
    rw [Nat.mul_comm, Nat.mod_add_div]
  have short : text.length % size < size := Nat.mod_lt _ positive
  obtain ⟨rest, full⟩ := slicesFrom_spec positive whole
  rw [slices_natCast]
  split
  · next leftover =>
      have length : (text.take (text.length % size)).length = text.length % size := by
        rw [List.length_take]
        omega
      refine ⟨?_, List.ne_nil_of_length_pos (by omega), by omega, full⟩
      rw [List.flatten_append, List.flatten_singleton, rest, List.take_append_drop]
  · next none =>
      refine ⟨?_, packed_of_full positive full⟩
      rw [List.nil_append, rest, Nat.eq_zero_of_not_pos none, List.drop_zero]

theorem flatten_eq_nil {groups : List Text} (packed : Packed size groups) :
    groups.flatten = [] ↔ groups = [] := by
  cases groups with
  | nil => exact ⟨fun _ => rfl, fun _ => rfl⟩
  | cons first others =>
      refine ⟨fun none => ?_, fun none => absurd none (List.cons_ne_nil _ _)⟩
      exact absurd (List.append_eq_nil_iff.mp none).1 packed.1

/-! ## One way to cut a text into groups -/

/-- In front of full groups, characters that fit into one group become one. -/
theorem foldr_pushFront {first : Text} {groups : List Text} (some : first ≠ [])
    (fits : first.length ≤ size) (full : ∀ group ∈ groups, group.length = size) :
    first.foldr (pushFront size) groups = first :: groups := by
  induction first with
  | nil => exact absurd rfl some
  | cons c first ih =>
      have room : first.length < size := fits
      rw [List.foldr_cons]
      cases first with
      | nil =>
          cases groups with
          | nil => rfl
          | cons group groups =>
              have crowded : ¬ group.length < size := by
                rw [full group List.mem_cons_self]
                exact Nat.lt_irrefl size
              rw [List.foldr_nil, pushFront, if_neg crowded]
      | cons d first => rw [ih (List.cons_ne_nil _ _) (Nat.le_of_lt room), pushFront, if_pos room]

theorem groupsOf_flatten (positive : 0 < size) {groups : List Text}
    (packed : Packed size groups) : groupsOf size groups.flatten = groups := by
  induction groups with
  | nil => rfl
  | cons first others ih =>
      obtain ⟨some, fits, full⟩ := packed
      have rest := ih (packed_of_full positive full)
      rw [groupsOf] at rest
      rw [groupsOf, List.flatten_cons, List.foldr_append, rest, foldr_pushFront some fits full]

/-- Cut off from the left or counted from the right, the groups are the same. -/
theorem slices_eq_groupsOf (positive : 0 < size) (text : Text) :
    slices size text = groupsOf size text := by
  obtain ⟨whole, packed⟩ := slices_spec positive text
  rw [← groupsOf_flatten positive packed, whole]

/-- A text is separated as its groups counted from the right are joined. -/
theorem separated_eq_joined (positive : 0 < size) (text : Text) (separator : Char) :
    separated text [separator] size = .ok (joined size separator text) := by
  rw [separated, if_neg (by omega), slices_eq_groupsOf positive, joined]

/-- A text is separated into groups of a positive size. Together they are the text, and all are full
but the first, which has something in it; no other groups are like that. With a negative size
nothing is left of the text, and groups of no characters are a fault. -/
theorem separated_packed (text separator : Text) (size : Int) :
    (0 < size → ∃ groups : List Text,
      separated text separator size = .ok (separator.intercalate groups) ∧
        groups.flatten = text ∧ Packed size.toNat groups ∧ (groups = [] ↔ text = []) ∧
        ∀ others : List Text, others.flatten = text → Packed size.toNat others →
          others = groups) ∧
      (size < 0 → separated text separator size = .ok []) ∧
      (size = 0 → separated text separator size = .error .emptyGroups) := by
  refine ⟨fun positive => ?_, fun negative => ?_, fun zero => ?_⟩
  · obtain ⟨n, rfl⟩ := Int.eq_ofNat_of_zero_le (Int.le_of_lt positive)
    have some : 0 < n := by omega
    obtain ⟨whole, packed⟩ := slices_spec some text
    have none := flatten_eq_nil packed
    rw [whole] at none
    refine ⟨slices n text, ?_, whole, packed, none.symm, ?_⟩
    · rw [separated, if_neg (by omega)]
    · intro others same alike
      rw [slices_eq_groupsOf some, ← same, groupsOf_flatten some alike]
  · rw [separated, if_neg (by omega), slices_of_neg negative]
    rfl
  · rw [separated, if_pos zero]

example : separated "1234567" "--" 3 = .ok "1--234--567".toList := by decide +kernel

end LogicFormat.Places
