import LogicFormat.Atom
import LogicFormat.Term.Subterms

/-!
# Names are read back

A generated name is a capital letter and perhaps a number, and both together are the number that
the name was generated for.
-/

namespace LogicFormat.Naming

def number (letter : Char) (digits : Text) : Nat :=
  letter.toNat - 'A'.toNat + 26 * Nat.ofDigitChars 10 digits 0

def digits (n : Nat) : Text := if n / 26 = 0 then [] else Numeral.ofNat (n / 26)

theorem generated_eq (n : Nat) :
    generated n = Char.ofNat ('A'.toNat + n % 26) :: digits n := by
  have letter : ((n : Int) % 26).toNat = n % 26 := by omega
  have rounds : ((n : Int) / 26 = 0) = (n / 26 = 0) := propext (by omega)
  have below : ¬ ((n : Int) / 26 < 0) := by omega
  have size : ((n : Int) / 26).natAbs = n / 26 := by omega
  simp only [generated, digits, letter, rounds, Numeral.ofInt, below, size, decide_false,
    Numeral.signed, Bool.false_eq_true, if_false]

/-- Letters begin neither a word nor a number, and are not read as symbols. -/
theorem letter_table : ∀ k < 26, (Char.ofNat ('A'.toNat + k)).isUpper = true ∧
    (Char.ofNat ('A'.toNat + k)).isLower = false ∧ (Char.ofNat ('A'.toNat + k)).isDigit = false ∧
    Atom.isSymbolChar (Char.ofNat ('A'.toNat + k)) = false ∧
    Char.ofNat ('A'.toNat + k) ≠ '_' ∧
    (Char.ofNat ('A'.toNat + k)).toNat - 'A'.toNat = k := by
  decide

theorem isDigit_ofNat {n : Nat} : ∀ d ∈ Numeral.ofNat n, d.isDigit = true :=
  fun _ hd => Nat.isDigit_of_mem_toDigits (by decide) (by decide) hd

theorem isDigit_digits {n : Nat} : ∀ d ∈ digits n, d.isDigit = true := by
  unfold digits
  split
  · exact nofun
  · exact isDigit_ofNat

theorem number_generated (n : Nat) : number (Char.ofNat ('A'.toNat + n % 26)) (digits n) = n := by
  obtain ⟨-, -, -, -, -, letter⟩ := letter_table (n % 26) (Nat.mod_lt n (by decide))
  have rounds : Nat.ofDigitChars 10 (digits n) 0 = n / 26 := by
    unfold digits
    split
    · next none => exact none.symm
    · exact Nat.ofDigitChars_ten_toDigits
  rw [number, letter, rounds]
  omega

/-- Every variable goes by its number or by the name generated for it. -/
def Legible (names : Nat → Text) : Prop :=
  ∀ n, names n = Term.displayVar n ∨ names n = generated n

theorem legible_displayVar : Legible Term.displayVar := fun _ => .inl rfl

theorem legible_generated : Legible fun n => generated n := fun _ => .inr rfl

/-! ## Names that are given -/

theorem mem_of_find? {names : Naming} {n : Nat} {name : Text} (h : names.find? n = some name) :
    (n, name) ∈ names := by
  induction names with
  | nil => exact nomatch h
  | cons entry names ih =>
      rw [find?] at h
      split at h
      · next found later =>
          cases h
          exact List.mem_cons_of_mem _ (ih later)
      · split at h
        · next same =>
            cases h
            subst same
            exact List.mem_cons_self
        · exact nomatch h

theorem exists_find? {names : Naming} {n : Nat} {name : Text} (given : (n, name) ∈ names) :
    ∃ found, names.find? n = some found := by
  induction names with
  | nil => exact nomatch given
  | cons entry names ih =>
      rw [find?]
      rcases later : find? names n with _ | found
      · rcases List.mem_cons.mp given with rfl | given
        · exact ⟨name, if_pos rfl⟩
        · obtain ⟨found, h⟩ := ih given
          exact absurd (later.symm.trans h) nofun
      · exact ⟨found, rfl⟩

theorem find?_ofTerm {t : Term} {n : Nat} (h : n ∈ t.vars) :
    ∃ i : Nat, (n, i) ∈ t.vars.zipIdx ∧ (ofTerm t).find? n = some (generated i) := by
  obtain ⟨i, bound, rfl⟩ := List.getElem_of_mem h
  have position : (t.vars[i], i) ∈ t.vars.zipIdx := List.mk_mem_zipIdx_iff_getElem?.mpr
    (List.getElem?_eq_getElem bound)
  have given : (t.vars[i], generated i) ∈ ofTerm t :=
    List.mem_map.mpr ⟨_, position, rfl⟩
  obtain ⟨found, h⟩ := exists_find? given
  obtain ⟨⟨n, j⟩, position, same⟩ := List.mem_map.mp (mem_of_find? h)
  cases same
  exact ⟨j, position, h⟩

theorem nameOf_of_find? {names : Naming} {n i : Nat} (h : names.find? n = some (generated i)) :
    names.nameOf n = generated i := by
  rw [nameOf, h, generated_eq]

theorem nameOf_ofTerm_of_not_mem {t : Term} {n : Nat} (h : n ∉ t.vars) :
    (ofTerm t).nameOf n = Term.displayVar n := by
  rcases found : (ofTerm t).find? n with _ | name
  · rw [nameOf, found]
  · obtain ⟨⟨m, i⟩, place, same⟩ := List.mem_map.mp (mem_of_find? found)
    cases same
    exact absurd (List.fst_mem_of_mem_zipIdx place) h

/-- Every variable goes by its number or by some generated name. -/
def Regular (names : Naming) : Prop :=
  ∀ n, names.nameOf n = Term.displayVar n ∨ ∃ i : Nat, names.nameOf n = generated i

theorem regular_nil : Regular [] := fun _ => .inl rfl

theorem regular_ofTerm (t : Term) : Regular (ofTerm t) := by
  intro n
  by_cases h : n ∈ t.vars
  · obtain ⟨i, -, given⟩ := find?_ofTerm h
    exact .inr ⟨i, nameOf_of_find? given⟩
  · exact .inl (nameOf_ofTerm_of_not_mem h)

end LogicFormat.Naming
