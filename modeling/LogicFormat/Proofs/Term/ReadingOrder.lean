import LogicFormat.Proofs.Number.Scientific
import LogicFormat.Proofs.Term.Renaming
import Mathlib.Data.List.Induction
import Mathlib.Data.List.Nodup

/-!
# Variables in reading order

The variables of a term come in the order in which a reader meets them, and each is given a name of
its own.
-/

namespace LogicFormat

namespace Naming

theorem letter_injective {i j : Nat} (hi : i < 26) (hj : j < 26)
    (same : Char.ofNat ('A'.toNat + i) = Char.ofNat ('A'.toNat + j)) : i = j := by
  obtain ⟨-, -, -, -, -, first⟩ := letter_table i hi
  obtain ⟨-, -, -, -, -, second⟩ := letter_table j hj
  rw [← first, ← second, same]

/-- The letter tells the remainder, and the number behind it the quotient; without a number the
quotient is zero. -/
theorem generated_injective : Function.Injective generated := by
  intro m n same
  unfold generated at same
  obtain ⟨letters, numbers⟩ := List.cons.inj same
  have remainder : m % 26 = n % 26 := by
    have := letter_injective (by omega) (by omega) letters
    omega
  have read (k : Int) : Numeral.integer? (Numeral.ofInt k) = some k := Numeral.integer?_ofInt k
  have shown (k : Int) : Numeral.ofInt k ≠ [] := by
    intro empty
    have := read k
    rw [empty] at this
    cases this
  have quotient : m / 26 = n / 26 := by
    by_cases hm : m / 26 = 0 <;> by_cases hn : n / 26 = 0
    · rw [hm, hn]
    · rw [if_pos hm, if_neg hn] at numbers
      exact absurd numbers.symm (shown _)
    · rw [if_neg hm, if_pos hn] at numbers
      exact absurd numbers (shown _)
    · rw [if_neg hm, if_neg hn] at numbers
      exact Option.some.inj ((read _).symm.trans (numbers ▸ read _))
  omega

end Naming

namespace Term

theorem var?_eq_some {t : Term} {n : Nat} : t.var? = some n ↔ t = .var n := by
  cases t <;> simp [var?]

theorem mem_filterMap_var? {ts : List Term} {n : Nat} :
    n ∈ ts.filterMap var? ↔ .var n ∈ ts := by
  simp [var?_eq_some]

theorem eraseDups_concat (l : List Nat) (n : Nat) :
    (l ++ [n]).eraseDups = if n ∈ l then l.eraseDups else l.eraseDups ++ [n] := by
  have one : [n].eraseDups = [n] := rfl
  rw [List.eraseDups_append]
  by_cases h : n ∈ l <;> simp [List.removeAll, h, one]

/-- Variables come in the order of the first places at which they stand. -/
theorem pairwise_eraseDups (ts : List Term) :
    (ts.filterMap var?).eraseDups.Pairwise fun m n => ts.idxOf (.var m) < ts.idxOf (.var n) := by
  induction ts using List.reverseRecOn with
  | nil => exact .nil
  | append_singleton ts t ih =>
      have earlier {n : Nat} (h : n ∈ (ts.filterMap var?).eraseDups) :
          (ts ++ [t]).idxOf (.var n) = ts.idxOf (.var n) :=
        List.idxOf_append_of_mem (mem_filterMap_var?.mp (List.mem_eraseDups.mp h))
      have front : (ts.filterMap var?).eraseDups.Pairwise fun m n =>
          (ts ++ [t]).idxOf (.var m) < (ts ++ [t]).idxOf (.var n) := by
        refine ih.imp_of_mem fun hm hn before => ?_
        rwa [earlier hm, earlier hn]
      rw [List.filterMap_append]
      cases shown : t.var? with
      | none => simpa [shown] using front
      | some n =>
          obtain rfl := var?_eq_some.mp shown
          rw [List.filterMap_cons_some shown, List.filterMap_nil, eraseDups_concat]
          by_cases known : n ∈ ts.filterMap var?
          · rwa [if_pos known]
          · -- a new variable stands behind all others
            rw [if_neg known]
            refine List.pairwise_append.mpr ⟨front, List.pairwise_singleton _ n, ?_⟩
            intro m hm k hk
            obtain rfl := List.mem_singleton.mp hk
            have inside := List.idxOf_lt_length_of_mem
              (mem_filterMap_var?.mp (List.mem_eraseDups.mp hm))
            rw [earlier hm, List.idxOf_append_of_notMem (mt mem_filterMap_var?.mpr known)]
            omega

theorem find?_ofTerm_eq_some {t : Term} {n : Nat} {name : Text} :
    (Naming.ofTerm t).find? n = some name ↔
      ∃ i : Nat, t.vars[i]? = some n ∧ name = Naming.generated i := by
  constructor
  · intro found
    obtain ⟨⟨m, i⟩, place, same⟩ := List.mem_map.mp (Naming.mem_of_find? found)
    cases same
    exact ⟨i, List.mem_zipIdx_iff_getElem?.mp place, rfl⟩
  · rintro ⟨i, place, rfl⟩
    obtain ⟨j, position, found⟩ := Naming.find?_ofTerm (List.mem_of_getElem? place)
    have other : t.vars[j]? = some n := List.mem_zipIdx_iff_getElem?.mp position
    obtain ⟨bound, -⟩ := List.getElem?_eq_some_iff.mp place
    have same : i = j := (List.getElem?_inj bound t.nodup_vars).mp (place.trans other.symm)
    rw [found, same]

theorem nodup_names (t : Term) : ((Naming.ofTerm t).map Prod.snd).Nodup := by
  have names : (Naming.ofTerm t).map Prod.snd =
      (List.range t.vars.length).map fun i : Nat => Naming.generated i := by
    rw [Naming.ofTerm, List.map_map, List.range_eq_range', ← List.zipIdx_map_snd 0 t.vars,
      List.map_map]
    rfl
  rw [names]
  exact List.nodup_range.map fun i j same => Int.ofNat.inj (Naming.generated_injective same)

/-- The variables of a term are those that the reader meets in it, each once and in the order of
the first meetings. The naming gives names to these and to no others, the `i`-th name to the
`i`-th variable, and no name twice; two names are the same only for the same number. -/
theorem vars_reading_order (t : Term) :
    t.vars.Nodup ∧ (∀ n, n ∈ t.vars ↔ .var n ∈ t.preorder) ∧
      (t.vars.Pairwise fun m n => t.preorder.idxOf (.var m) < t.preorder.idxOf (.var n)) ∧
      (∀ n name, (Naming.ofTerm t).find? n = some name ↔
        ∃ i : Nat, t.vars[i]? = some n ∧ name = Naming.generated i) ∧
      ((Naming.ofTerm t).map Prod.snd).Nodup ∧ Function.Injective Naming.generated := by
  refine ⟨t.nodup_vars, fun n => ?_, ?_, fun n name => find?_ofTerm_eq_some, t.nodup_names,
    Naming.generated_injective⟩
  · rw [mem_vars, occurrences, mem_filterMap_var?]
  · rw [vars_eq_eraseDups, occurrences]
    exact pairwise_eraseDups t.preorder

end Term

end LogicFormat
