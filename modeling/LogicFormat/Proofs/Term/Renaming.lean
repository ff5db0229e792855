import LogicFormat.Proofs.Term.Naming
import LogicFormat.Proofs.Term.Subterms
import LogicFormat.Term.Written
import Mathlib.Data.List.Basic

/-!
# Renaming of variables

A renaming that keeps the variables of a term apart renames the list of them, and the term is
written as before where the new variables go by the names of the old ones.
-/

namespace LogicFormat.Term

mutual

def rename (r : Nat → Nat) : Term → Term
  | .var n => .var (r n)
  | .atom name => .atom name
  | .int n => .int n
  | .float x => .float x
  | .bool b => .bool b
  | .null => .null
  | .list items => .list (renameAll r items)
  | .tuple items => .tuple (renameAll r items)
  | .compound name first others => .compound name (rename r first) (renameAll r others)

def renameAll (r : Nat → Nat) : List Term → List Term
  | [] => []
  | t :: ts => rename r t :: renameAll r ts

end

variable {r : Nat → Nat}

theorem renameAll_eq_map (r : Nat → Nat) (ts : List Term) : renameAll r ts = ts.map (rename r) := by
  induction ts with
  | nil => rfl
  | cons t ts ih => rw [renameAll, ih, List.map_cons]

theorem var?_rename (r : Nat → Nat) (t : Term) : (t.rename r).var? = t.var?.map r := by
  cases t <;> simp [rename, var?]

mutual

theorem preorder_rename (r : Nat → Nat) :
    (t : Term) → (t.rename r).preorder = t.preorder.map (rename r)
  | .list items => by simp [rename, preorder, preorderAll_rename r items]
  | .tuple items => by simp [rename, preorder, preorderAll_rename r items]
  | .compound name first others => by
      simp [rename, preorder, preorder_rename r first, preorderAll_rename r others]
  | .var _ | .atom _ | .int _ | .float _ | .bool _ | .null => by simp [rename, preorder]

theorem preorderAll_rename (r : Nat → Nat) :
    (ts : List Term) → preorderAll (renameAll r ts) = (preorderAll ts).map (rename r)
  | [] => rfl
  | t :: ts => by
      rw [renameAll, preorderAll, preorderAll, List.map_append, preorder_rename r t,
        preorderAll_rename r ts]

end

def occurrences (t : Term) : List Nat := t.preorder.filterMap var?

theorem mem_occurrences_of_child {s t : Term} (child : s ∈ t.children) {n : Nat}
    (h : n ∈ s.occurrences) : n ∈ t.occurrences := by
  have inside {ts : List Term} (hs : s ∈ ts) : n ∈ (preorderAll ts).filterMap var? := by
    obtain ⟨before, after, rfl⟩ := List.mem_iff_append.mp hs
    rw [preorderAll_append, preorderAll, List.filterMap_append, List.filterMap_append]
    exact List.mem_append_right _ (List.mem_append_left _ h)
  rw [occurrences, preorder_eq_cons, ← List.singleton_append, List.filterMap_append]
  exact List.mem_append_right _ (inside child)

theorem occurrences_compound (name : Text) (first : Term) (others : List Term) :
    (compound name first others).occurrences =
      first.occurrences ++ (preorderAll others).filterMap var? := by
  have isNone : (compound name first others).var? = none := rfl
  rw [occurrences, preorder, List.filterMap_cons_none isNone, List.filterMap_append, occurrences]

theorem occurrences_pair (name : Text) (first second : Term) :
    (compound name first [second]).occurrences = first.occurrences ++ second.occurrences := by
  rw [occurrences_compound, preorderAll, preorderAll, List.append_nil, ← occurrences]

theorem vars_eq_eraseDups (t : Term) : t.vars = t.occurrences.eraseDups := by
  rw [vars, occurrences, subterms_eq_preorder]

theorem mem_vars {t : Term} {n : Nat} : n ∈ t.vars ↔ n ∈ t.occurrences := by
  rw [vars_eq_eraseDups, List.mem_eraseDups]

theorem occurrences_rename (r : Nat → Nat) (t : Term) :
    (t.rename r).occurrences = t.occurrences.map r := by
  rw [occurrences, occurrences, preorder_rename, List.filterMap_map, List.map_filterMap]
  exact congrArg (fun var => t.preorder.filterMap var) (funext (var?_rename r))

theorem eraseDups_map {l : List Nat} (apart : ∀ m ∈ l, ∀ n ∈ l, r m = r n → m = n) :
    (l.map r).eraseDups = l.eraseDups.map r := by
  induction length : l.length using Nat.strongRecOn generalizing l with
  | ind length ih =>
      cases l with
      | nil => rfl
      | cons n l =>
          have others : (l.map r).filter (fun m => !m == r n) =
              (l.filter fun m => !m == n).map r := by
            rw [List.filter_map]
            refine congrArg (List.map r) (List.filter_congr fun m hm => ?_)
            have same : r m = r n ↔ m = n :=
              ⟨apart m (List.mem_cons_of_mem _ hm) n List.mem_cons_self, congrArg r⟩
            show (!r m == r n) = !m == n
            rw [Bool.eq_iff_iff]
            simp [same]
          have shorter := (List.filter_sublist (p := fun m => !m == n) (l := l)).length_le
          rw [List.length_cons] at length
          rw [List.map_cons, List.eraseDups_cons, List.eraseDups_cons, others, List.map_cons,
            ih _ (by omega) _ rfl]
          intro i hi j hj
          exact apart i (List.mem_cons_of_mem _ (List.mem_filter.mp hi).1)
            j (List.mem_cons_of_mem _ (List.mem_filter.mp hj).1)

theorem nodup_eraseDups (l : List Nat) : l.eraseDups.Nodup := by
  induction length : l.length using Nat.strongRecOn generalizing l with
  | ind length ih =>
      cases l with
      | nil => exact List.Pairwise.nil
      | cons n l =>
          have shorter := (List.filter_sublist (p := fun m => !m == n) (l := l)).length_le
          rw [List.length_cons] at length
          rw [List.eraseDups_cons, List.nodup_cons, List.mem_eraseDups]
          refine ⟨?_, ih _ (by omega) _ rfl⟩
          simp

theorem nodup_vars (t : Term) : t.vars.Nodup := by
  rw [vars]
  exact nodup_eraseDups _

def Apart (r : Nat → Nat) (t : Term) : Prop := ∀ m ∈ t.vars, ∀ n ∈ t.vars, r m = r n → m = n

theorem vars_rename {t : Term} (apart : t.Apart r) : (t.rename r).vars = t.vars.map r := by
  rw [vars_eq_eraseDups, occurrences_rename, vars_eq_eraseDups]
  exact eraseDups_map fun m hm n hn => apart m (mem_vars.mpr hm) n (mem_vars.mpr hn)

/-! ## Writing -/

/-- Names for the new variables that are the names of the old ones. -/
def Carries (r : Nat → Nat) (names names' : Naming) (t : Term) : Prop :=
  ∀ n ∈ t.occurrences, names'.nameOf (r n) = names.nameOf n

theorem Carries.child {names names' : Naming} {s t : Term} (h : Carries r names names' t)
    (child : s ∈ t.children) : Carries r names names' s :=
  fun n hn => h n (mem_occurrences_of_child child hn)

theorem Carries.pair {names names' : Naming} {name : Text} {first second : Term}
    (h : Carries r names names' (.compound name first [second])) :
    Carries r names names' first ∧ Carries r names names' second :=
  ⟨h.child List.mem_cons_self, h.child (List.mem_cons_of_mem _ List.mem_cons_self)⟩

mutual

theorem phrase_rename {names names' : Naming} (quoted : Bool) :
    (t : Term) → Carries r names names' t →
      (t.rename r).phrase ⟨quoted, names'⟩ = t.phrase ⟨quoted, names⟩
  | .var n, same => by
      have name := same n (by simp [occurrences, preorder, var?])
      simp [rename, phrase, name]
  | .atom _, _ | .int _, _ | .float _, _ | .bool _, _ | .null, _ => by simp [rename, phrase]
  | .list items, same => by
      rw [rename, phrase, phrase, phrases_rename quoted items fun _ => same.child]
      rfl
  | .tuple items, same => by
      rw [rename, phrase, phrase, phrases_rename quoted items fun _ => same.child]
      rfl
  | .compound name first others, same => by
      rw [rename, phrase, phrase, phrase_rename quoted first (same.child List.mem_cons_self),
        phrases_rename quoted others fun _ ht => same.child (List.mem_cons_of_mem _ ht)]
      rfl

theorem phrases_rename {names names' : Naming} (quoted : Bool) :
    (ts : List Term) → (∀ t ∈ ts, Carries r names names' t) →
      phrases ⟨quoted, names'⟩ (renameAll r ts) = phrases ⟨quoted, names⟩ ts
  | [], _ => rfl
  | t :: ts, same => by
      rw [List.forall_mem_cons] at same
      rw [renameAll, phrases, phrases, phrase_rename quoted t same.1,
        phrases_rename quoted ts same.2]

end

theorem write_rename {names names' : Naming} (quoted : Bool) {t : Term}
    (same : Carries r names names' t) :
    (t.rename r).write ⟨quoted, names'⟩ = t.write ⟨quoted, names⟩ := by
  rw [write, writeWithin, phrase_rename quoted t same]
  rfl

end LogicFormat.Term

namespace LogicFormat.Naming

variable {r : Nat → Nat}

theorem find?_rename {names : Naming} {n : Nat}
    (apart : ∀ entry ∈ names, r entry.1 = r n → entry.1 = n) :
    find? (names.map fun entry => (r entry.1, entry.2)) (r n) = find? names n := by
  induction names with
  | nil => rfl
  | cons entry names ih =>
      rw [List.forall_mem_cons] at apart
      have same : r entry.1 = r n ↔ entry.1 = n := ⟨apart.1, congrArg r⟩
      rw [List.map_cons, find?, find?, ih apart.2]
      simp only [same]

theorem ofTerm_rename {t : Term} (apart : t.Apart r) :
    ofTerm (t.rename r) = (ofTerm t).map fun entry => (r entry.1, entry.2) := by
  rw [ofTerm, ofTerm, Term.vars_rename apart, List.zipIdx_map, List.map_map, List.map_map]
  rfl

/-- The names of a renamed term are the names of the term. -/
theorem carries_ofTerm {t : Term} (apart : t.Apart r) :
    Term.Carries r (ofTerm t) (ofTerm (t.rename r)) t := by
  intro n hn
  obtain ⟨i, -, given⟩ := find?_ofTerm (Term.mem_vars.mpr hn)
  have renamed : find? (ofTerm (t.rename r)) (r n) = find? (ofTerm t) n := by
    rw [ofTerm_rename apart]
    refine find?_rename fun entry found => ?_
    obtain ⟨⟨m, i⟩, position, rfl⟩ := List.mem_map.mp found
    exact apart m (List.fst_mem_of_mem_zipIdx position) n (Term.mem_vars.mpr hn)
  rw [nameOf_of_find? given, nameOf_of_find? (renamed.trans given)]

end LogicFormat.Naming

/-! ## Variables by their positions -/

namespace LogicFormat.Term

def position (t : Term) (n : Nat) : Nat := t.vars.idxOf n

theorem apart_position (t : Term) : t.Apart t.position :=
  fun _ hm _ _ same => (List.idxOf_inj hm).mp same

theorem vars_rename_position (t : Term) :
    (t.rename t.position).vars = List.range t.vars.length := by
  rw [vars_rename t.apart_position]
  refine List.ext_getElem (by simp) fun i bound _ => ?_
  rw [List.length_map] at bound
  rw [List.getElem_map, List.getElem_range]
  exact t.nodup_vars.idxOf_getElem i bound

theorem nameOf_ofTerm {t : Term} {n : Nat} (h : n ∈ t.vars) :
    (Naming.ofTerm t).nameOf n = Naming.generated (t.position n) := by
  obtain ⟨i, place, given⟩ := Naming.find?_ofTerm h
  obtain ⟨bound, same⟩ := List.getElem?_eq_some_iff.mp (List.mem_zipIdx_iff_getElem?.mp place)
  have here : t.position n = i := by
    have there := t.nodup_vars.idxOf_getElem i bound
    rwa [same] at there
  rw [here]
  exact Naming.nameOf_of_find? given

/-- Where variables are their own positions, their names can be read back. -/
theorem legible_position (t : Term) :
    Naming.Legible (Naming.ofTerm (t.rename t.position)).nameOf := by
  intro n
  by_cases h : n ∈ (t.rename t.position).vars
  · obtain ⟨i, position, given⟩ := Naming.find?_ofTerm h
    rw [vars_rename_position] at position
    obtain ⟨bound, same⟩ := List.getElem?_eq_some_iff.mp (List.mem_zipIdx_iff_getElem?.mp position)
    rw [List.getElem_range] at same
    cases same
    exact .inr (Naming.nameOf_of_find? given)
  · exact .inl (Naming.nameOf_ofTerm_of_not_mem h)

end LogicFormat.Term
