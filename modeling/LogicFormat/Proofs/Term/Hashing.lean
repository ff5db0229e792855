import LogicFormat.Proofs.Term.Equality
import LogicFormat.Term.Equality

/-!
# Hashes and equality

The hash of a term is a hash of its form, so that equal terms have the same one. A term has a hash
exactly if there is no list in it.
-/

namespace LogicFormat

namespace Form

mutual

/-- A hash of which numbers of different kinds make no difference. -/
def hash (hashing : Hashing) : Form → Except Fault Int
  | .var n => .ok (hashing.var n)
  | .atom name => .ok (hashing.atom name)
  | .number value => .ok (hashing.number value)
  | .null => .ok hashing.null
  | .list _ => .error .listNotComparable
  | .tuple items => do
      let hashes ← hashAll hashing items
      return hashing.tuple hashes
  | .compound name first others => do
      let first ← hash hashing first
      let others ← hashAll hashing others
      return hashing.tuple [hashing.atom name, hashing.tuple (first :: others)]

def hashAll (hashing : Hashing) : List Form → Except Fault (List Int)
  | [] => .ok []
  | form :: forms => do
      let first ← hash hashing form
      let rest ← hashAll hashing forms
      return first :: rest

end

end Form

namespace Term

section

variable (hashing : Hashing)

mutual

theorem hash_eq_form : (t : Term) → t.hash hashing = t.form.hash hashing
  | .var _ => rfl
  | .atom _ => rfl
  | .int _ => rfl
  | .float _ => rfl
  | .bool _ => rfl
  | .null => rfl
  | .list _ => rfl
  | .tuple items => by rw [hash, form, Form.hash, hashAll_eq_forms items]
  | .compound _ first others => by
      rw [hash, form, Form.hash, hash_eq_form first, hashAll_eq_forms others]

theorem hashAll_eq_forms : (ts : List Term) → hashAll hashing ts = Form.hashAll hashing (forms ts)
  | [] => rfl
  | t :: ts => by rw [hashAll, forms, Form.hashAll, hash_eq_form t, hashAll_eq_forms ts]

end

theorem hash_eq_of_equals {s t : Term} (same : s.equals t = true) :
    s.hash hashing = t.hash hashing := by
  rw [hash_eq_form, hash_eq_form, ((equals_iff s t).mp same).1]

mutual

theorem exists_hash : (t : Term) → t.holdsList = false → ∃ n, t.hash hashing = .ok n
  | .var _, _ => ⟨_, rfl⟩
  | .atom _, _ => ⟨_, rfl⟩
  | .int _, _ => ⟨_, rfl⟩
  | .float _, _ => ⟨_, rfl⟩
  | .bool _, _ => ⟨_, rfl⟩
  | .null, _ => ⟨_, rfl⟩
  | .list _, free => by cases free
  | .tuple items, free => by
      obtain ⟨hashes, all⟩ := exists_hashAll items free
      exact ⟨hashing.tuple hashes, by rw [hash, all]; rfl⟩
  | .compound name first others, free => by
      obtain ⟨freeFirst, freeOthers⟩ := Bool.or_eq_false_iff.mp free
      obtain ⟨one, hashed⟩ := exists_hash first freeFirst
      obtain ⟨hashes, all⟩ := exists_hashAll others freeOthers
      exact ⟨hashing.tuple [hashing.atom name, hashing.tuple (one :: hashes)], by
        rw [hash, hashed, all]; rfl⟩

theorem exists_hashAll : (ts : List Term) → anyHoldsList ts = false →
    ∃ hashes, hashAll hashing ts = .ok hashes
  | [], _ => ⟨[], rfl⟩
  | t :: ts, free => by
      obtain ⟨freeFirst, freeRest⟩ := Bool.or_eq_false_iff.mp free
      obtain ⟨one, hashed⟩ := exists_hash t freeFirst
      obtain ⟨hashes, all⟩ := exists_hashAll ts freeRest
      exact ⟨one :: hashes, by rw [hashAll, hashed, all]; rfl⟩

end

mutual

/-- The first list inside a term is come upon when everything before it has a hash. -/
theorem hash_of_holdsList : (t : Term) → t.holdsList = true →
    t.hash hashing = .error .listNotComparable
  | .list _, _ => rfl
  | .tuple items, found => by
      rw [hash, hashAll_of_anyHoldsList items found]
      rfl
  | .compound _ first others, found => by
      cases inside : first.holdsList with
      | true =>
          rw [hash, hash_of_holdsList first inside]
          rfl
      | false =>
          obtain ⟨one, hashed⟩ := exists_hash hashing first inside
          rw [holdsList, inside, Bool.false_or] at found
          rw [hash, hashed, Outcome.ok_bind, hashAll_of_anyHoldsList others found]
          rfl

theorem hashAll_of_anyHoldsList : (ts : List Term) → anyHoldsList ts = true →
    hashAll hashing ts = .error .listNotComparable
  | t :: ts, found => by
      cases inside : t.holdsList with
      | true =>
          rw [hashAll, hash_of_holdsList t inside]
          rfl
      | false =>
          obtain ⟨one, hashed⟩ := exists_hash hashing t inside
          rw [anyHoldsList, inside, Bool.false_or] at found
          rw [hashAll, hashed, Outcome.ok_bind, hashAll_of_anyHoldsList ts found]
          rfl

end

end

mutual

theorem holdsList_iff : (t : Term) → (t.holdsList = true ↔ ∃ items, .list items ∈ t.preorder)
  | .var _ => by simp [holdsList, preorder]
  | .atom _ => by simp [holdsList, preorder]
  | .int _ => by simp [holdsList, preorder]
  | .float _ => by simp [holdsList, preorder]
  | .bool _ => by simp [holdsList, preorder]
  | .null => by simp [holdsList, preorder]
  | .list items => by simp [holdsList, preorder]
  | .tuple items => by simp [holdsList, preorder, anyHoldsList_iff items]
  | .compound _ first others => by
      simp [holdsList, preorder, holdsList_iff first, anyHoldsList_iff others, exists_or]

theorem anyHoldsList_iff : (ts : List Term) →
    (anyHoldsList ts = true ↔ ∃ items, .list items ∈ preorderAll ts)
  | [] => by simp [anyHoldsList, preorderAll]
  | t :: ts => by
      simp [anyHoldsList, preorderAll, holdsList_iff t, anyHoldsList_iff ts, exists_or]

end

theorem anyHoldsList_iff_exists {ts : List Term} :
    anyHoldsList ts = true ↔ ∃ t ∈ ts, ∃ items, .list items ∈ t.subterms := by
  simp only [anyHoldsList_iff, preorderAll_eq_flatMap, List.mem_flatMap, mem_subterms]
  tauto

end Term

end LogicFormat
