import LogicFormat.Proofs.Term.Hashing

/-!
# Terms without their duplicates

Equal terms have the same hash, so that a term is found among the keys of its hash if it is equal to
any key. What is left of some terms is therefore the first of every class of equal ones.
-/

namespace LogicFormat

namespace Term

/-! ## The first of every class -/

theorem firstOfEach_sublist (ts : List Term) : (firstOfEach ts).Sublist ts := by
  induction ts with
  | nil => exact .refl _
  | cons t ts ih => exact (List.filter_sublist.trans ih).cons_cons t

theorem pairwise_firstOfEach (ts : List Term) :
    (firstOfEach ts).Pairwise fun s t => s.equals t = false := by
  induction ts with
  | nil => exact .nil
  | cons t ts ih =>
      refine List.pairwise_cons.mpr ⟨fun s member => ?_, ih.filter _⟩
      simpa using (List.mem_filter.mp member).2

/-- A term that is equal to one of two terms apart is not equal to the other. -/
theorem apart_of_equals {s t u : Term} (apart : t.equals s = false) (same : t.equals u = true) :
    s.equals u = false := by
  rw [equals_comm, ← equals_congr same s, apart]

/-- Of the terms equal to a given one, the first is left and no other. -/
theorem filter_firstOfEach (t : Term) (ts : List Term) :
    (firstOfEach ts).filter t.equals = (ts.find? t.equals).toList := by
  induction ts with
  | nil => rfl
  | cons s ts ih =>
      rw [firstOfEach]
      cases same : t.equals s with
      | true =>
          have rest : ((firstOfEach ts).filter fun u => !s.equals u).filter t.equals = [] := by
            rw [List.filter_filter, List.filter_eq_nil_iff]
            intro u _
            rw [equals_congr same u]
            simp
          rw [List.filter_cons_of_pos same, List.find?_cons_of_pos same, rest]
          rfl
      | false =>
          have rest : ((firstOfEach ts).filter fun u => !s.equals u).filter t.equals =
              (firstOfEach ts).filter t.equals := by
            rw [List.filter_filter]
            refine List.filter_congr fun u _ => ?_
            cases other : t.equals u with
            | false => rfl
            | true => rw [apart_of_equals same other]; rfl
          have apart : ¬ t.equals s = true := Bool.not_eq_true _ ▸ same
          rw [List.filter_cons_of_neg apart, List.find?_cons_of_neg apart, rest, ih]

def isNew (known : List Term) (t : Term) : Bool := !known.any (·.equals t)

/-- The first of every class to which none of the terms `known` belongs. -/
def fresh (known ts : List Term) : List Term := (firstOfEach ts).filter (isNew known)

theorem fresh_nil (ts : List Term) : fresh [] ts = firstOfEach ts :=
  List.filter_eq_self.mpr fun _ _ => rfl

theorem fresh_cons_of_known {known : List Term} {t : Term} (ts : List Term)
    (member : known.any (·.equals t) = true) : fresh known (t :: ts) = fresh known ts := by
  obtain ⟨key, isKey, same⟩ := List.any_eq_true.mp member
  have dropped : ¬ isNew known t = true := by
    rw [isNew, member]
    exact Bool.noConfusion
  rw [fresh, firstOfEach, List.filter_cons_of_neg dropped, List.filter_filter, fresh]
  refine List.filter_congr fun s _ => ?_
  cases other : t.equals s with
  | false => rw [Bool.not_false, Bool.and_true]
  | true =>
      have found : known.any (·.equals s) = true :=
        List.any_eq_true.mpr ⟨key, isKey, equals_trans same other⟩
      rw [isNew, found]
      rfl

theorem fresh_cons_of_new {known : List Term} {t : Term} (ts : List Term)
    (new : known.any (·.equals t) = false) :
    fresh known (t :: ts) = t :: fresh (known ++ [t]) ts := by
  have left : isNew known t = true := by
    rw [isNew, new]
    rfl
  rw [fresh, firstOfEach, List.filter_cons_of_pos left, List.filter_filter, fresh]
  refine congrArg (t :: ·) (List.filter_congr fun s _ => ?_)
  rw [isNew, isNew, List.any_append, List.any_cons, List.any_nil, Bool.or_false, Bool.not_or]

end Term

/-! ## Dictionaries -/

namespace Dictionary

variable {hashing : Hashing}

def Sound (hashing : Hashing) (keys : Dictionary) : Prop :=
  ∀ hash key, (hash, key) ∈ keys → key.hash hashing = .ok hash

/-- A key that is equal to a term has its hash, so that no such key is passed over. -/
theorem holds_eq {keys : Dictionary} (sound : keys.Sound hashing) {t : Term} {hash : Int}
    (hashed : t.hash hashing = .ok hash) :
    keys.holds hash t = (keys.map Prod.snd).any (·.equals t) := by
  induction keys with
  | nil => rfl
  | cons entry keys ih =>
      obtain ⟨keyHash, key⟩ := entry
      have first : (keyHash == hash && key.equals t) = key.equals t := by
        cases same : key.equals t with
        | false => exact Bool.and_false _
        | true =>
            have one := (sound keyHash key List.mem_cons_self).symm.trans
              ((Term.hash_eq_of_equals hashing same).trans hashed)
            rw [Except.ok.inj one, beq_self_eq_true, Bool.and_self]
      have others := ih fun hash key member => sound hash key (List.mem_cons_of_mem _ member)
      rw [List.map_cons, List.any_cons, ← others, ← first]
      rfl

def extended (keys : Dictionary) (hash : Int) (t : Term) : Dictionary :=
  if (keys.map Prod.snd).any (·.equals t) then keys else keys ++ [(hash, t)]

theorem insert_eq {keys : Dictionary} (sound : keys.Sound hashing) {t : Term} {hash : Int}
    (hashed : t.hash hashing = .ok hash) :
    keys.insert hashing t = .ok (keys.extended hash t) := by
  rw [insert, hashed, Outcome.ok_bind, holds_eq sound hashed]
  rfl

theorem Sound.extended {keys : Dictionary} (sound : keys.Sound hashing) {t : Term} {hash : Int}
    (hashed : t.hash hashing = .ok hash) : (keys.extended hash t).Sound hashing := by
  unfold Dictionary.extended
  split
  · exact sound
  · intro keyHash key member
    rcases List.mem_append.mp member with earlier | last
    · exact sound keyHash key earlier
    · cases List.mem_singleton.mp last
      exact hashed

theorem foldlM_insert_of_list {ts : List Term} (found : Term.anyHoldsList ts = true)
    {keys : Dictionary} (sound : keys.Sound hashing) :
    ts.foldlM (insert hashing) keys = .error .listNotComparable := by
  induction ts generalizing keys with
  | nil => cases found
  | cons t ts ih =>
      rw [List.foldlM_cons]
      cases inside : t.holdsList with
      | true =>
          rw [insert, Term.hash_of_holdsList hashing t inside]
          rfl
      | false =>
          obtain ⟨hash, hashed⟩ := Term.exists_hash hashing t inside
          rw [Term.anyHoldsList, inside, Bool.false_or] at found
          rw [insert_eq sound hashed, Outcome.ok_bind, ih found (sound.extended hashed)]

theorem exists_foldlM_insert {ts : List Term} (free : Term.anyHoldsList ts = false)
    {keys : Dictionary} (sound : keys.Sound hashing) :
    ∃ last : Dictionary, ts.foldlM (insert hashing) keys = .ok last ∧
      last.map Prod.snd = keys.map Prod.snd ++ Term.fresh (keys.map Prod.snd) ts := by
  induction ts generalizing keys with
  | nil => exact ⟨keys, rfl, (List.append_nil _).symm⟩
  | cons t ts ih =>
      obtain ⟨freeFirst, freeRest⟩ := Bool.or_eq_false_iff.mp free
      obtain ⟨hash, hashed⟩ := Term.exists_hash hashing t freeFirst
      obtain ⟨last, done, left⟩ := ih freeRest (sound.extended hashed)
      refine ⟨last, ?_, ?_⟩
      · rw [List.foldlM_cons, insert_eq sound hashed, Outcome.ok_bind, done]
      · rw [left, extended]
        split
        · next known => rw [Term.fresh_cons_of_known ts known]
        · next new =>
            rw [List.map_append, List.map_singleton, List.append_assoc, List.singleton_append,
              Term.fresh_cons_of_new ts (Bool.not_eq_true _ ▸ new)]

theorem distinctBy_eq (hashing : Hashing) (ts : List Term) :
    Term.distinctBy hashing ts = Term.distinct ts := by
  have sound : Sound hashing [] := nofun
  unfold Term.distinctBy Term.distinct
  split
  · next found =>
      rw [foldlM_insert_of_list found sound]
      rfl
  · next free =>
      obtain ⟨last, done, left⟩ := exists_foldlM_insert (Bool.not_eq_true _ ▸ free) sound
      rw [done, Outcome.ok_bind, left, List.map_nil, List.nil_append, Term.fresh_nil]
      rfl

end Dictionary

namespace Term

/-- Equality of terms without undefined numbers is an equivalence: to be equal is to have the same
form. Hashes respect it, and dictionaries find duplicates by it. Of terms without lists, what is
left is a subsequence of terms that are all apart, and among these there is one for every term,
which is the first of all that are equal to it. A list anywhere is a fault. -/
theorem equals_classes (hashing : Hashing) :
    (∀ s t : Term, s.equals t = true ↔ s.form = t.form ∧ s.Defined ∧ t.Defined) ∧
    (∀ t : Term, t.Defined → t.equals t = true) ∧
    (∀ s t : Term, s.equals t = t.equals s) ∧
    (∀ s t u : Term, s.equals t = true → t.equals u = true → s.equals u = true) ∧
    (∀ s t : Term, s.differs t = !s.equals t) ∧
    (∀ s t : Term, s.equals t = true → s.hash hashing = t.hash hashing) ∧
    (∀ ts : List Term, distinctBy hashing ts = distinct ts) ∧
    (∀ ts : List Term, (∃ t ∈ ts, ∃ items, .list items ∈ t.subterms) →
      distinct ts = .error .listNotComparable) ∧
    ∀ ts : List Term, (∀ t ∈ ts, t.Defined ∧ ∀ items, .list items ∉ t.subterms) →
      ∃ kept, distinct ts = .ok kept ∧ kept.Sublist ts ∧
        kept.Pairwise (fun s t => s.equals t = false) ∧
        ∀ t ∈ ts, ∃ first, ts.find? t.equals = some first ∧ kept.filter t.equals = [first] := by
  refine ⟨equals_iff, fun _ => equals_refl, equals_comm, fun _ _ _ => equals_trans, differs_eq,
    fun _ _ => hash_eq_of_equals hashing, Dictionary.distinctBy_eq hashing, fun ts inside => ?_,
    fun ts plain => ?_⟩
  · rw [distinct, if_pos (anyHoldsList_iff_exists.mpr inside)]
  · have free : ¬ anyHoldsList ts = true := by
      rw [anyHoldsList_iff_exists]
      rintro ⟨t, member, items, found⟩
      exact (plain t member).2 items found
    refine ⟨firstOfEach ts, if_neg free, firstOfEach_sublist ts, pairwise_firstOfEach ts, ?_⟩
    intro t member
    obtain ⟨first, found⟩ := Option.isSome_iff_exists.mp
      (List.find?_isSome.mpr ⟨t, member, equals_refl (plain t member).1⟩)
    exact ⟨first, found, by rw [filter_firstOfEach, found]; rfl⟩

/-- Hashes by residues. A half counts as `2 ^ 60`, and no hash is `-1`. -/
def residues : Hashing where
  var n := n
  atom name := name.foldl (fun hash c => 31 * hash + c.toNat) 7
  number
    | .finite value =>
        let residue := (value.num.natAbs <<< (60 * value.den.log2)) % 2305843009213693951
        let signed : Int := if value.num < 0 then -residue else residue
        if signed = -1 then -2 else signed
    | .infinite negative => if negative then -314159 else 314159
    | .undefined => 0
  null := 4238894208
  tuple hashes := hashes.foldl (fun hash part => 1000003 * hash + part) 3430008

def wrapped (t : Term) : Term := .compound ['f'] (.tuple [t]) []

def unit : Binary64 := ⟨0x3ff0000000000000⟩

def mixed : List Term :=
  [.int (-1), wrapped (.int 1), .int (-2), wrapped (.float unit), .float ⟨0xbff0000000000000⟩,
    .float ⟨0x3fe0000000000000⟩, wrapped (.bool true)]

theorem equals_classes_mixed :
    (wrapped (.int 1)).Defined ∧ (wrapped (.int 1)).equals (wrapped (.int 1)) = true ∧
    (wrapped (.int 1)).equals (wrapped (.float unit)) = true ∧
    (wrapped (.float unit)).equals (wrapped (.bool true)) = true ∧
    (wrapped (.int 1)).equals (wrapped (.bool true)) = true ∧
    (wrapped (.int 1)).hash residues = (wrapped (.bool true)).hash residues ∧
    (int (-1)).hash residues = (int (-2)).hash residues ∧
    (∀ t ∈ mixed, t.Defined ∧ ∀ items, .list items ∉ t.subterms) ∧
    distinctBy residues mixed =
      .ok [.int (-1), wrapped (.int 1), .int (-2), .float ⟨0x3fe0000000000000⟩] ∧
    (∃ kept, distinct mixed = .ok kept ∧ kept.Sublist mixed ∧
      kept.Pairwise (fun s t => s.equals t = false) ∧
      ∀ t ∈ mixed, ∃ first, mixed.find? t.equals = some first ∧ kept.filter t.equals = [first]) ∧
    (∃ t ∈ mixed ++ [wrapped (.list [])], ∃ items, .list items ∈ t.subterms) ∧
    distinct (mixed ++ [wrapped (.list [])]) = .error .listNotComparable := by
  obtain ⟨-, same, -, through, -, hashed, -, refused, kept⟩ := equals_classes residues
  have defined : (wrapped (.int 1)).Defined := by simp [wrapped]
  have first : (wrapped (.int 1)).equals (wrapped (.float unit)) = true := by decide +kernel
  have second : (wrapped (.float unit)).equals (wrapped (.bool true)) = true := by decide +kernel
  have third := through _ _ _ first second
  have plain : ∀ t ∈ mixed, t.Defined ∧ ∀ items, .list items ∉ t.subterms := by
    have free : ¬ anyHoldsList mixed = true := by decide
    have unitDefined : Quantity.ofDouble unit ≠ .undefined := by decide +kernel
    have minusDefined : Quantity.ofDouble ⟨0xbff0000000000000⟩ ≠ .undefined := by decide +kernel
    have halfDefined : Quantity.ofDouble ⟨0x3fe0000000000000⟩ ≠ .undefined := by decide +kernel
    have numbers : ∀ t ∈ mixed, t.Defined := by
      simp [mixed, wrapped, unitDefined, minusDefined, halfDefined]
    intro t member
    refine ⟨numbers t member, fun items found => free ?_⟩
    exact anyHoldsList_iff_exists.mpr ⟨t, member, items, found⟩
  have inside : ∃ t ∈ mixed ++ [wrapped (.list [])], ∃ items, .list items ∈ t.subterms :=
    anyHoldsList_iff_exists.mp (by decide)
  exact ⟨defined, same _ defined, first, second, third, hashed _ _ third, by decide +kernel, plain,
    by decide +kernel, kept mixed plain, inside, refused _ inside⟩

end Term

end LogicFormat
