import LogicFormat.Proofs.Term.Renaming
import LogicFormat.Proofs.Term.Written
import Mathlib.Data.List.Forall2

/-!
# Lists in place of tuples

A tuple is written as the list of its items, and is no different from it for whatever stands around
it. Only a pair looks behind the text of what it ends in: a list goes on with its items, a tuple
does not.
-/

namespace LogicFormat

namespace Term

mutual

/-- The term with a list in place of every tuple in it. -/
def listed : Term → Term
  | .list items => .list (listedAll items)
  | .tuple items => .list (listedAll items)
  | .compound name first others => .compound name (listed first) (listedAll others)
  | t => t

def listedAll : List Term → List Term
  | [] => []
  | t :: ts => listed t :: listedAll ts

end

def isTuple : Term → Bool
  | .tuple _ => true
  | _ => false

/-- Whether the term is a pair with a tuple in the place of the rest of the list. -/
def endsInTuple : Term → Bool
  | .compound name _ [tail] => name = ['.'] && tail.isTuple
  | _ => false

theorem pair_of_endsInTuple {name : Text} {first : Term} {others : List Term}
    (h : (compound name first others).endsInTuple = true) : name = ['.'] ∧ others.length = 1 := by
  unfold endsInTuple at h
  split at h
  · next same =>
      cases same
      simp only [Bool.and_eq_true, decide_eq_true_eq] at h
      exact ⟨h.1, rfl⟩
  · cases h

theorem length_listedAll (ts : List Term) : (listedAll ts).length = ts.length := by
  induction ts with
  | nil => rfl
  | cons t ts ih => rw [listedAll, List.length_cons, List.length_cons, ih]

theorem var?_listed (t : Term) : t.listed.var? = t.var? := by
  cases t <;> simp [listed, var?]

mutual

theorem preorder_listed : (t : Term) → t.listed.preorder = t.preorder.map listed
  | .list items => by simp [listed, preorder, preorderAll_listed items]
  | .tuple items => by simp [listed, preorder, preorderAll_listed items]
  | .compound name first others => by
      simp [listed, preorder, preorder_listed first, preorderAll_listed others]
  | .var _ | .atom _ | .int _ | .float _ | .bool _ | .null => by simp [listed, preorder]

theorem preorderAll_listed :
    (ts : List Term) → preorderAll (listedAll ts) = (preorderAll ts).map listed
  | [] => rfl
  | t :: ts => by
      rw [listedAll, preorderAll, preorderAll, List.map_append, preorder_listed t,
        preorderAll_listed ts]

end

theorem vars_listed (t : Term) : t.listed.vars = t.vars := by
  have same : t.listed.occurrences = t.occurrences := by
    rw [occurrences, occurrences, preorder_listed, List.filterMap_map]
    exact congrArg (fun var => t.preorder.filterMap var) (funext var?_listed)
  rw [vars_eq_eraseDups, vars_eq_eraseDups, same]

theorem null_mem_listed {t : Term} : .null ∈ t.listed.subterms ↔ .null ∈ t.subterms := by
  have only (s : Term) : s.listed = .null ↔ s = .null := by
    cases s <;> simp [listed]
  rw [mem_subterms, mem_subterms, preorder_listed]
  simp [only]

end Term

/-- Phrases that look alike to what stands around them, unless it is a pair. -/
structure Phrase.Alike (style : Style) (p q : Phrase) : Prop where
  within : ∀ bound, style.within bound p = style.within bound q
  operator : p.isOperator = q.isOperator
  numeral : p.isNumeral = q.isNumeral
  char : p.char? = q.char?

namespace Style

variable {style : Style} {p q : Phrase} {ps qs : List Phrase}

theorem operand_alike (h : p.Alike style q) (bound : Int) :
    style.operand bound p = style.operand bound q := by
  simp only [Style.operand, h.within, h.operator]

theorem item_alike (h : p.Alike style q) : style.item p = style.item q := by
  simp only [Style.item, h.within, h.char]

theorem map_alike {α : Type} {change : Phrase → α}
    (each : ∀ {p q : Phrase}, p.Alike style q → change p = change q)
    (h : List.Forall₂ (Phrase.Alike style) ps qs) : ps.map change = qs.map change := by
  induction h with
  | nil => rfl
  | cons first _ ih => rw [List.map_cons, List.map_cons, each first, ih]

theorem applied_alike (name : Text) (h : List.Forall₂ (Phrase.Alike style) ps qs) :
    style.applied name ps = style.applied name qs := by
  rw [Style.applied, Style.applied, map_alike (fun one => one.within argumentLevel) h]

/-- A compound term is put together alike from phrases that look alike, but for a pair, whose second
phrase has to be the same. -/
theorem compound_alike {name : Text} (first : p.Alike style q)
    (others : List.Forall₂ (Phrase.Alike style) ps qs)
    (behind : name = ['.'] → ps.length = 1 → ps = qs) :
    style.compound name p ps = style.compound name q qs := by
  cases others with
  | nil =>
      simp only [Style.compound, Style.braced, Style.unary, first.within, first.numeral,
        operand_alike first, applied_alike name (.cons first .nil)]
  | @cons second second' rest rest' two more =>
      cases more with
      | nil =>
          by_cases pair : name = ['.']
          · cases behind pair rfl
            simp only [Style.compound, if_pos pair, Style.pair, item_alike first]
          · simp only [Style.compound, if_neg pair, Style.binary, operand_alike first,
              operand_alike two, applied_alike name (.cons first (.cons two .nil))]
      | cons three more =>
          exact applied_alike name (.cons first (.cons two (.cons three more)))

end Style

namespace Term

variable {style : Style}

theorem tail_not_tuple {name : Text} {first : Term} {others : List Term}
    (plain : (compound name first others).endsInTuple = false) (dot : name = ['.'])
    (single : others.length = 1) : ∀ t ∈ others, t.isTuple = false := by
  obtain ⟨second, rfl⟩ := List.length_eq_one_iff.mp single
  subst dot
  simpa [endsInTuple] using plain

mutual

/-- Where no pair ends in a tuple, a tuple looks like the list in its place, and the phrase of
anything else stays what it is. -/
theorem phrase_listed : (t : Term) → (∀ s ∈ t.preorder, s.endsInTuple = false) →
    (p : Phrase) → t.phrase style = .ok p →
      ∃ q, t.listed.phrase style = .ok q ∧ p.Alike style q ∧ (t.isTuple = false → p = q)
  | .var _, _, p, written | .atom _, _, p, written | .int _, _, p, written
  | .float _, _, p, written | .bool _, _, p, written | .null, _, p, written =>
      ⟨p, by simpa [listed] using written, ⟨fun _ => rfl, rfl, rfl, rfl⟩, fun _ => rfl⟩
  | .list items, plain, p, written => by
      obtain ⟨ps, all, rfl⟩ := exists_phrase_of_list written
      obtain ⟨qs, same, alike, -⟩ := phrases_listed items
        (fun s hs => plain s (by simp [preorder, hs])) ps all
      have equal := Style.map_alike Style.item_alike alike
      rw [listed, phrase, same, equal]
      exact ⟨_, rfl, ⟨fun _ => rfl, rfl, rfl, rfl⟩, fun _ => rfl⟩
  | .tuple items, plain, p, written => by
      obtain ⟨ps, all, rfl⟩ := exists_phrase_of_tuple written
      obtain ⟨qs, same, alike, -⟩ := phrases_listed items
        (fun s hs => plain s (by simp [preorder, hs])) ps all
      have equal := Style.map_alike Style.item_alike alike
      rw [listed, phrase, same, equal]
      refine ⟨_, rfl, ⟨fun _ => rfl, rfl, rfl, rfl⟩, fun other => ?_⟩
      cases other
  | .compound name first others, plain, p, written => by
      obtain ⟨one, ps, isOne, all, rfl⟩ := exists_phrase_of_compound written
      obtain ⟨q, sameOne, alike, -⟩ := phrase_listed first
        (fun s hs => plain s (by simp [preorder, hs])) one isOne
      obtain ⟨qs, same, rest, exact⟩ := phrases_listed others
        (fun s hs => plain s (by simp [preorder, hs])) ps all
      have root : (compound name first others).endsInTuple = false :=
        plain _ (by simp [preorder])
      have equal : style.compound name one ps = style.compound name q qs := by
        refine Style.compound_alike alike rest fun dot single => exact ?_
        exact tail_not_tuple root dot (by rw [← length_phrases all, single])
      rw [listed, phrase, sameOne, Outcome.ok_bind, same, equal]
      exact ⟨_, rfl, ⟨fun _ => rfl, rfl, rfl, rfl⟩, fun _ => rfl⟩

theorem phrases_listed : (ts : List Term) → (∀ s ∈ preorderAll ts, s.endsInTuple = false) →
    (ps : List Phrase) → phrases style ts = .ok ps →
      ∃ qs, phrases style (listedAll ts) = .ok qs ∧ List.Forall₂ (Phrase.Alike style) ps qs ∧
        ((∀ t ∈ ts, t.isTuple = false) → ps = qs)
  | [], _, ps, written => by
      cases written
      exact ⟨[], rfl, .nil, fun _ => rfl⟩
  | t :: ts, plain, ps, written => by
      obtain ⟨p, ps, isOne, all, rfl⟩ := exists_phrases_of_cons written
      obtain ⟨q, sameOne, alike, exactOne⟩ := phrase_listed t
        (fun s hs => plain s (by simp [preorderAll, hs])) p isOne
      obtain ⟨qs, same, rest, exact⟩ := phrases_listed ts
        (fun s hs => plain s (by simp [preorderAll, hs])) ps all
      rw [listedAll, phrases, sameOne, Outcome.ok_bind, same]
      refine ⟨_, rfl, .cons alike rest, fun none => ?_⟩
      rw [List.forall_mem_cons] at none
      rw [exactOne none.1, exact none.2]

end

theorem writeWithin_listed (bound : Int) {t : Term}
    (plain : ∀ s ∈ t.subterms, s.endsInTuple = false) :
    t.listed.writeWithin style bound = t.writeWithin style bound := by
  by_cases null : .null ∈ t.subterms
  · rw [(refuses_writeWithin style bound t).refused null,
      (refuses_writeWithin style bound t.listed).refused (null_mem_listed.mpr null)]
  · obtain ⟨text, written⟩ := (refuses_writeWithin style bound t).written null
    obtain ⟨p, isPhrase, -⟩ := Outcome.bind_eq_ok.mp written
    rw [subterms_eq_preorder] at plain
    obtain ⟨q, same, alike, -⟩ := phrase_listed t plain p isPhrase
    rw [writeWithin, same, writeWithin, isPhrase, Outcome.ok_bind, Outcome.ok_bind, alike.within]

end Term

end LogicFormat
