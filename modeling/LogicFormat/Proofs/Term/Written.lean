import LogicFormat.Term.Written
import LogicFormat.Proofs.Term.Subterms

/-!
# Parts of written terms

A term that can be written has parts that can, and its phrase is put together from theirs. A term
is refused if `null` occurs in it, and nothing else ever goes wrong with it.
-/

namespace LogicFormat

namespace Term

variable {style : Style} {p : Phrase} {ps : List Phrase}

theorem exists_phrase_of_list {items : List Term} (written : (list items).phrase style = .ok p) :
    ∃ ps, phrases style items = .ok ps ∧ p = .sequence (ps.map style.item) none := by
  rw [phrase] at written
  obtain ⟨ps, all, written⟩ := Outcome.bind_eq_ok.mp written
  cases written
  exact ⟨ps, all, rfl⟩

theorem exists_phrase_of_tuple {items : List Term} (written : (tuple items).phrase style = .ok p) :
    ∃ ps, phrases style items = .ok ps ∧
      p = .closed (style.sequence (ps.map style.item) none) := by
  rw [phrase] at written
  obtain ⟨ps, all, written⟩ := Outcome.bind_eq_ok.mp written
  cases written
  exact ⟨ps, all, rfl⟩

theorem exists_phrase_of_compound {name : Text} {first : Term} {others : List Term}
    (written : (compound name first others).phrase style = .ok p) :
    ∃ one ps, first.phrase style = .ok one ∧ phrases style others = .ok ps ∧
      p = style.compound name one ps := by
  rw [phrase] at written
  obtain ⟨one, isOne, written⟩ := Outcome.bind_eq_ok.mp written
  obtain ⟨ps, all, written⟩ := Outcome.bind_eq_ok.mp written
  cases written
  exact ⟨one, ps, isOne, all, rfl⟩

theorem exists_phrases_of_cons {t : Term} {ts : List Term}
    (written : phrases style (t :: ts) = .ok ps) :
    ∃ one others, t.phrase style = .ok one ∧ phrases style ts = .ok others ∧
      ps = one :: others := by
  rw [phrases] at written
  obtain ⟨one, isOne, written⟩ := Outcome.bind_eq_ok.mp written
  obtain ⟨others, all, written⟩ := Outcome.bind_eq_ok.mp written
  cases written
  exact ⟨one, others, isOne, all, rfl⟩

theorem exists_phrase_of_singleton {t : Term} (written : phrases style [t] = .ok ps) :
    ∃ p, t.phrase style = .ok p ∧ ps = [p] := by
  obtain ⟨p, others, isPhrase, none, rfl⟩ := exists_phrases_of_cons written
  cases none
  exact ⟨p, isPhrase, rfl⟩

theorem length_phrases {ts : List Term} (written : phrases style ts = .ok ps) :
    ps.length = ts.length := by
  induction ts generalizing ps with
  | nil =>
      rw [phrases] at written
      cases written
      rfl
  | cons t ts ih =>
      obtain ⟨one, others, -, all, rfl⟩ := exists_phrases_of_cons written
      rw [List.length_cons, List.length_cons, ih all]

theorem exists_phrase_of_write {t : Term} {text : Text} (written : t.write style = .ok text) :
    ∃ p, t.phrase style = .ok p ∧ text = style.within termLevel p := by
  obtain ⟨p, isPhrase, written⟩ := Outcome.bind_eq_ok.mp written
  cases written
  exact ⟨p, isPhrase, rfl⟩

end Term

/-! ## Terms that can be written -/

variable {α β : Type}

/-- The outcome is refused as unwritable exactly if `p`, and a success otherwise. -/
structure Refuses (p : Prop) (outcome : Except Fault α) : Prop where
  refused : p → outcome = .error .unwritable
  written : ¬ p → ∃ a, outcome = .ok a

namespace Refuses

variable {p q : Prop} {first : Except Fault α} {next : α → Except Fault β}

theorem never (a : α) : Refuses False (.ok a) := ⟨False.elim, fun _ => ⟨a, rfl⟩⟩

theorem always : Refuses True (.error .unwritable : Except Fault α) :=
  ⟨fun _ => rfl, fun h => absurd trivial h⟩

theorem bind (one : Refuses p first) (two : ∀ a, Refuses q (next a)) :
    Refuses (p ∨ q) (first >>= next) := by
  by_cases hp : p
  · refine ⟨fun _ => ?_, fun h => absurd (.inl hp) h⟩
    rw [one.refused hp, Outcome.error_bind]
  · obtain ⟨a, ok⟩ := one.written hp
    rw [ok, Outcome.ok_bind]
    exact ⟨fun h => (two a).refused (h.resolve_left hp), fun h => (two a).written (h ∘ .inr)⟩

theorem map (one : Refuses p first) (result : α → β) : Refuses p (result <$> first) := by
  refine ⟨fun hp => ?_, fun hp => ?_⟩
  · rw [one.refused hp]
    rfl
  · obtain ⟨a, ok⟩ := one.written hp
    rw [ok]
    exact ⟨result a, rfl⟩

theorem eq_error_iff {fault : Fault} {outcome : Except Fault α} (h : Refuses p outcome) :
    outcome = .error fault ↔ fault = .unwritable ∧ p := by
  by_cases hp : p
  · simp [h.refused hp, hp, eq_comm]
  · obtain ⟨a, ok⟩ := h.written hp
    simp [ok, hp]

end Refuses

namespace Term

variable (style : Style)

mutual

theorem refuses_phrase : (t : Term) → Refuses (.null ∈ t.preorder) (t.phrase style)
  | .var n => by rw [phrase]; simpa [preorder] using Refuses.never _
  | .atom name => by rw [phrase]; simpa [preorder] using Refuses.never _
  | .int n => by rw [phrase]; simpa [preorder] using Refuses.never _
  | .float x => by rw [phrase]; simpa [preorder] using Refuses.never _
  | .bool b => by rw [phrase]; simpa [preorder] using Refuses.never _
  | .null => by rw [phrase]; simpa [preorder] using Refuses.always
  | .list items => by
      rw [phrase]
      simpa [preorder] using (refuses_phrases items).map _
  | .tuple items => by
      rw [phrase]
      simpa [preorder] using (refuses_phrases items).map _
  | .compound name first others => by
      rw [phrase]
      simpa [preorder] using (refuses_phrase first).bind fun one =>
        (refuses_phrases others).map fun rest => style.compound name one rest

theorem refuses_phrases : (ts : List Term) →
    Refuses (.null ∈ preorderAll ts) (phrases style ts)
  | [] => by rw [phrases]; simpa [preorderAll] using Refuses.never _
  | t :: ts => by
      rw [phrases]
      simpa [preorderAll] using (refuses_phrase t).bind fun first =>
        (refuses_phrases ts).map fun rest => first :: rest

end

/-- The fate of a term does not depend on where it is written. -/
theorem refuses_writeWithin (bound : Int) (t : Term) :
    Refuses (.null ∈ t.subterms) (t.writeWithin style bound) := by
  rw [mem_subterms, writeWithin]
  simpa using (refuses_phrase style t).map (style.within bound)

theorem exists_write {t : Term} (writable : .null ∉ t.preorder) :
    ∃ text, t.write style = .ok text :=
  (refuses_writeWithin style termLevel t).written (mt mem_subterms.mp writable)

end Term

end LogicFormat
