import LogicFormat.Proofs.Term.Quotation

/-!
# Lists put together from pairs

A list is also given by pairs, one for each of its first items, with the rest of it at the end. Its
phrase is that of the plain list, whichever of its items stand in pairs.
-/

namespace LogicFormat.Term

/-- Pairs of the items, one inside the other, and at their end a term of any kind. -/
def chain : List Term → Term → Term
  | [], ending => ending
  | item :: items, ending => .compound ['.'] item [chain items ending]

theorem phrase_pair (style : Style) (head tail : Term) :
    (compound ['.'] head [tail]).phrase style = (do
      let front ← head.phrase style
      let behind ← tail.phrase style
      return style.pair front behind) := by
  rw [phrase, phrases, phrases]
  cases head.phrase style with
  | error fault => rfl
  | ok front => cases tail.phrase style <;> rfl

theorem phrase_pair_list (style : Style) {head tail : Term} {items : List Term}
    (same : tail.phrase style = (list items).phrase style) :
    (compound ['.'] head [tail]).phrase style = (list (head :: items)).phrase style := by
  rw [phrase_pair, same, phrase, phrase, phrases]
  cases head.phrase style with
  | error fault => rfl
  | ok front => cases phrases style items <;> rfl

theorem phrase_chain_list (style : Style) (xs ys : List Term) :
    (chain xs (.list ys)).phrase style = (list (xs ++ ys)).phrase style := by
  induction xs with
  | nil => rfl
  | cons x xs ih => exact phrase_pair_list style ih

theorem phrase_chain_empty (style : Style) (x : Term) (xs : List Term) :
    (chain (x :: xs) (.atom "[]")).phrase style = (list (x :: xs)).phrase style := by
  induction xs generalizing x with
  | nil =>
      rw [chain, chain, phrase_pair, phrase, phrase, phrases, phrases]
      cases x.phrase style <;> rfl
  | cons y xs ih => exact phrase_pair_list style (ih y)

/-- Where the items stand in a list does not show: some of them in pairs before the list of the
others, all of them in pairs before the atom `[]`, or all in one list. In quoted text a list of
one-character atoms is their text between double quotes, in pairs or not. -/
theorem write_chain (style : Style) (bound : Int) (x : Term) (xs ys : List Term) :
    (chain (x :: xs) (.list ys)).writeWithin style bound =
        (list (x :: xs ++ ys)).writeWithin style bound ∧
      (chain (x :: xs) (.atom "[]")).writeWithin style bound =
        (list (x :: xs)).writeWithin style bound ∧
      ∀ chars : Text, style.quoted = true → x :: xs ++ ys = chars.map (fun c => .atom [c]) →
        (chain (x :: xs) (.list ys)).writeWithin style bound = .ok (Atom.between '"' chars) := by
  have plain := phrase_chain_list style (x :: xs) ys
  refine ⟨?_, ?_, fun chars quoted single => ?_⟩
  · rw [writeWithin, plain, writeWithin]
  · rw [writeWithin, phrase_chain_empty, writeWithin]
  · have nonempty : chars ≠ [] := by
      rintro rfl
      cases single
    rw [writeWithin, plain, single, phrase, phrases_characters, Outcome.ok_bind,
      ← sequence_characters style quoted nonempty, List.map_map]
    rfl

theorem write_chain_characters :
    [.atom ['a'], .atom ['b'], .atom ['|'], .atom ['c']] =
        ("ab|c" : Text).map (fun c => Term.atom [c]) ∧
      (chain [.atom ['a'], .atom ['b']] (.list [.atom ['|'], .atom ['c']])).writeWithin
          ⟨true, []⟩ 999 =
        (list [.atom ['a'], .atom ['b'], .atom ['|'], .atom ['c']]).writeWithin ⟨true, []⟩ 999 ∧
      (chain [.atom ['a'], .atom ['b']] (.list [.atom ['|'], .atom ['c']])).writeWithin
        ⟨true, []⟩ 999 = .ok "\"ab|c\"" := by
  have single : [.atom ['a'], .atom ['b'], .atom ['|'], .atom ['c']] =
      ("ab|c" : Text).map (fun c => Term.atom [c]) := rfl
  obtain ⟨same, -, string⟩ := write_chain ⟨true, []⟩ 999 (.atom ['a']) [.atom ['b']]
    [.atom ['|'], .atom ['c']]
  exact ⟨single, same, string "ab|c" rfl single⟩

end LogicFormat.Term
