import LogicFormat.Proofs.Operator
import LogicFormat.Proofs.Term.Listed

/-!
# Bars in written terms

A bar of a written term is one of its names, or stands before what a pair ends in if that is no
list. Quotes, brackets and blanks add none, so that the bars of a term are those of its parts and
perhaps one more.
-/

namespace LogicFormat

namespace Text

def bars (text : Text) : Nat := text.count '|'

@[simp] theorem bars_nil : bars [] = 0 := rfl

@[simp] theorem bars_append (first second : Text) :
    bars (first ++ second) = bars first + bars second := List.count_append

theorem bars_cons (c : Char) (text : Text) : bars (c :: text) = bars text + bars [c] := by
  rw [← List.singleton_append, bars_append, Nat.add_comm]

@[simp] theorem bars_cons_of_ne {c : Char} (text : Text) (other : c ≠ '|') :
    bars (c :: text) = bars text := List.count_cons_of_ne other

theorem bars_bar (text : Text) : bars ('|' :: text) = bars text + 1 := List.count_cons_self

theorem bars_intercalate (parts : List Text) :
    bars ([','].intercalate parts) = bars parts.flatten := by
  induction parts with
  | nil => rfl
  | cons part parts ih =>
      cases parts with
      | nil => simp
      | cons next parts =>
          rw [List.intercalate_cons_cons, List.flatten_cons, bars_append, bars_append, ih,
            bars_append]
          rfl

end Text

open Text (bars bars_append bars_cons bars_cons_of_ne bars_bar bars_intercalate)

namespace Atom

theorem control_bars : ∀ n < 128, (n < 32 || n = 127) = true →
    bars (Text.hexadecimal 1 n) = 0 ∧ bars [Char.ofNat n] = 0 := by
  decide

theorem bars_escaped (quote c : Char) : bars (escaped quote c) = bars [c] := by
  unfold escaped
  split
  · exact bars_cons_of_ne [c] (by decide)
  -- the eight escapes by a letter
  iterate 8
    split
    · next same =>
        subst same
        rfl
  split
  · next control =>
      have low : c.toNat < 128 := by
        simp only [Bool.or_eq_true, decide_eq_true_eq] at control
        omega
      obtain ⟨number, character⟩ := control_bars c.toNat low control
      rw [Char.ofNat_toNat] at character
      simp [number, character]
  · rfl

theorem bars_between {quote : Char} (other : quote ≠ '|') (text : Text) :
    bars (between quote text) = bars text := by
  have inside : bars (text.flatMap (escaped quote)) = bars text := by
    induction text with
    | nil => rfl
    | cons c text ih =>
        rw [List.flatMap_cons, bars_append, bars_escaped, ih, bars_cons c text, Nat.add_comm]
  simp [between, other, inside]

end Atom

theorem bars_inBrackets (text : Text) : bars (inBrackets text) = bars text := by
  simp [inBrackets]

theorem bars_besides (left right : Text) : bars (besides left right) = bars left + bars right := by
  unfold besides
  split <;> simp

/-- An item that is a single character has the bars of this character. -/
def Item.Plain (item : Item) : Prop := ∀ c ∈ item.char?, bars item.text = bars [c]

namespace Phrase

/-- Items are plain, and what is open towards a tail has an item before it. -/
def Plain : Phrase → Prop
  | .sequence items tail => (∀ item ∈ items, item.Plain) ∧ (items = [] → tail = none)
  | _ => True

/-- Whether the phrase goes on as a list where a pair ends in it. -/
def continues : Phrase → Bool
  | .sequence _ _ => true
  | .atom name => name = "[]"
  | _ => false

end Phrase

namespace Style

variable (style : Style)

@[simp] theorem bars_atom (name : Text) : bars (style.atom name) = bars name := by
  unfold Style.atom Atom.quoted
  split
  · split
    · exact Atom.bars_between (by decide) name
    · rfl
  · rfl

@[simp] theorem bars_sign (name : Text) : bars (style.sign name) = bars name := by
  unfold Style.sign
  split
  · rfl
  · exact style.bars_atom name

theorem bars_string {items : List Item} (plain : ∀ item ∈ items, item.Plain) {text : Text}
    (string : items.mapM Item.char? = some text) : bars text = bars (items.flatMap Item.text) := by
  induction items generalizing text with
  | nil =>
      cases string
      rfl
  | cons item items ih =>
      rw [List.forall_mem_cons] at plain
      rw [List.mapM_cons] at string
      cases first : item.char? with
      | none => simp [first] at string
      | some c =>
          cases rest : items.mapM Item.char? with
          | none => simp [first, rest] at string
          | some others =>
              obtain rfl : c :: others = text := by simpa [first, rest] using string
              rw [List.flatMap_cons, bars_append, plain.1 c first, ← ih plain.2 rest,
                bars_cons c others, Nat.add_comm]

/-- The bars of a list are those of its items, whether it is written as a string or not, and one
more for a tail. -/
theorem bars_sequence {items : List Item} {tail : Option Text}
    (plain : (Phrase.sequence items tail).Plain) :
    bars (style.sequence items tail) =
      bars (items.flatMap Item.text) + tail.elim 0 fun rest => bars rest + 1 := by
  unfold Style.sequence
  split
  · next none =>
      have empty := List.isEmpty_iff.mp none
      rw [plain.2 empty, empty]
      rfl
  split
  · next text string =>
      unfold Style.string? at string
      split at string
      · next simple =>
          have closed : tail = none := by simp_all
          rw [Atom.bars_between (by decide), bars_string plain.1 string, closed]
          rfl
      · cases string
  · split <;> simp [bars_intercalate, bars_bar, List.flatMap_def]

@[simp] theorem bars_operation (bound : Int) (level : Nat) (text : Text) :
    bars (style.within bound (.operation level text)) = bars text := by
  rw [Style.within]
  split
  · exact bars_inBrackets text
  · rfl

/-- Wherever a phrase stands, its bars are the same. -/
theorem bars_within (bound : Int) (p : Phrase) :
    bars (style.within bound p) = bars (style.within argumentLevel p) := by
  cases p with
  | operation level text => rw [bars_operation, bars_operation]
  | _ => rfl

theorem bars_operand (bound : Int) (p : Phrase) :
    bars (style.operand bound p) = bars (style.within argumentLevel p) := by
  rw [← style.bars_within bound]
  unfold Style.operand
  dsimp only
  split
  · exact bars_inBrackets _
  · rfl

theorem bars_applied (name : Text) (ps : List Phrase) (bound : Int) :
    bars (style.within bound (style.applied name ps)) =
      bars name + bars (ps.flatMap (style.within argumentLevel)) := by
  simp only [Style.applied, Style.within, bars_append, bars_atom, bars_inBrackets,
    bars_intercalate, List.flatMap_def]

theorem bars_braced (p : Phrase) (bound : Int) :
    bars (style.within bound (style.braced p)) = bars (style.within argumentLevel p) := by
  rw [← style.bars_within termLevel p]
  show bars ('\x7b' :: style.within termLevel p ++ ['\x7d']) = _
  simp

theorem bars_unary (op : UnaryOperator) (p : Phrase) (bound : Int) :
    bars (style.within bound (style.unary op p)) =
      bars op.name + bars (style.within argumentLevel p) := by
  rw [Style.unary, bars_operation, ← style.bars_operand (op.operand.bound op.level) p]
  split
  · simp
  · simp [bars_besides]

theorem bars_binary (op : BinaryOperator) (p q : Phrase) (bound : Int) :
    bars (style.within bound (style.binary op p q)) = bars op.name +
      bars (style.within argumentLevel p) + bars (style.within argumentLevel q) := by
  rw [Style.binary, bars_operation, ← style.bars_operand (op.left.bound op.level) p,
    ← style.bars_operand (op.right.bound op.level) q]
  split <;> simp [bars_besides] <;> omega

/-- Beside the bars of its parts a compound term has those of its name, unless it is a pair. -/
theorem bars_compound {name : Text} (p : Phrase) {ps : List Phrase}
    (plain : name = ['.'] → ps.length ≠ 1) (bound : Int) :
    bars (style.within bound (style.compound name p ps)) =
      bars name + bars ((p :: ps).flatMap (style.within argumentLevel)) := by
  unfold Style.compound
  split
  · split
    · next braces =>
        rw [bars_braced, braces]
        simp
    split
    · next op known => simp [bars_unary, (Operator.of_unary? known).2]
    · exact style.bars_applied name [p] bound
  · next q =>
      rw [if_neg fun dot => plain dot rfl]
      split
      · next op known => simp [bars_binary, (Operator.of_binary? known).2, Nat.add_assoc]
      · exact style.bars_applied name [p, q] bound
  · exact style.bars_applied name (p :: ps) bound

theorem compound_pair (p q : Phrase) : style.compound ['.'] p [q] = style.pair p q := rfl

theorem plain_item (p : Phrase) : (style.item p).Plain := by
  intro c single
  cases p with
  | atom name =>
      match name, single with
      | [c], rfl => exact style.bars_atom [c]
  | _ => cases single

theorem plain_items (ps : List Phrase) : (Phrase.sequence (ps.map style.item) none).Plain :=
  ⟨List.forall_mem_map.mpr fun p _ => style.plain_item p, fun _ => rfl⟩

theorem bars_items (ps : List Phrase) : bars (style.sequence (ps.map style.item) none) =
    bars (ps.flatMap (style.within argumentLevel)) := by
  rw [style.bars_sequence (style.plain_items ps), List.flatMap_map]
  rfl

theorem plain_pair (p : Phrase) {q : Phrase} (plain : q.Plain) : (style.pair p q).Plain := by
  have first : ∀ item ∈ [style.item p], item.Plain :=
    List.forall_mem_singleton.mpr (style.plain_item p)
  unfold Style.pair
  split
  · exact ⟨List.forall_mem_cons.mpr ⟨style.plain_item p, plain.1⟩, by simp⟩
  · split
    · exact ⟨first, by simp⟩
    · exact ⟨first, by simp⟩
  · exact ⟨first, by simp⟩

/-- A pair has one more bar than its parts if what it ends in does not go on as a list. -/
theorem bars_pair (p : Phrase) {q : Phrase} (plain : q.Plain) (bound : Int) :
    bars (style.within bound (style.pair p q)) = bars (style.within argumentLevel p) +
      bars (style.within argumentLevel q) + if q.continues then 0 else 1 := by
  have single (tail : Option Text) : bars (style.within bound (.sequence [style.item p] tail)) =
      bars (style.within argumentLevel p) + tail.elim 0 fun rest => bars rest + 1 := by
    have one : (Phrase.sequence [style.item p] tail).Plain :=
      ⟨List.forall_mem_singleton.mpr (style.plain_item p), by simp⟩
    rw [Style.within, style.bars_sequence one, List.flatMap_singleton]
    rfl
  cases q with
  | sequence items tail =>
      rw [Style.pair, Style.within, Style.within, style.bars_sequence plain,
        style.bars_sequence (style.plain_pair p plain), List.flatMap_cons, bars_append]
      simp only [Phrase.continues, Style.item, if_true]
      omega
  | atom name =>
      rw [Style.pair]
      by_cases empty : name = "[]".toList
      · have nothing : bars (style.within argumentLevel (.atom name)) = 0 := by
          rw [Style.within, bars_atom, empty]
          rfl
        simp only [if_pos empty, single, nothing, Phrase.continues, decide_eq_true empty]
        rfl
      · simp only [if_neg empty, single, Phrase.continues, decide_eq_false empty]
        rfl
  | _ => exact single _

theorem continues_pair (p q : Phrase) : (style.pair p q).continues = true := by
  unfold Style.pair
  split
  · rfl
  · split <;> rfl
  · rfl

theorem continues_compound (name : Text) (p : Phrase) (ps : List Phrase) :
    (style.compound name p ps).continues = (decide (name = ['.']) && decide (ps.length = 1)) := by
  unfold Style.compound
  split
  · show _ = (decide (name = ['.']) && false)
    rw [Bool.and_false]
    split
    · rfl
    · split <;> rfl
  · by_cases dot : name = ['.']
    · rw [if_pos dot, continues_pair, decide_eq_true dot]
      rfl
    · rw [if_neg dot, decide_eq_false dot]
      split <;> rfl
  · next one two =>
      have many : ps.length ≠ 1 := by
        intro single
        obtain ⟨q, rfl⟩ := List.length_eq_one_iff.mp single
        exact two q rfl
      rw [decide_eq_false many, Bool.and_false]
      rfl

theorem plain_compound (name : Text) (p : Phrase) {ps : List Phrase}
    (plain : ∀ q ∈ ps, q.Plain) : (style.compound name p ps).Plain := by
  unfold Style.compound
  split
  · split
    · trivial
    · split <;> trivial
  · next q =>
      split
      · exact style.plain_pair p (plain q List.mem_cons_self)
      · split <;> trivial
  · trivial

end Style

namespace Term

variable {style : Style} {t : Term} {p q : Phrase} {ts : List Term} {ps qs : List Phrase}

mutual

theorem plain_phrase : (t : Term) → (p : Phrase) → t.phrase style = .ok p → p.Plain
  | .var _, _, rfl | .atom _, _, rfl | .int _, _, rfl | .float _, _, rfl | .bool _, _, rfl =>
      trivial
  | .list items, p, written => by
      obtain ⟨ps, -, rfl⟩ := exists_phrase_of_list written
      exact style.plain_items ps
  | .tuple items, p, written => by
      obtain ⟨ps, -, rfl⟩ := exists_phrase_of_tuple written
      trivial
  | .compound name first others, p, written => by
      obtain ⟨one, ps, -, all, rfl⟩ := exists_phrase_of_compound written
      exact style.plain_compound name one (plain_phrases others ps all)

theorem plain_phrases : (ts : List Term) → (ps : List Phrase) → phrases style ts = .ok ps →
    ∀ p ∈ ps, p.Plain
  | [], ps, written => by
      cases written
      simp
  | t :: ts, ps, written => by
      obtain ⟨p, ps, isOne, all, rfl⟩ := exists_phrases_of_cons written
      exact List.forall_mem_cons.mpr ⟨plain_phrase t p isOne, plain_phrases ts ps all⟩

end

def continues : Term → Bool
  | .list _ => true
  | .atom name => name = "[]"
  | .compound name _ others => name = ['.'] && others.length = 1
  | _ => false

theorem continues_phrase (written : t.phrase style = .ok p) : p.continues = t.continues := by
  cases t with
  | list items =>
      obtain ⟨ps, -, rfl⟩ := exists_phrase_of_list written
      rfl
  | tuple items =>
      obtain ⟨ps, -, rfl⟩ := exists_phrase_of_tuple written
      rfl
  | compound name first others =>
      obtain ⟨one, ps, -, all, rfl⟩ := exists_phrase_of_compound written
      rw [style.continues_compound, length_phrases all, continues]
  | null =>
      rw [phrase] at written
      cases written
  | _ =>
      rw [phrase] at written
      cases written
      rfl

theorem continues_listed (t : Term) : t.listed.continues = (t.continues || t.isTuple) := by
  cases t <;> simp [listed, continues, isTuple, length_listedAll]

theorem bar_listed (t : Term) : (if t.continues then 0 else 1) =
    (if t.listed.continues then 0 else 1) + if t.isTuple then 1 else 0 := by
  rw [continues_listed]
  cases t <;> simp [continues, isTuple]

theorem countP_compound (name : Text) (first : Term) (others : List Term) :
    (compound name first others).preorder.countP endsInTuple =
      first.preorder.countP endsInTuple + (preorderAll others).countP endsInTuple +
        if (compound name first others).endsInTuple then 1 else 0 := by
  rw [preorder, List.countP_cons, List.countP_append]

mutual

/-- A list in place of a tuple takes away one bar for every pair that ended in a tuple. -/
theorem bars_listed : (t : Term) → (p q : Phrase) → t.phrase style = .ok p →
    t.listed.phrase style = .ok q → bars (style.within argumentLevel p) =
      bars (style.within argumentLevel q) + t.preorder.countP endsInTuple
  | .list items, p, q, written, written' => by
      obtain ⟨ps, all, rfl⟩ := exists_phrase_of_list written
      obtain ⟨qs, all', rfl⟩ := exists_phrase_of_list written'
      have inside := allBars_listed items ps qs all all'
      simpa [Style.within, Style.bars_items, preorder, endsInTuple] using inside
  | .tuple items, p, q, written, written' => by
      obtain ⟨ps, all, rfl⟩ := exists_phrase_of_tuple written
      obtain ⟨qs, all', rfl⟩ := exists_phrase_of_list written'
      have inside := allBars_listed items ps qs all all'
      simpa [Style.within, Style.bars_items, preorder, endsInTuple] using inside
  | .compound name first others, p, q, written, written' => by
      obtain ⟨one, ps, isOne, all, rfl⟩ := exists_phrase_of_compound written
      obtain ⟨one', qs, isOne', all', rfl⟩ := exists_phrase_of_compound written'
      have front := bars_listed first one one' isOne isOne'
      have behind := allBars_listed others ps qs all all'
      rw [countP_compound]
      by_cases pair : name = ['.'] ∧ others.length = 1
      · obtain ⟨rfl, single⟩ := pair
        obtain ⟨tail, rfl⟩ := List.length_eq_one_iff.mp single
        obtain ⟨two, isTwo, rfl⟩ := exists_phrase_of_singleton all
        obtain ⟨two', isTwo', rfl⟩ := exists_phrase_of_singleton all'
        have tuple : (compound ['.'] first [tail]).endsInTuple = tail.isTuple := rfl
        have bar := bar_listed tail
        rw [List.flatMap_singleton, List.flatMap_singleton] at behind
        rw [style.compound_pair, style.compound_pair, style.bars_pair one (plain_phrase _ _ isTwo),
          style.bars_pair one' (plain_phrase _ _ isTwo'), continues_phrase isTwo,
          continues_phrase isTwo', tuple]
        omega
      · have apart : (compound name first others).endsInTuple = false :=
          Bool.eq_false_iff.mpr (mt pair_of_endsInTuple pair)
        have single (l : List Phrase) (same : l.length = others.length) :
            name = ['.'] → l.length ≠ 1 := fun dot one => pair ⟨dot, same ▸ one⟩
        have same := (length_phrases all').trans (length_listedAll others)
        rw [style.bars_compound one (single ps (length_phrases all)),
          style.bars_compound one' (single qs same), apart]
        simp only [Bool.false_eq_true, if_false, List.flatMap_cons, bars_append]
        omega
  | .var _, p, q, written, written' | .atom _, p, q, written, written'
  | .int _, p, q, written, written' | .float _, p, q, written, written'
  | .bool _, p, q, written, written' | .null, p, q, written, written' => by
      obtain rfl : p = q := by simpa [listed, written] using written'
      simp [preorder, endsInTuple]

theorem allBars_listed : (ts : List Term) → (ps qs : List Phrase) → phrases style ts = .ok ps →
    phrases style (listedAll ts) = .ok qs → bars (ps.flatMap (style.within argumentLevel)) =
      bars (qs.flatMap (style.within argumentLevel)) + (preorderAll ts).countP endsInTuple
  | [], ps, qs, written, written' => by
      cases written
      cases written'
      rfl
  | t :: ts, ps, qs, written, written' => by
      obtain ⟨p, ps, isOne, all, rfl⟩ := exists_phrases_of_cons written
      obtain ⟨q, qs, isOne', all', rfl⟩ := exists_phrases_of_cons written'
      have front := bars_listed t p q isOne isOne'
      have behind := allBars_listed ts ps qs all all'
      rw [List.flatMap_cons, List.flatMap_cons, bars_append, bars_append, preorderAll,
        List.countP_append]
      omega

end

theorem bars_writeWithin {bound : Int} {text other : Text}
    (written : t.writeWithin style bound = .ok text)
    (written' : t.listed.writeWithin style bound = .ok other) :
    bars text = bars other + t.preorder.countP endsInTuple := by
  obtain ⟨p, isPhrase, written⟩ := Outcome.bind_eq_ok.mp written
  obtain ⟨q, isPhrase', written'⟩ := Outcome.bind_eq_ok.mp written'
  cases written
  cases written'
  rw [style.bars_within, style.bars_within bound q]
  exact bars_listed t p q isPhrase isPhrase'

theorem listed_iff {outcome outcome' : Except Fault Text}
    (refuses : Refuses (.null ∈ t.subterms) outcome)
    (refuses' : Refuses (.null ∈ t.listed.subterms) outcome')
    (counted : ∀ text other, outcome = .ok text → outcome' = .ok other →
      bars text = bars other + t.preorder.countP endsInTuple)
    (alike : (∀ s ∈ t.subterms, s.endsInTuple = false) → outcome' = outcome) :
    outcome' = outcome ↔ .null ∈ t.subterms ∨ ∀ s ∈ t.subterms, s.endsInTuple = false := by
  constructor
  · intro same
    by_cases null : .null ∈ t.subterms
    · exact .inl null
    · right
      obtain ⟨text, written⟩ := refuses.written null
      have bars := counted text text written (same.trans written)
      have none : t.preorder.countP endsInTuple = 0 := by omega
      rw [subterms_eq_preorder]
      simpa using List.countP_eq_zero.mp none
  · rintro (null | plain)
    · rw [refuses.refused null, refuses'.refused (null_mem_listed.mpr null)]
    · exact alike plain

/-- A term is told from the one with lists in place of its tuples where some pair ends in a tuple,
and nowhere else. -/
theorem writeWithin_listed_iff (style : Style) (bound : Int) (t : Term) :
    t.listed.writeWithin style bound = t.writeWithin style bound ↔
      .null ∈ t.subterms ∨ ∀ s ∈ t.subterms, s.endsInTuple = false :=
  listed_iff (refuses_writeWithin style bound t) (refuses_writeWithin style bound t.listed)
    (fun _ _ => bars_writeWithin) (writeWithin_listed bound)

end Term

end LogicFormat
