import LogicFormat.Proofs.Clause.Mapping
import LogicFormat.Proofs.Clause.Shown
import LogicFormat.Proofs.Term.Bars

/-!
# Clauses with lists in place of tuples

A list in place of a tuple changes neither the variables of a clause nor its connectives. The clause
is portrayed as before, unless a pair in it ends in a tuple, which then loses its bar.
-/

namespace LogicFormat

open Text (bars bars_append)

variable {names : Naming} {t : Term}

theorem Term.keepsPairs_listed : KeepsPairs listed where
  pair name first second := by simp [listed, listedAll]
  reflects {t name first second} h := by
    cases t with
    | compound name' first' others =>
        rw [listed, compound.injEq] at h
        obtain ⟨rfl, -, single⟩ := h
        have length := length_listedAll others
        rw [single] at length
        obtain ⟨second', rfl⟩ := List.length_eq_one_iff.mp length.symm
        exact ⟨first', second', rfl⟩
    | _ => simp [listed] at h

theorem Naming.ofTerm_listed (t : Term) : ofTerm t.listed = ofTerm t := by
  rw [ofTerm, ofTerm, Term.vars_listed]

namespace Mark

theorem bars_shown_listed (mark : Mark) (writable : .null ∉ mark.nodes) :
    bars (mark.shown names) =
      bars ((mark.map Term.listed).shown names) + mark.nodes.countP Term.endsInTuple := by
  cases mark with
  | indent column target => rfl
  | chars text => rfl
  | term t =>
      have writable' : .null ∉ t.listed.preorder := by
        rw [← Term.mem_subterms, Term.null_mem_listed, Term.mem_subterms]
        exact writable
      exact Term.bars_writeWithin (write_shown names writable) (write_shown names writable')

theorem bars_listed {marks : List Mark} (writable : .null ∉ marks.flatMap nodes) :
    bars (marks.flatMap (shown names)) =
      bars ((marks.map (map Term.listed)).flatMap (shown names)) +
        (marks.flatMap nodes).countP Term.endsInTuple := by
  induction marks with
  | nil => rfl
  | cons mark marks ih =>
      rw [List.flatMap_cons, List.mem_append, not_or] at writable
      rw [List.map_cons, List.flatMap_cons, List.flatMap_cons, List.flatMap_cons, bars_append,
        bars_append, List.countP_append, bars_shown_listed mark writable.1, ih writable.2]
      omega

end Mark

namespace Clause

theorem portray_listed (plain : ∀ s ∈ t.subterms, s.endsInTuple = false) (bodyIndent : Term) :
    portray bodyIndent t.listed = portray bodyIndent t := by
  -- both are named by the variables of one term
  have alike (s : Term) (whole : ∀ u ∈ s.subterms, u.endsInTuple = false) :
      s.listed.write ⟨true, .ofTerm t⟩ = s.write ⟨true, .ofTerm t⟩ :=
    Term.writeWithin_listed termLevel whole
  rw [portray, portray, Naming.ofTerm_listed, emission_map Term.keepsPairs_listed alike ?_ plain]
  intro name first second whole
  simp only [Term.subterms_eq_preorder] at whole ⊢
  simp only [Term.preorder, Term.preorderAll, List.append_nil, List.forall_mem_cons,
    List.forall_mem_append] at whole
  exact whole.2

theorem bars_portray {indent : Int} {text other : Text}
    (portrayed : portray (.int indent) t = .ok text)
    (portrayed' : portray (.int indent) t.listed = .ok other) :
    bars text = bars other + t.preorder.countP Term.endsInTuple := by
  have writable : .null ∉ t.subterms := by
    intro null
    rw [(refuses_portray indent t).refused null] at portrayed
    cases portrayed
  have connective : ∀ name ∈ connectives, ∀ first second,
      (Term.compound name first [second]).endsInTuple = false := by
    intro name known first second
    refine Bool.eq_false_iff.mpr fun pair => ?_
    obtain ⟨rfl, -⟩ := Term.pair_of_endsInTuple pair
    revert known
    decide
  have count := congrArg List.length (filter_nodes_marks connective indent t)
  rw [← List.countP_eq_length_filter, ← List.countP_eq_length_filter] at count
  rw [portray_shown writable] at portrayed
  rw [portray_shown (mt Term.null_mem_listed.mp writable), marks_map Term.keepsPairs_listed,
    Naming.ofTerm_listed] at portrayed'
  cases portrayed
  cases portrayed'
  rw [← count]
  exact Mark.bars_listed (mt (null_mem_marks indent t).mp writable)

/-- Lists in place of all tuples leave the variables of a term what they are. Written or portrayed,
the term is told from the one with the lists where `null` is nowhere in it and some pair ends in a
tuple, and only there. -/
theorem listed_alike (t : Term) :
    t.listed.vars = t.vars ∧
      (∀ (style : Style) (bound : Int),
        t.listed.writeWithin style bound = t.writeWithin style bound ↔
          .null ∈ t.subterms ∨ ∀ s ∈ t.subterms, s.endsInTuple = false) ∧
      (∀ indent : Int, portray (.int indent) t.listed = portray (.int indent) t ↔
        .null ∈ t.subterms ∨ ∀ s ∈ t.subterms, s.endsInTuple = false) ∧
      ∀ bodyIndent : Term, (∀ s ∈ t.subterms, s.endsInTuple = false) →
        portray bodyIndent t.listed = portray bodyIndent t := by
  refine ⟨t.vars_listed, fun style bound => t.writeWithin_listed_iff style bound,
    fun indent => ?_, fun bodyIndent plain => portray_listed plain bodyIndent⟩
  exact Term.listed_iff (refuses_portray indent t) (refuses_portray indent t.listed)
    (fun _ _ => bars_portray) fun plain => portray_listed plain (.int indent)

def tupledRule : Term :=
  .compound ":-" (.compound ['p'] (.tuple [.var 4, .var 4]) [])
    [.compound ['='] (.list [.tuple [], .tuple [.tuple [.atom ['a'], .atom ['b']]]])
      [.compound ['.'] (.tuple [.var 7]) [.list [.var 4]]]]

theorem listed_alike_nested :
    (∀ s ∈ tupledRule.subterms, s.endsInTuple = false) ∧
      tupledRule.listed.vars = [4, 7] ∧
      tupledRule.listed.writeWithin ⟨false, []⟩ 999 = tupledRule.writeWithin ⟨false, []⟩ 999 ∧
      portray (.int 3) tupledRule = .ok "p([A,A]) :-\n   [[],[\"ab\"]]=[[B],A].\n".toList ∧
      portray (.int 3) tupledRule.listed = portray (.int 3) tupledRule ∧
      portray (.bool true) tupledRule.listed = portray (.bool true) tupledRule := by
  have plain : ∀ s ∈ tupledRule.subterms, s.endsInTuple = false := by
    rw [Term.subterms_eq_preorder]
    decide
  obtain ⟨variables', written, portrayed, shifted⟩ := listed_alike tupledRule
  refine ⟨plain, ?_, (written _ _).mpr (.inr plain), by decide +kernel,
    (portrayed 3).mpr (.inr plain), shifted (.bool true) plain⟩
  rw [variables']
  decide +kernel

/-- A pair keeps a bar before the tuple that it ends in, and takes in the items of a list in its
place. -/
theorem listed_told_apart :
    (Term.compound ['.'] (.atom ['a']) [.tuple [.atom ['b']]]).listed =
        .compound ['.'] (.atom ['a']) [.list [.atom ['b']]] ∧
      (Term.compound ['.'] (.atom ['a']) [.tuple [.atom ['b']]]).write ⟨false, []⟩ =
        .ok "[a|[b]]" ∧
      (Term.compound ['.'] (.atom ['a']) [.tuple [.atom ['b']]]).listed.write ⟨false, []⟩ =
        .ok "[a,b]" ∧
      portray (.int 3) (.compound ['.'] (.atom ['a']) [.tuple [.atom ['b']]]) =
        .ok "[a|\"b\"].\n".toList ∧
      portray (.int 3) (Term.compound ['.'] (.atom ['a']) [.tuple [.atom ['b']]]).listed =
        .ok "\"ab\".\n".toList := by
  decide +kernel

end Clause

end LogicFormat
