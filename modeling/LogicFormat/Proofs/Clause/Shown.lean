import LogicFormat.Proofs.Clause.Goal
import LogicFormat.Proofs.Clause.Page
import LogicFormat.Proofs.Term.Written

/-!
# What marks show

Marks are emitted to their end unless `null` occurs in one of their terms. The page is then what
they show, one after the other, so that a fact of it follows from the facts of the marks.
-/

namespace LogicFormat

/-- The outcome of two emissions fails where the first of them that fails does. -/
theorem Emission.result_append (first second : Emission) :
    (first ++ second).result =
      first.result >>= fun front => (front ++ ·) <$> second.result := by
  obtain ⟨text, fault⟩ := first
  obtain ⟨behind, fault'⟩ := second
  cases fault with
  | some fault => rfl
  | none => cases fault' <;> rfl

namespace Mark

variable {names : Naming} {t : Term}

def shown (names : Naming) (mark : Mark) : Text := (mark.emission names).text

def nodes : Mark → List Term
  | .term t => t.preorder
  | _ => []

@[simp] theorem nodes_indent (column target : Int) : (indent column target).nodes = [] := rfl

@[simp] theorem nodes_chars (text : Text) : (chars text).nodes = [] := rfl

@[simp] theorem nodes_term (t : Term) : (term t).nodes = t.preorder := rfl

@[simp] theorem shown_indent (names : Naming) (column target : Int) :
    (indent column target).shown names = List.replicate (target - column).toNat ' ' := by
  rw [shown, emission_indent]
  rfl

@[simp] theorem shown_chars (names : Naming) (text : Text) : (chars text).shown names = text := rfl

theorem write_shown (names : Naming) (writable : .null ∉ t.preorder) :
    t.write ⟨true, names⟩ = .ok ((term t).shown names) := by
  obtain ⟨text, written⟩ := Term.exists_write ⟨true, names⟩ writable
  have emitted : (term t).emission names = .ofText text := emission_term written
  rw [shown, emitted]
  exact written

theorem refuses_emission (names : Naming) (mark : Mark) :
    Refuses (.null ∈ mark.nodes) (mark.emission names).result := by
  cases mark with
  | indent column target =>
      rw [emission_indent, nodes_indent, List.mem_nil_iff]
      exact .never _
  | chars text =>
      rw [nodes_chars, List.mem_nil_iff]
      exact .never text
  | term t =>
      rw [emission, Emission.result_ofExcept, nodes_term, ← Term.mem_subterms]
      exact Term.refuses_writeWithin ⟨true, names⟩ termLevel t

theorem refuses_emitAll (names : Naming) (marks : List Mark) :
    Refuses (.null ∈ marks.flatMap nodes) (emitAll names marks).result := by
  induction marks with
  | nil =>
      rw [List.flatMap_nil, List.mem_nil_iff]
      exact .never []
  | cons mark marks ih =>
      rw [emitAll_cons, Emission.result_append, List.flatMap_cons, List.mem_append]
      exact (refuses_emission names mark).bind fun front => ih.map (front ++ ·)

theorem emitAll_shown {marks : List Mark} (writable : .null ∉ marks.flatMap nodes) :
    emitAll names marks = .ofText (marks.flatMap (shown names)) := by
  induction marks with
  | nil => rfl
  | cons mark marks ih =>
      rw [List.flatMap_cons, List.mem_append, not_or] at writable
      obtain ⟨text, emitted⟩ := (refuses_emission names mark).written writable.1
      rw [Emission.result_eq_ok] at emitted
      rw [emitAll_cons, List.flatMap_cons, ih writable.2, shown, emitted]
      rfl

end Mark

/-- Of the nodes of a clause only the connectives are in no mark of it. -/
def Clause.connectives : List Text := [[','], [';'], ['-', '>'], ":-", "-->"]

section Nodes

variable {p : Term → Bool} (plain : ∀ name ∈ Clause.connectives, ∀ first second,
  p (.compound name first [second]) = false)

include plain

theorem Goal.filter_nodes_layout (goal : Goal) (column target : Int) :
    ((goal.layout column target).flatMap Mark.nodes).filter p = goal.term.preorder.filter p := by
  have comma := plain [','] (by decide)
  have semicolon := plain [';'] (by decide)
  have arrow := plain ['-', '>'] (by decide)
  induction goal generalizing column target with
  | literal t => simp [layout, term]
  | both first second ihFirst ihSecond =>
      simp [layout, term, Term.preorder, Term.preorderAll, ihFirst, ihSecond, comma]
  | either first second ihFirst ihSecond =>
      simp [layout, Clause.lastBranch, term, Term.preorder, Term.preorderAll, ihFirst, ihSecond,
        semicolon]
  | conditional condition consequence other ihCondition ihConsequence ihOther =>
      simp [layout, Clause.lastBranch, term, Term.preorder, Term.preorderAll, ihCondition,
        ihConsequence, ihOther, semicolon, arrow]

theorem Clause.filter_nodes_marks (indent : Int) (t : Term) :
    ((marks indent t ++ fullStop).flatMap Mark.nodes).filter p = t.preorder.filter p := by
  rcases parts : parts? t with _ | ⟨head, neck, goals⟩
  · simp [marks, parts, fullStop]
  · have rule := rule_of_parts? parts
    have connective : neck ∈ connectives := by
      rcases rule with rfl | rfl <;> decide
    have isRule := eq_of_parts? parts
    subst isRule
    simp [marks, parts, fullStop, header, body, Term.preorder, Term.preorderAll,
      Goal.filter_nodes_layout plain, Goal.term_ofTerm, plain neck connective]

end Nodes

namespace Clause

theorem null_mem_marks (indent : Int) (t : Term) :
    .null ∈ (marks indent t ++ fullStop).flatMap Mark.nodes ↔ .null ∈ t.subterms := by
  have found (nodes : List Term) : .null ∈ nodes ↔ .null ∈ nodes.filter (· == .null) := by
    simp
  rw [Term.mem_subterms, found, found t.preorder, filter_nodes_marks]
  intro name _ first second
  rfl

/-- A clause is refused if `null` occurs in it, and nothing else ever goes wrong with it. -/
theorem refuses_portray (indent : Int) (t : Term) :
    Refuses (.null ∈ t.subterms) (portray (.int indent) t) := by
  rw [portray, emission_int, ← null_mem_marks indent t]
  exact Mark.refuses_emitAll (.ofTerm t) _

theorem portray_shown {t : Term} (writable : .null ∉ t.subterms) (indent : Int) :
    portray (.int indent) t =
      .ok ((marks indent t ++ fullStop).flatMap (Mark.shown (.ofTerm t))) := by
  rw [portray, emission_int, Emission.result_eq_ok]
  exact Mark.emitAll_shown (mt (null_mem_marks indent t).mp writable)

/-- Neither a term nor a clause ever fails but where the search of it meets `null`, and it always
fails there, in one way. -/
theorem fails_iff_null (t : Term) (fault : Fault) :
    (∀ (style : Style) (bound : Int), t.writeWithin style bound = .error fault ↔
      fault = .unwritable ∧ .null ∈ t.subterms) ∧
    (∀ indent : Int, portray (.int indent) t = .error fault ↔
      fault = .unwritable ∧ .null ∈ t.subterms) ∧
    Fault.unwritable.message = "cannot write None as a term" := by
  refine ⟨fun style bound => ?_, fun indent => ?_, rfl⟩
  · exact (Term.refuses_writeWithin style bound t).eq_error_iff
  · exact (refuses_portray indent t).eq_error_iff

end Clause

end LogicFormat
