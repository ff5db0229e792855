import LogicFormat.Proofs.Session.Steps

/-!
# Bindings are restored

The bindings that name a setting may be entered and left anywhere among the bindings that do not. If
they are well nested among themselves and all left, the setting has the value that it had before
them, whatever is formatted and portrayed in between.
-/

namespace LogicFormat

namespace Session

/-! ## Well nested bindings -/

inductive Turn where
  | enter (id : Text)
  | leave (id : Text)
  deriving DecidableEq

namespace Turn

/-- The bindings that are open after some turns, the innermost first, if it is always the innermost
one that is left. -/
def stillOpen : List Text → List Turn → Option (List Text)
  | inner, [] => some inner
  | inner, .enter id :: turns => stillOpen (id :: inner) turns
  | [], .leave _ :: _ => none
  | innermost :: outer, .leave id :: turns =>
      if id = innermost then stillOpen outer turns else none

def WellNested (turns : List Turn) : Prop := stillOpen [] turns = some []

instance (turns : List Turn) : Decidable (WellNested turns) :=
  inferInstanceAs (Decidable (_ = _))

end Turn

namespace Step

def entered? : Step → Option Text
  | .bind id entries => if Settings.accepts entries then some id else none
  | _ => none

def enteredFor? (setting : Setting) : Step → Option Text
  | .bind id entries =>
      if Settings.accepts entries && Settings.mentions setting entries then some id else none
  | _ => none

/-- The turn that the step is for the bindings that name the setting, `names` telling which
bindings do. -/
def turn? (setting : Setting) (names : Text → Bool) : Step → Option Turn
  | .bind id entries => ((Step.bind id entries).enteredFor? setting).map .enter
  | .undo id => if names id then some (.leave id) else none
  | _ => none

end Step

/-- Whether the binding of that identity names the setting: one that was entered before the steps,
or one that the steps enter. -/
def names (session : Session) (steps : List Step) (setting : Setting) (id : Text) : Bool :=
  ((session.replaced.lookup id).any fun old => setting ∈ old.map Prod.fst) ||
    steps.any fun step => step.enteredFor? setting = some id

def turns (session : Session) (steps : List Step) (setting : Setting) : List Turn :=
  steps.filterMap (Step.turn? setting (session.names steps setting))

/-! ## Open bindings unwind -/

/-- The binding of that identity puts the setting back to the value. -/
def Saved (session : Session) (setting : Setting) (id : Text) (value : Term) : Prop :=
  ∃ old, session.replaced.lookup id = some old ∧ setting ∈ old.map Prod.fst ∧
    ∀ entry ∈ old, entry.1 = setting → entry.2 = value

/-- A setting with the value is brought back to `base` by leaving the open bindings one after the
other, the innermost first. -/
def Unwinds (session : Session) (setting : Setting) (base : Term) : List Text → Term → Prop
  | [], value => value = base
  | id :: outer, _ => ∃ before, session.Saved setting id before ∧
      session.Unwinds setting base outer before

variable {session next : Session} {setting : Setting} {base value : Term} {id : Text}

theorem lookup_pushed {old : List (Setting × Term)} {other : Text}
    (pushed : next.replaced = (id, old) :: session.replaced) (differs : other ≠ id) :
    next.replaced.lookup other = session.replaced.lookup other := by
  rw [pushed, List.lookup_cons, beq_false_of_ne differs]

theorem lookup_of_pushed {old saved : List (Setting × Term)} {other : Text}
    (pushed : next.replaced = (id, old) :: session.replaced)
    (fresh : session.replaced.lookup id = none)
    (found : session.replaced.lookup other = some saved) :
    next.replaced.lookup other = some saved := by
  rw [lookup_pushed pushed, found]
  rintro rfl
  rw [fresh] at found
  cases found

theorem Unwinds.of_lookup {stack : List Text}
    (kept : ∀ id old, session.replaced.lookup id = some old → next.replaced.lookup id = some old)
    (h : session.Unwinds setting base stack value) : next.Unwinds setting base stack value := by
  induction stack generalizing value with
  | nil => exact h
  | cons id outer ih =>
      obtain ⟨before, ⟨old, found, saved⟩, unwinds⟩ := h
      exact ⟨before, ⟨old, kept id old found, saved⟩, ih unwinds⟩

/-- The bindings that `names` tells are those that name the setting, each has an identity of its
own, and those still to be entered have identities that are not in use. -/
structure Naming (session : Session) (steps : List Step) (setting : Setting) (names : Text → Bool) :
    Prop where
  earlier : ∀ id old, session.replaced.lookup id = some old →
    (names id = true ↔ setting ∈ old.map Prod.fst)
  later : ∀ id entries, .bind id entries ∈ steps → Settings.accepts entries = true →
    names id = Settings.mentions setting entries
  distinct : (steps.filterMap Step.entered?).Nodup
  fresh : ∀ id ∈ steps.filterMap Step.entered?, session.replaced.lookup id = none

theorem Step.enteredFor?_eq_some {step : Step} (h : step.enteredFor? setting = some id) :
    ∃ entries, step = .bind id entries ∧ Settings.accepts entries = true ∧
      Settings.mentions setting entries = true := by
  cases step with
  | bind other entries =>
      rw [Step.enteredFor?] at h
      split at h
      · next both =>
          cases h
          exact ⟨entries, rfl, Bool.and_eq_true_iff.mp both⟩
      · cases h
  | undo other => cases h
  | format control arguments stream => cases h
  | portray t stream => cases h

theorem Step.entered?_bind {entries : List (Text × Term)}
    (accepted : Settings.accepts entries = true) : (Step.bind id entries).entered? = some id :=
  if_pos accepted

theorem Step.mem_entered {steps : List Step} {entries : List (Text × Term)}
    (member : .bind id entries ∈ steps) (accepted : Settings.accepts entries = true) :
    id ∈ steps.filterMap Step.entered? :=
  List.mem_filterMap.mpr ⟨_, member, Step.entered?_bind accepted⟩

theorem Step.eq_of_entered {steps : List Step} {one two : Step}
    (distinct : (steps.filterMap Step.entered?).Nodup) (hone : one ∈ steps) (htwo : two ∈ steps)
    (enters : one.entered? = some id) (same : two.entered? = some id) : one = two := by
  induction steps with
  | nil => cases hone
  | cons step rest ih =>
      have later : (rest.filterMap Step.entered?).Nodup :=
        distinct.sublist ((List.sublist_cons_self step rest).filterMap _)
      -- the first step is the only one with its identity
      have first {other : Step} (member : other ∈ rest) (mine : step.entered? = some id) :
          other.entered? ≠ some id := by
        intro entered
        rw [List.filterMap_cons_some mine, List.nodup_cons] at distinct
        exact distinct.1 (List.mem_filterMap.mpr ⟨other, member, entered⟩)
      rcases List.mem_cons.mp hone with rfl | laterOne
      · rcases List.mem_cons.mp htwo with rfl | laterTwo
        · rfl
        · exact absurd same (first laterTwo enters)
      · rcases List.mem_cons.mp htwo with rfl | laterTwo
        · exact absurd enters (first laterOne same)
        · exact ih later laterOne laterTwo

theorem naming_names {steps : List Step} (distinct : (steps.filterMap Step.entered?).Nodup)
    (fresh : ∀ id ∈ steps.filterMap Step.entered?, session.replaced.lookup id = none)
    (setting : Setting) : session.Naming steps setting (session.names steps setting) := by
  refine ⟨fun id old found => ?_, fun id entries member accepted => ?_, distinct, fresh⟩
  · have notEntered : (steps.any fun step => step.enteredFor? setting = some id) = false := by
      rw [List.any_eq_false]
      intro step member entered
      obtain ⟨entries, rfl, accepted, -⟩ := Step.enteredFor?_eq_some (of_decide_eq_true entered)
      rw [fresh id (Step.mem_entered member accepted)] at found
      cases found
    rw [names, notEntered, found, Bool.or_false, Option.any_some, decide_eq_true_iff]
  · rw [names, fresh id (Step.mem_entered member accepted), Option.any_none, Bool.false_or,
      Bool.eq_iff_iff, List.any_eq_true]
    constructor
    · rintro ⟨step, other, entered⟩
      obtain ⟨entries', rfl, accepted', mentioned⟩ :=
        Step.enteredFor?_eq_some (of_decide_eq_true entered)
      cases Step.eq_of_entered distinct member other (Step.entered?_bind accepted)
        (Step.entered?_bind accepted')
      exact mentioned
    · intro mentioned
      refine ⟨_, member, decide_eq_true ?_⟩
      rw [Step.enteredFor?, accepted, mentioned]
      rfl

namespace Naming

variable {step : Step} {steps : List Step} {names : Text → Bool}

theorem tail_of_entered_none (naming : session.Naming (step :: steps) setting names)
    (none : step.entered? = none) (same : next.replaced = session.replaced) :
    next.Naming steps setting names := by
  have entered : (step :: steps).filterMap Step.entered? = steps.filterMap Step.entered? :=
    List.filterMap_cons_none none
  refine ⟨?_, ?_, entered ▸ naming.distinct, ?_⟩
  · rw [same]
    exact naming.earlier
  · exact fun id entries member => naming.later id entries (List.mem_cons_of_mem _ member)
  · rw [same, ← entered]
    exact naming.fresh

theorem tail_of_entered {old : List (Setting × Term)} {entries : List (Text × Term)}
    (naming : session.Naming (.bind id entries :: steps) setting names)
    (accepted : Settings.accepts entries = true)
    (mentioned : setting ∈ old.map Prod.fst ↔ Settings.mentions setting entries = true)
    (pushed : next.replaced = (id, old) :: session.replaced) :
    next.Naming steps setting names := by
  have entered : (Step.bind id entries :: steps).filterMap Step.entered? =
      id :: steps.filterMap Step.entered? :=
    List.filterMap_cons_some (Step.entered?_bind accepted)
  have distinct := naming.distinct
  have fresh := naming.fresh
  rw [entered, List.nodup_cons] at distinct
  rw [entered, List.forall_mem_cons] at fresh
  refine ⟨?_, ?_, distinct.2, ?_⟩
  · intro other saved found
    by_cases same : other = id
    · subst same
      rw [pushed, List.lookup_cons_self] at found
      cases found
      rw [naming.later other entries List.mem_cons_self accepted, mentioned]
    · rw [lookup_pushed pushed same] at found
      exact naming.earlier other saved found
  · exact fun id entries member => naming.later id entries (List.mem_cons_of_mem _ member)
  · intro other member
    have differs : other ≠ id := by
      rintro rfl
      exact distinct.1 member
    rw [lookup_pushed pushed differs]
    exact fresh.2 other member

end Naming

/-! ## Steps unwind -/

theorem Turn.stillOpen_append (first second : List Turn) (stack : List Text) :
    stillOpen stack (first ++ second) = (stillOpen stack first).bind (stillOpen · second) := by
  induction first generalizing stack with
  | nil => rfl
  | cons turn first ih =>
      cases turn with
      | enter id => exact ih (id :: stack)
      | leave id =>
          cases stack with
          | nil => rfl
          | cons innermost outer =>
              rw [List.cons_append, stillOpen, stillOpen]
              split
              · exact ih outer
              · rfl

section

variable {step : Step} {steps : List Step} {names : Text → Bool} {stack after : List Text}

/-- A new binding that names the setting is the innermost one. -/
theorem Unwinds.enter {entries : List (Text × Term)} {values : List (Setting × Term)}
    (h : session.Unwinds setting base stack (session.settings.get setting))
    (resolved : Settings.resolve entries = .ok values) (mentioned : setting ∈ values.map Prod.fst)
    (fresh : session.replaced.lookup id = none) :
    (session.bind id entries).1.Unwinds setting base (id :: stack) value := by
  obtain ⟨-, pushed⟩ := bind_of_resolve resolved session id
  have saved : (session.bind id entries).1.Saved setting id (session.settings.get setting) := by
    refine ⟨values.map fun entry => (entry.1, session.settings.get entry.1), ?_, ?_, ?_⟩
    · rw [pushed, List.lookup_cons_self]
    · rw [List.map_map]
      exact mentioned
    · intro entry member here
      obtain ⟨bound, -, rfl⟩ := List.mem_map.mp member
      exact congrArg session.settings.get here
  exact ⟨_, saved, h.of_lookup fun other old found => lookup_of_pushed pushed fresh found⟩

/-- A new binding that does not name the setting lets it be. -/
theorem Unwinds.pass {entries : List (Text × Term)} {values : List (Setting × Term)}
    (h : session.Unwinds setting base stack (session.settings.get setting))
    (resolved : Settings.resolve entries = .ok values)
    (unmentioned : setting ∉ values.map Prod.fst) (fresh : session.replaced.lookup id = none) :
    (session.bind id entries).1.Unwinds setting base stack
      ((session.bind id entries).1.settings.get setting) := by
  obtain ⟨set, pushed⟩ := bind_of_resolve resolved session id
  have kept : (session.settings.setAll values).get setting = session.settings.get setting :=
    (Settings.get_setAll_mem _ _ _).resolve_right fun member =>
      unmentioned (List.mem_map_of_mem member)
  rw [set, kept]
  exact h.of_lookup fun other old found => lookup_of_pushed pushed fresh found

/-- The innermost binding puts back what the ones around it have left. -/
theorem Unwinds.leave (h : session.Unwinds setting base (id :: stack) value) :
    (session.undo id).Unwinds setting base stack ((session.undo id).settings.get setting) := by
  obtain ⟨before, ⟨old, found, mentioned, same⟩, unwinds⟩ := h
  have restored : (session.undo id).settings.get setting = before := by
    rw [undo, found]
    show (session.settings.setAll old).get setting = before
    rw [Settings.get_setAll same, if_pos mentioned]
  rw [restored]
  exact unwinds.of_lookup fun other saved found => by rwa [undo_replaced]

/-- A binding that does not name the setting lets it be when it is left. -/
theorem Unwinds.ignore (h : session.Unwinds setting base stack (session.settings.get setting))
    (unmentioned : ∀ old, session.replaced.lookup id = some old → setting ∉ old.map Prod.fst) :
    (session.undo id).Unwinds setting base stack ((session.undo id).settings.get setting) := by
  have kept : (session.undo id).settings.get setting = session.settings.get setting := by
    unfold undo
    split
    · next old found =>
        exact (Settings.get_setAll_mem _ _ _).resolve_right fun member =>
          unmentioned old found (List.mem_map_of_mem member)
    · rfl
  rw [kept]
  exact h.of_lookup fun other saved found => by rwa [undo_replaced]

theorem Unwinds.keep (h : session.Unwinds setting base stack (session.settings.get setting))
    (kept : next.settings = session.settings ∧ next.replaced = session.replaced) :
    next.Unwinds setting base stack (next.settings.get setting) := by
  rw [kept.1]
  exact h.of_lookup fun other saved found => by rwa [kept.2]

theorem unwinds_bind {entries : List (Text × Term)}
    (naming : session.Naming (.bind id entries :: steps) setting names)
    (h : session.Unwinds setting base stack (session.settings.get setting))
    (turned : Turn.stillOpen stack
      ((Step.bind id entries).turn? setting names).toList = some after) :
    (session.bind id entries).1.Naming steps setting names ∧
      (session.bind id entries).1.Unwinds setting base after
        ((session.bind id entries).1.settings.get setting) := by
  cases accepted : Settings.accepts entries with
  | false =>
      obtain ⟨-, -, -, -, kept⟩ := bind_of_not_accepts accepted session id
      have none : (Step.bind id entries).entered? = none := if_neg (by rw [accepted]; nofun)
      rw [Step.turn?, Step.enteredFor?, accepted] at turned
      cases turned
      exact ⟨naming.tail_of_entered_none none kept.2, h.keep kept⟩
  | true =>
      obtain ⟨values, resolved, mention⟩ := Settings.resolve_of_accepts accepted
      have fresh := naming.fresh id (Step.mem_entered List.mem_cons_self accepted)
      have pushed := (bind_of_resolve resolved session id).2
      rw [Step.turn?, Step.enteredFor?, accepted, Bool.true_and] at turned
      refine ⟨naming.tail_of_entered accepted ?_ pushed, ?_⟩
      · rw [List.map_map]
        exact mention setting
      · cases mentioned : Settings.mentions setting entries with
        | true =>
            rw [mentioned] at turned
            cases turned
            exact h.enter resolved ((mention setting).mpr mentioned) fresh
        | false =>
            rw [mentioned] at turned
            cases turned
            exact h.pass resolved (by rw [mention, mentioned]; nofun) fresh

theorem unwinds_undo (naming : session.Naming (.undo id :: steps) setting names)
    (h : session.Unwinds setting base stack (session.settings.get setting))
    (turned : Turn.stillOpen stack ((Step.undo id).turn? setting names).toList = some after) :
    (session.undo id).Unwinds setting base after ((session.undo id).settings.get setting) := by
  rw [Step.turn?] at turned
  cases named : names id with
  | true =>
      rw [named] at turned
      cases stack with
      | nil => cases turned
      | cons innermost outer =>
          rw [if_pos rfl, Option.toList_some, Turn.stillOpen] at turned
          split at turned
          · next same =>
              subst same
              cases turned
              exact h.leave
          · cases turned
  | false =>
      rw [named] at turned
      cases turned
      refine h.ignore fun old found => ?_
      rw [← naming.earlier id old found, named]
      nofun

/-- One step: what it does to the open bindings that name the setting is its turn. -/
theorem unwinds_step (naming : session.Naming (step :: steps) setting names)
    (h : session.Unwinds setting base stack (session.settings.get setting))
    (turned : Turn.stillOpen stack (step.turn? setting names).toList = some after) :
    (session.step step).1.Naming steps setting names ∧
      (session.step step).1.Unwinds setting base after
        ((session.step step).1.settings.get setting) := by
  cases step with
  | bind id entries => exact unwinds_bind naming h turned
  | undo id =>
      exact ⟨naming.tail_of_entered_none rfl (session.undo_replaced id),
        unwinds_undo naming h turned⟩
  | format control arguments stream =>
      cases turned
      have kept := session.deliver_keeps stream (Control.formatTerm control arguments)
      exact ⟨naming.tail_of_entered_none rfl kept.2, h.keep kept⟩
  | portray t stream =>
      cases turned
      have kept := session.deliver_keeps stream (Clause.portray session.settings.clauseIndent t)
      exact ⟨naming.tail_of_entered_none rfl kept.2, h.keep kept⟩

theorem unwinds_run (naming : session.Naming steps setting names)
    (h : session.Unwinds setting base stack (session.settings.get setting))
    (turned : Turn.stillOpen stack (steps.filterMap (Step.turn? setting names)) = some after) :
    (session.run steps).Unwinds setting base after
      ((session.run steps).settings.get setting) := by
  induction steps generalizing session stack with
  | nil =>
      cases turned
      exact h
  | cons step rest ih =>
      have split : (step :: rest).filterMap (Step.turn? setting names) =
          (step.turn? setting names).toList ++ rest.filterMap (Step.turn? setting names) := by
        rw [List.filterMap_cons]
        cases step.turn? setting names <;> rfl
      rw [split, Turn.stillOpen_append, Option.bind_eq_some_iff] at turned
      obtain ⟨between, first, others⟩ := turned
      obtain ⟨naming, h⟩ := unwinds_step naming h first
      exact ih naming h others

end

/-- Where every binding has an identity of its own, a setting has, behind steps in which the
bindings that name it are well nested and all left, the value that it had before them, however the
bindings of the other setting lie across these. A binding that gives a value to a name that is none
is refused for such a name and changes no setting. -/
theorem settings_run_restored (session : Session) (steps : List Step)
    (distinct : (steps.filterMap Step.entered?).Nodup)
    (fresh : ∀ id ∈ steps.filterMap Step.entered?, session.replaced.lookup id = none) :
    (∀ setting, Turn.WellNested (session.turns steps setting) →
      (session.run steps).settings.get setting = session.settings.get setting) ∧
    ∀ (current : Session) id entries, (∃ entry ∈ entries, Setting.ofName? entry.1 = none) →
      (∃ entry ∈ entries, Setting.ofName? entry.1 = none ∧
        (current.step (.bind id entries)).2 = .error (Setting.refusal entry.1)) ∧
      (current.step (.bind id entries)).1.settings = current.settings := by
  refine ⟨fun setting nested => ?_, fun current id entries unknown => ?_⟩
  · have start : session.Unwinds setting (session.settings.get setting) []
        (session.settings.get setting) := rfl
    exact unwinds_run (naming_names distinct fresh setting) start nested
  · have refused : Settings.accepts entries = false := by
      obtain ⟨entry, member, none⟩ := unknown
      exact List.all_eq_false.mpr ⟨entry, member, by rw [none]; nofun⟩
    obtain ⟨entry, member, none, outcome, kept, -⟩ := bind_of_not_accepts refused current id
    exact ⟨⟨entry, member, none, outcome⟩, kept⟩

def overlapping : List Step :=
  [.bind "a" [("output", .atom "log")], .bind "b" [("clause_indent", .int 7)],
    .format (.atom "~a") (.list []) none, .bind "c" [("output", .null), ("margin", .int 1)],
    .undo "a", .bind "d" [("clause_indent", .int 0), ("output", .atom "log")],
    .portray (.atom "x") none, .undo "d", .undo "b"]

theorem settings_run_restored_overlapping :
    (overlapping.filterMap Step.entered?).Nodup ∧
    (∀ id ∈ overlapping.filterMap Step.entered?, Session.initial.replaced.lookup id = none) ∧
    (∀ setting, Turn.WellNested (Session.initial.turns overlapping setting)) ∧
    (∀ setting, (Session.initial.run overlapping).settings.get setting =
      Session.initial.settings.get setting) ∧
    (Session.initial.step (.bind "c" [("output", .null), ("margin", .int 1)])).1.settings =
      Session.initial.settings := by
  have distinct : (overlapping.filterMap Step.entered?).Nodup := by decide +kernel
  have fresh : ∀ id ∈ overlapping.filterMap Step.entered?,
      Session.initial.replaced.lookup id = none := by
    intro id _
    rfl
  have nested (setting : Setting) :
      Turn.WellNested (Session.initial.turns overlapping setting) := by
    cases setting <;> decide +kernel
  have unknown : ∃ entry ∈ [(("output" : Text), Term.null), ("margin", .int 1)],
      Setting.ofName? entry.1 = none := by
    decide +kernel
  obtain ⟨restored, refused⟩ := settings_run_restored Session.initial overlapping distinct fresh
  exact ⟨distinct, fresh, nested, fun setting => restored setting (nested setting),
    (refused Session.initial "c" _ unknown).2⟩

end Session

end LogicFormat
