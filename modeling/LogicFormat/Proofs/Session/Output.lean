import LogicFormat.Proofs.Session.Steps
import Mathlib.Data.List.Basic

/-!
# What is written where

Every stream holds what the calls that succeeded have written to it, in their order, and the console
holds the rest. A call writes its whole text or, if it fails, nothing. This rests on the streams
that output goes to being there: a stream is named before the setting can take it as its value, and
a binding puts back only values that were in force.
-/

namespace LogicFormat

namespace Settings

/-- Output goes to the stream that is the value of its setting, and to the console for `null`. -/
theorem sink_eq_ok {settings : Settings} {sink : Sink} :
    settings.sink = .ok sink ↔ settings.output = sink.elim .null .atom := by
  unfold Settings.sink
  cases settings.output <;> cases sink <;> simp

theorem settingsOf_of_resolve {entries : List (Text × Term)} {values : List (Setting × Term)}
    (resolved : resolve entries = .ok values) : settingsOf entries = .ok values := by
  unfold resolve at resolved
  split at resolved
  · cases resolved
  · exact resolved

theorem mem_of_settingsOf {entries : List (Text × Term)} {values : List (Setting × Term)}
    (resolved : settingsOf entries = .ok values) {setting : Setting} {value : Term}
    (member : (setting, value) ∈ values) :
    ∃ name, (name, value) ∈ entries ∧ Setting.ofName? name = some setting := by
  induction entries generalizing values with
  | nil =>
      cases resolved
      cases member
  | cons entry rest ih =>
      obtain ⟨name, first⟩ := entry
      rw [settingsOf] at resolved
      split at resolved
      · cases resolved
      · next setting named =>
          obtain ⟨others, tail, resolved⟩ := Outcome.bind_eq_ok.mp resolved
          cases resolved
          rcases List.mem_cons.mp member with here | later
          · cases here
            exact ⟨name, List.mem_cons_self, named⟩
          · obtain ⟨other, inRest, otherNamed⟩ := ih tail later
            exact ⟨other, List.mem_cons_of_mem _ inRest, otherNamed⟩

end Settings

namespace Session

/-! ## What calls write -/

/-- A stream that is not named yet holds no text. -/
def textOf (session : Session) : Sink → Text
  | some name => (session.streams.text? name).getD []
  | none => session.console

/-- A text and where it goes: to the stream that is named, or else to the one that the settings have
for output, or else to the console. -/
def delivered? (settings : Settings) (stream : Option Text) (outcome : Except Fault Text) :
    Option (Sink × Text) := do
  let text ← outcome.toOption
  let sink ← (settings.target stream).toOption
  return (sink, text)

def Step.delivery? (settings : Settings) : Step → Option (Sink × Text)
  | .format control arguments stream =>
      delivered? settings stream (Control.formatTerm control arguments)
  | .portray t stream => delivered? settings stream (Clause.portray settings.clauseIndent t)
  | _ => none

def deliveries : Session → List Step → List (Sink × Text)
  | _, [] => []
  | session, step :: steps =>
      (step.delivery? session.settings).toList ++ deliveries (session.step step).1 steps

/-- The texts for one sink, put together. -/
def received (sink : Sink) (deliveries : List (Sink × Text)) : Text :=
  (deliveries.filter fun delivery => delivery.1 = sink).flatMap Prod.snd

theorem received_append (sink : Sink) (first second : List (Sink × Text)) :
    received sink (first ++ second) = received sink first ++ received sink second := by
  rw [received, List.filter_append, List.flatMap_append]
  rfl

theorem received_singleton (sink target : Sink) (text : Text) :
    received sink [(target, text)] = if target = sink then text else [] := by
  by_cases same : target = sink
  · simp [received, same]
  · simp [received, same]

/-! ## Naming streams -/

def Has (session : Session) (name : Text) : Prop := session.streams.text? name ≠ none

/-- Streams may have been named, but nothing is written. -/
structure Extends (session next : Session) : Prop where
  text : ∀ sink, next.textOf sink = session.textOf sink
  has : ∀ name, session.Has name → next.Has name

variable {session next : Session} {stream name : Text}

theorem Extends.refl (session : Session) : session.Extends session := ⟨fun _ => rfl, fun _ => id⟩

theorem Extends.trans {last : Session} (one : session.Extends next) (two : next.Extends last) :
    session.Extends last :=
  ⟨fun sink => (two.text sink).trans (one.text sink), fun name h => two.has name (one.has name h)⟩

theorem extends_name (session : Session) (stream : Text) :
    session.Extends (session.name stream) := by
  refine ⟨fun sink => ?_, fun name has => ?_⟩
  · cases sink with
    | none => rfl
    | some name =>
        show ((session.streams.named stream).text? name).getD [] = _
        rw [Streams.text?_named]
        by_cases same : name = stream
        · rw [if_pos same, same]
          rfl
        · rw [if_neg same]
          rfl
  · show (session.streams.named stream).text? name ≠ none
    rw [Streams.text?_named]
    by_cases same : name = stream
    · rw [if_pos same]
      exact Option.some_ne_none _
    · rw [if_neg same]
      exact has

theorem has_name (session : Session) (stream : Text) : (session.name stream).Has stream := by
  show (session.streams.named stream).text? stream ≠ none
  rw [Streams.text?_named, if_pos rfl]
  exact Option.some_ne_none _

theorem extends_nameOutputs (session : Session) (entries : List (Text × Term)) :
    session.Extends (session.nameOutputs entries) ∧
      ∀ name stream, (name, .atom stream) ∈ entries → Setting.ofName? name = some .output →
        (session.nameOutputs entries).Has stream := by
  induction entries generalizing session with
  | nil => exact ⟨.refl session, fun _ _ member => nomatch member⟩
  | cons entry rest ih =>
      obtain ⟨key, value⟩ := entry
      rw [nameOutputs, List.foldl_cons, ← nameOutputs]
      split
      · next other _ bound =>
          obtain ⟨extended, has⟩ := ih (session.name other)
          refine ⟨(session.extends_name other).trans extended, fun name stream member named => ?_⟩
          rcases List.mem_cons.mp member with here | later
          · cases here
            cases bound
            exact extended.has other (session.has_name other)
          · exact has name stream later named
      · next unmatched =>
          obtain ⟨extended, has⟩ := ih session
          refine ⟨extended, fun name stream member named => ?_⟩
          rcases List.mem_cons.mp member with here | later
          · cases here
            exact absurd rfl (unmatched stream named)
          · exact has name stream later named

theorem extends_bind (session : Session) (id : Text) (entries : List (Text × Term)) :
    session.Extends (session.bind id entries).1 := by
  have named := (session.extends_nameOutputs entries).1
  unfold bind
  cases Settings.resolve entries with
  | error fault => exact named
  | ok values => exact ⟨named.text, named.has⟩

theorem extends_undo (session : Session) (id : Text) : session.Extends (session.undo id) := by
  unfold undo
  split
  · exact ⟨fun sink => by cases sink <;> rfl, fun _ has => has⟩
  · exact .refl session

theorem extends_nameSink (session : Session) (stream : Option Text) :
    session.Extends (session.nameSink stream) := by
  cases stream with
  | none => exact .refl session
  | some name => exact session.extends_name name

/-! ## Writing -/

theorem textOf_write (session : Session) (text : Text) (target : Sink)
    (there : ∀ name, target = some name → session.Has name) (sink : Sink) :
    (session.write text target).textOf sink =
      session.textOf sink ++ if target = sink then text else [] := by
  cases target with
  | none =>
      cases sink with
      | none => rfl
      | some name => exact (List.append_nil _).symm
  | some name =>
      cases sink with
      | none => exact (List.append_nil _).symm
      | some other =>
          show ((session.streams.write name text).text? other).getD [] = _
          rw [Streams.text?_write]
          by_cases same : other = name
          · obtain ⟨written, found⟩ := Option.ne_none_iff_exists'.mp (there name rfl)
            rw [if_pos same, if_pos (congrArg some same.symm), textOf, same, found]
            rfl
          · have apart : some name ≠ some other := fun h => same (Option.some_inj.mp h).symm
            rw [if_neg same, if_neg apart, List.append_nil, textOf]

theorem has_write (session : Session) (text : Text) (target : Sink) {name : Text}
    (has : session.Has name) : (session.write text target).Has name := by
  cases target with
  | none => exact has
  | some stream =>
      show (session.streams.write stream text).text? name ≠ none
      rw [Streams.text?_write]
      split
      · obtain ⟨written, found⟩ := Option.ne_none_iff_exists'.mp has
        rw [found]
        exact Option.some_ne_none _
      · exact has

/-! ## The streams that output goes to are there -/

/-- The stream that output goes to is there, and so is each that it goes to again when a binding is
undone. -/
structure Grounded (session : Session) : Prop where
  current : ∀ name, session.settings.output = .atom name → session.Has name
  saved : ∀ binding ∈ session.replaced, ∀ name, (Setting.output, Term.atom name) ∈ binding.2 →
    session.Has name

namespace Grounded

theorem initial : Session.initial.Grounded := ⟨nofun, nofun⟩

theorem keep (h : session.Grounded)
    (same : next.settings = session.settings ∧ next.replaced = session.replaced)
    (has : ∀ name, session.Has name → next.Has name) : next.Grounded := by
  refine ⟨fun name output => ?_, fun binding member name value => ?_⟩
  · rw [same.1] at output
    exact has name (h.current name output)
  · rw [same.2] at member
    exact has name (h.saved binding member name value)

theorem of_setAll {values : List (Setting × Term)} (h : session.Grounded)
    (set : next.settings = session.settings.setAll values)
    (has : ∀ name, session.Has name → next.Has name)
    (valuesThere : ∀ name, (Setting.output, Term.atom name) ∈ values → next.Has name) :
    ∀ name, next.settings.output = .atom name → next.Has name := by
  intro name output
  have value : (session.settings.setAll values).get .output = .atom name := by
    rw [← set]
    exact output
  rcases Settings.get_setAll_mem session.settings values .output with kept | taken
  · exact has name (h.current name (kept.symm.trans value))
  · rw [value] at taken
    exact valuesThere name taken

theorem bind (h : session.Grounded) (id : Text) (entries : List (Text × Term)) :
    (session.bind id entries).1.Grounded := by
  have has := (session.extends_bind id entries).has
  cases accepted : Settings.accepts entries with
  | false =>
      obtain ⟨-, -, -, -, same⟩ := bind_of_not_accepts accepted session id
      exact h.keep same has
  | true =>
      obtain ⟨values, resolved, -⟩ := Settings.resolve_of_accepts accepted
      obtain ⟨settings, replaced⟩ := bind_of_resolve resolved session id
      refine ⟨h.of_setAll settings has fun name member => ?_, fun binding member name value => ?_⟩
      · obtain ⟨key, inEntries, named⟩ :=
          Settings.mem_of_settingsOf (Settings.settingsOf_of_resolve resolved) member
        have there := (session.extends_nameOutputs entries).2 key name inEntries named
        unfold Session.bind
        rw [resolved]
        exact there
      · rw [replaced] at member
        rcases List.mem_cons.mp member with rfl | earlier
        · -- what the new binding saved was in force before it
          obtain ⟨bound, -, saved⟩ := List.mem_map.mp value
          obtain ⟨output, inForce⟩ := Prod.mk.inj saved
          rw [output] at inForce
          exact has name (h.current name inForce)
        · exact has name (h.saved binding earlier name value)

theorem undo (h : session.Grounded) (id : Text) : (session.undo id).Grounded := by
  have has := (session.extends_undo id).has
  refine ⟨?_, fun binding member name value => ?_⟩
  · unfold Session.undo at has ⊢
    cases found : session.replaced.lookup id with
    | none => exact h.current
    | some old =>
        rw [found] at has
        obtain ⟨before, after, same, -⟩ := List.lookup_eq_some_iff.mp found
        have member : (id, old) ∈ session.replaced := by
          rw [same]
          exact List.mem_append_right _ List.mem_cons_self
        exact h.of_setAll rfl has fun name value => has name (h.saved _ member name value)
  · rw [undo_replaced] at member
    exact has name (h.saved binding member name value)

theorem deliver (h : session.Grounded) (stream : Option Text) (outcome : Except Fault Text) :
    (session.deliver stream outcome).1.Grounded := by
  refine h.keep (session.deliver_keeps stream outcome) fun name there => ?_
  have named := (session.extends_nameSink stream).has name there
  rcases session.deliver_cases stream outcome with ⟨_, -, done⟩ | ⟨text, target, -, -, done⟩
  · rw [done]
    exact named
  · rw [done]
    exact has_write _ text target named

/-- A stream that a call may write to is there when it has been named. -/
theorem has_of_target (h : session.Grounded) {stream : Option Text} {name : Text}
    (target : session.settings.target stream = .ok (some name)) :
    (session.nameSink stream).Has name := by
  cases stream with
  | none => exact h.current name (Settings.sink_eq_ok.mp target)
  | some stream =>
      cases target
      exact session.has_name name

theorem step (h : session.Grounded) (step : Step) : (session.step step).1.Grounded := by
  cases step with
  | bind id entries => exact h.bind id entries
  | undo id => exact h.undo id
  | format control arguments stream => exact h.deliver stream _
  | portray t stream => exact h.deliver stream _

end Grounded

/-! ## The account of a run -/

theorem textOf_deliver (h : session.Grounded) (stream : Option Text) (outcome : Except Fault Text)
    (sink : Sink) :
    (session.deliver stream outcome).1.textOf sink =
      session.textOf sink ++
        received sink (delivered? session.settings stream outcome).toList := by
  have named := (session.extends_nameSink stream).text sink
  rcases session.deliver_cases stream outcome with
    ⟨_, failed, done⟩ | ⟨text, target, rfl, found, done⟩
  · -- the stream may have been named before the call failed
    have nothing : delivered? session.settings stream outcome = none := by
      rcases failed with rfl | ⟨text, rfl, missing⟩
      · rfl
      · rw [delivered?, missing]
        rfl
    rw [done, nothing]
    exact named.trans (List.append_nil _).symm
  · have there : ∀ name, target = some name → (session.nameSink stream).Has name := by
      rintro name rfl
      exact h.has_of_target found
    rw [done, delivered?, found, textOf_write _ text target there, named]
    exact congrArg _ (received_singleton sink target text).symm

theorem deliver_outcome (session : Session) (stream : Option Text) (outcome : Except Fault Text) :
    (session.deliver stream outcome).2 =
      outcome >>= fun _ => (session.settings.target stream).map fun _ => () := by
  rcases session.deliver_cases stream outcome with
    ⟨_, rfl | ⟨_, rfl, missing⟩, done⟩ | ⟨_, _, rfl, found, done⟩
  · rw [done]
    rfl
  · rw [done, missing]
    rfl
  · rw [done, found]
    rfl

theorem textOf_step (h : session.Grounded) (step : Step) (sink : Sink) :
    (session.step step).1.textOf sink =
      session.textOf sink ++ received sink (step.delivery? session.settings).toList := by
  cases step with
  | bind id entries =>
      exact ((session.extends_bind id entries).text sink).trans (List.append_nil _).symm
  | undo id => exact ((session.extends_undo id).text sink).trans (List.append_nil _).symm
  | format control arguments stream => exact textOf_deliver h stream _ sink
  | portray t stream => exact textOf_deliver h stream _ sink

theorem textOf_run (h : session.Grounded) (steps : List Step) (sink : Sink) :
    (session.run steps).textOf sink =
      session.textOf sink ++ received sink (session.deliveries steps) := by
  induction steps generalizing session with
  | nil => exact (List.append_nil _).symm
  | cons step steps ih =>
      have later := ih (h.step step)
      rw [textOf_step h step, List.append_assoc, ← received_append] at later
      exact later

theorem textOf_deliver_of_error {stream : Option Text} {outcome : Except Fault Text} {fault : Fault}
    (failed : (session.deliver stream outcome).2 = .error fault) (sink : Sink) :
    (session.deliver stream outcome).1.textOf sink = session.textOf sink := by
  rcases session.deliver_cases stream outcome with ⟨_, -, done⟩ | ⟨_, _, -, -, done⟩
  · rw [done]
    exact (session.extends_nameSink stream).text sink
  · rw [done] at failed
    cases failed

theorem textOf_step_of_error {step : Step} {fault : Fault}
    (failed : (session.step step).2 = .error fault) (sink : Sink) :
    (session.step step).1.textOf sink = session.textOf sink := by
  cases step with
  | bind id entries => exact (session.extends_bind id entries).text sink
  | undo id => exact (session.extends_undo id).text sink
  | format control arguments stream => exact textOf_deliver_of_error failed sink
  | portray t stream => exact textOf_deliver_of_error failed sink

/-- At the end of a session, every stream and the console hold what the calls that succeeded wrote
to them, one after the other. A step that fails changes no text; a call succeeds or fails as the
text that it is to write does, and after it the place where that goes, and changes no setting. -/
theorem run_written (steps : List Step) :
    (∀ sink, (Session.initial.run steps).textOf sink =
      received sink (Session.initial.deliveries steps)) ∧
    ∀ session : Session,
      (∀ step fault, (session.step step).2 = .error fault →
        ∀ sink, (session.step step).1.textOf sink = session.textOf sink) ∧
      (∀ control arguments stream,
        let done := session.step (.format control arguments stream)
        done.2 = (Control.formatTerm control arguments >>= fun _ =>
            (session.settings.target stream).map fun _ => ()) ∧
          done.1.settings = session.settings) ∧
      ∀ t stream,
        let done := session.step (.portray t stream)
        done.2 = (Clause.portray session.settings.clauseIndent t >>= fun _ =>
            (session.settings.target stream).map fun _ => ()) ∧
          done.1.settings = session.settings := by
  refine ⟨fun sink => ?_, fun session => ⟨?_, ?_, ?_⟩⟩
  · have account := textOf_run Grounded.initial steps sink
    have empty : Session.initial.textOf sink = [] := by
      cases sink <;> rfl
    rw [account, empty, List.nil_append]
  · exact fun step fault failed sink => textOf_step_of_error failed sink
  · exact fun control arguments stream =>
      ⟨session.deliver_outcome stream _, (session.deliver_keeps stream _).1⟩
  · exact fun t stream =>
      ⟨session.deliver_outcome stream _, (session.deliver_keeps stream _).1⟩

/-- A call that fails behind the text `lost`, between two that write to a stream and one that writes
to the console. -/
def interrupted : List Step :=
  [.bind "a" [("output", .atom "log")], .format (.atom "x~w~n") (.list [.int 1]) none,
    .format (.atom "lost~d") (.list [.atom "y"]) none, .undo "a", .portray (.atom "p") none,
    .format (.atom "z") (.list []) (some "log")]

theorem run_written_interrupted :
    (Session.initial.step (.format (.atom "lost~d") (.list [.atom "y"]) none)).2 =
        .error (.wrongType .integer (.atom "y")) ∧
    (∀ sink, (Session.initial.step
      (.format (.atom "lost~d") (.list [.atom "y"]) none)).1.textOf sink =
        Session.initial.textOf sink) ∧
    (Session.initial.run interrupted).textOf (some "log") = ['x', '1', '\n', 'z'] ∧
    (Session.initial.run interrupted).textOf none = ['p', '.', '\n'] := by
  have failed : (Session.initial.step (.format (.atom "lost~d") (.list [.atom "y"]) none)).2 =
      .error (.wrongType .integer (.atom "y")) := by
    decide +kernel
  obtain ⟨account, steps⟩ := run_written interrupted
  refine ⟨failed, (steps Session.initial).1 _ _ failed, (account _).trans ?_, (account _).trans ?_⟩
  · decide +kernel
  · decide +kernel

end Session

end LogicFormat
