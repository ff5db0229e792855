import LogicFormat.Session.Settings
import LogicFormat.Session.Streams

/-!
# Sessions

A session writes formatted text and portrayed clauses to streams. Settings are changed by
bindings, each of which remembers the values it replaced and puts them back when it is undone,
in whatever order bindings are undone. A call that fails writes nothing.
-/

namespace LogicFormat

structure Session where
  settings : Settings
  /-- What each binding replaced, the latest binding first. -/
  replaced : List (Text × List (Setting × Term))
  console : Text
  streams : Streams

namespace Session

inductive Step where
  | bind (id : Text) (entries : List (Text × Term))
  | undo (id : Text)
  | format (control arguments : Term) (stream : Option Text)
  | portray (t : Term) (stream : Option Text)

def initial : Session := ⟨.initial, [], [], []⟩

def name (session : Session) (stream : Text) : Session :=
  { session with streams := session.streams.named stream }

/-- The streams named as values of the output setting. -/
def nameOutputs (session : Session) (entries : List (Text × Term)) : Session :=
  entries.foldl (fun current entry =>
    match Setting.ofName? entry.1, entry.2 with
    | some .output, .atom stream => current.name stream
    | _, _ => current) session

def bind (session : Session) (id : Text) (entries : List (Text × Term)) :
    Session × Except Fault Unit :=
  let session := session.nameOutputs entries
  match Settings.resolve entries with
  | .error fault => (session, .error fault)
  | .ok values =>
      let old := values.map fun entry => (entry.1, session.settings.get entry.1)
      ({ session with
          settings := session.settings.setAll values
          replaced := (id, old) :: session.replaced }, .ok ())

/-- Puts back what a binding replaced; it may be undone again. -/
def undo (session : Session) (id : Text) : Session :=
  match session.replaced.lookup id with
  | some old => { session with settings := session.settings.setAll old }
  | none => session

def nameSink (session : Session) : Option Text → Session
  | some stream => session.name stream
  | none => session

def write (session : Session) (text : Text) : Sink → Session
  | some name => { session with streams := session.streams.write name text }
  | none => { session with console := session.console ++ text }

/-- A text is there before it is asked where it goes. -/
def deliver (session : Session) (stream : Option Text) (outcome : Except Fault Text) :
    Session × Except Fault Unit :=
  let session := session.nameSink stream
  match outcome with
  | .error fault => (session, .error fault)
  | .ok text =>
      match session.settings.target stream with
      | .error fault => (session, .error fault)
      | .ok sink => (session.write text sink, .ok ())

def step (session : Session) : Step → Session × Except Fault Unit
  | .bind id entries => session.bind id entries
  | .undo id => (session.undo id, .ok ())
  | .format control arguments stream =>
      session.deliver stream (Control.formatTerm control arguments)
  | .portray t stream =>
      session.deliver stream (Clause.portray session.settings.clauseIndent t)

def run (session : Session) (steps : List Step) : Session :=
  steps.foldl (fun current next => (current.step next).1) session

end Session

end LogicFormat
