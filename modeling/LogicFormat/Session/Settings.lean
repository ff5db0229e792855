import LogicFormat.Clause.Printer
import LogicFormat.Session.Streams

/-!
# Settings

The values that printing depends on: the stream that takes the output, if it is not the
console, and the indentation of clause bodies.
-/

namespace LogicFormat

inductive Setting where
  | output
  | clauseIndent
  deriving DecidableEq

def Setting.ofName? (name : Text) : Option Setting :=
  if name = "output" then some .output
  else if name = "clause_indent" then some .clauseIndent
  else none

namespace Setting

/-- The name that a binding has for itself. -/
def reserved : Text := "self"

def refusal (name : Text) : Fault :=
  if name = reserved then .reservedName else .unknownSetting name

end Setting

structure Settings where
  /-- The name of a stream, or `null`. -/
  output : Term
  clauseIndent : Term
  deriving DecidableEq

namespace Settings

def initial : Settings := ⟨.null, Clause.standardIndent⟩

def get (settings : Settings) : Setting → Term
  | .output => settings.output
  | .clauseIndent => settings.clauseIndent

def set (settings : Settings) (setting : Setting) (value : Term) : Settings :=
  match setting with
  | .output => { settings with output := value }
  | .clauseIndent => { settings with clauseIndent := value }

@[simp] theorem get_set (settings : Settings) (setting : Setting) (value : Term) :
    (settings.set setting value).get setting = value := by
  cases setting <;> rfl

theorem get_set_of_ne (settings : Settings) {s t : Setting} (value : Term) (h : s ≠ t) :
    (settings.set s value).get t = settings.get t := by
  cases s with
  | output =>
      cases t with
      | output => exact absurd rfl h
      | clauseIndent => rfl
  | clauseIndent =>
      cases t with
      | output => rfl
      | clauseIndent => exact absurd rfl h

/-- Some values at once, of which a later one for the same setting counts. -/
def setAll (settings : Settings) (values : List (Setting × Term)) : Settings :=
  values.foldl (fun current entry => current.set entry.1 entry.2) settings

/-- Values that agree on a setting give it the value that they agree on. -/
theorem get_setAll {values : List (Setting × Term)} {setting : Setting} {value : Term}
    (same : ∀ entry ∈ values, entry.1 = setting → entry.2 = value) (settings : Settings) :
    (settings.setAll values).get setting =
      if setting ∈ values.map Prod.fst then value else settings.get setting := by
  induction values generalizing settings with
  | nil => rfl
  | cons entry rest ih =>
      rw [List.forall_mem_cons] at same
      have later := ih same.2 (settings.set entry.1 entry.2)
      rw [setAll, List.foldl_cons, ← setAll, later, List.map_cons]
      by_cases again : setting ∈ rest.map Prod.fst
      · rw [if_pos again, if_pos (List.mem_cons_of_mem _ again)]
      · by_cases here : entry.1 = setting
        · rw [if_neg again, if_pos (here ▸ List.mem_cons_self), here, get_set, same.1 here]
        · have absent : setting ∉ entry.1 :: rest.map Prod.fst := by
            rw [List.mem_cons]
            exact not_or.mpr ⟨fun h => here h.symm, again⟩
          rw [if_neg again, if_neg absent, get_set_of_ne settings entry.2 here]

/-- A setting keeps its value or takes one of those that are set. -/
theorem get_setAll_mem (settings : Settings) (values : List (Setting × Term)) (setting : Setting) :
    (settings.setAll values).get setting = settings.get setting ∨
      (setting, (settings.setAll values).get setting) ∈ values := by
  induction values generalizing settings with
  | nil => exact .inl rfl
  | cons entry rest ih =>
      rw [setAll, List.foldl_cons, ← setAll]
      rcases ih (settings.set entry.1 entry.2) with kept | taken
      · by_cases here : entry.1 = setting
        · subst here
          rw [kept, get_set]
          exact .inr List.mem_cons_self
        · exact .inl (kept.trans (get_set_of_ne settings entry.2 here))
      · exact .inr (List.mem_cons_of_mem _ taken)

/-- The settings named in some entries; the first name that is none is a fault. -/
def settingsOf : List (Text × Term) → Except Fault (List (Setting × Term))
  | [] => .ok []
  | (name, value) :: rest =>
      match Setting.ofName? name with
      | none => .error (.unknownSetting name)
      | some setting => do
          let others ← settingsOf rest
          return (setting, value) :: others

/-- The reserved name is refused before any other. -/
def resolve (entries : List (Text × Term)) : Except Fault (List (Setting × Term)) :=
  if entries.any fun entry => entry.1 = Setting.reserved then .error .reservedName
  else settingsOf entries

/-- Where output goes for which no stream is named. Only a stream can be written to. -/
def sink (settings : Settings) : Except Fault Sink :=
  match settings.output with
  | .null => .ok none
  | .atom name => .ok (some name)
  | value => .error (.notStream value)

/-- Where a call writes that may name a stream. -/
def target (settings : Settings) : Option Text → Except Fault Sink
  | some name => .ok (some name)
  | none => settings.sink

end Settings

end LogicFormat
