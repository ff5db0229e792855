import LogicFormat.Term.Basic

/-!
# Faults

Everything that can go wrong, by cause. A fault of formatting is reported as a complaint, which
names a domain or type and the culprit that falls outside it; the other faults have a message.
A computation that may end in a fault is peeled apart at its first step.
-/

namespace LogicFormat

inductive Expected where
  | chars
  | list
  | atom
  | integer
  | number
  deriving DecidableEq

def Expected.name : Expected → Text
  | .chars => "chars"
  | .list => "list"
  | .atom => "atom"
  | .integer => "integer"
  | .number => "number"

inductive Fault where
  /-- A directive that does not exist, or not with its parameter. -/
  | unknownDirective (token : Text)
  | missingArgument (token : Text)
  | leftoverArguments (rest : List Term)
  | negativeCount (n : Int)
  | wrongType (expected : Expected) (culprit : Term)
  /-- `null` among the terms to write. -/
  | unwritable
  | notNumber (t : Term)
  | functorNotAtom
  | noArguments
  | unknownSetting (name : Text)
  /-- The name of a binding itself among those of settings. -/
  | reservedName
  | notStream (value : Term)
  | slotOutOfRange
  /-- Groups of no digits. -/
  | emptyGroups
  /-- A list among terms of which duplicates are dropped. -/
  | listNotComparable
  | indentNotNumber
  deriving DecidableEq

/-- The reading of a term as what was expected of it, if it has one. -/
def Expected.require {α : Type} (expected : Expected) (t : Term) :
    Option α → Except Fault α
  | some reading => .ok reading
  | none => .error (.wrongType expected t)

theorem Expected.require_eq_ok {α : Type} {expected : Expected} {t : Term} {reading : Option α}
    {a : α} : expected.require t reading = .ok a ↔ reading = some a := by
  cases reading <;> simp [require]

inductive Category where
  | general
  | domain
  | argumentMismatch
  | unknownDirective
  | typeMismatch
  deriving DecidableEq

def Category.kind : Category → Text
  | .general => "format_error"
  | .domain | .argumentMismatch | .unknownDirective => "domain_error"
  | .typeMismatch => "type_error"

structure Complaint where
  category : Category
  type : Text
  culprit : Term
  deriving DecidableEq

namespace Complaint

def kind (complaint : Complaint) : Text := complaint.category.kind

def message (complaint : Complaint) : Text :=
  complaint.kind ++ "(" ++ complaint.type ++ ", " ++ complaint.culprit.display ++ ")"

def unknownDirective (culprit : Term) : Complaint :=
  ⟨.unknownDirective, "format_string", culprit⟩

end Complaint

namespace Fault

def complaint? : Fault → Option Complaint
  | .unknownDirective token => some (.unknownDirective (.atom token))
  | .missingArgument token => some ⟨.argumentMismatch, "format_string", .atom token⟩
  | .leftoverArguments rest => some ⟨.argumentMismatch, "no_remaining_arguments", .list rest⟩
  | .negativeCount n => some ⟨.domain, "not_less_than_zero", .int n⟩
  | .wrongType expected culprit => some ⟨.typeMismatch, expected.name, culprit⟩
  | _ => none

def message : Fault → Text
  | .unwritable => "cannot write " ++ Term.display .null ++ " as a term"
  | .notNumber t => "expected a number, got " ++ t.display
  | .functorNotAtom => "functor name must be an atom"
  | .noArguments => "compound terms need at least one argument"
  | .unknownSetting name => "no printer variable named " ++ name.display
  | .reservedName => "a binding cannot take a value for itself"
  | .notStream value => "cannot write to " ++ value.display
  | .slotOutOfRange => "glue slot out of range"
  | .emptyGroups => "groups must not be empty"
  | .listNotComparable => "lists cannot be told apart from their duplicates"
  | .indentNotNumber => "the indentation must be a number"
  | fault => (fault.complaint?.map Complaint.message).getD []

end Fault

/-! ## Outcomes -/

namespace Outcome

variable {α β : Type}

@[simp] theorem ok_bind (a : α) (next : α → Except Fault β) :
    ((Except.ok a : Except Fault α) >>= next) = next a := rfl

@[simp] theorem error_bind (fault : Fault) (next : α → Except Fault β) :
    ((Except.error fault : Except Fault α) >>= next) = .error fault := rfl

theorem bind_eq_ok {first : Except Fault α} {next : α → Except Fault β} {b : β} :
    first >>= next = .ok b ↔ ∃ a, first = .ok a ∧ next a = .ok b := by
  cases first with
  | error fault => simp
  | ok a => simp

theorem bind_eq_error {first : Except Fault α} {next : α → Except Fault β} {fault : Fault} :
    first >>= next = .error fault ↔
      first = .error fault ∨ ∃ a, first = .ok a ∧ next a = .error fault := by
  cases first with
  | error fault => simp
  | ok a => simp

end Outcome

end LogicFormat
