import LogicFormat.Fault

/-!
# Connectives

Compound terms from a functor and its arguments, and the connectives of clauses from their
goals. Conjunctions and disjunctions nest to the right. The other way round, the body of a clause
is read as the goals that these connectives join; an arrow is a conditional only as the left side
of a disjunction, and everywhere else it is a goal like any other term.
-/

namespace LogicFormat

namespace Term

def assemble (functor : Term) (arguments : List Term) : Except Fault Term :=
  match functor, arguments with
  | .atom name, first :: others => .ok (.compound name first others)
  | .atom _, [] => .error .noArguments
  | _, _ => .error .functorNotAtom

def conjunction : List Term → Term
  | [] => .atom "true"
  | [goal] => goal
  | goal :: next :: rest => .compound [','] goal [conjunction (next :: rest)]

def disjunction : List Term → Term
  | [] => .atom "fail"
  | [goal] => goal
  | goal :: next :: rest => .compound [';'] goal [disjunction (next :: rest)]

def ifThenElse (condition thenGoal elseGoal : Term) : Term :=
  .compound [';'] (.compound "->" condition [thenGoal]) [elseGoal]

/-- A clause without goals is its head. -/
def clause (head : Term) (goals : List Term) : Term :=
  if goals.isEmpty then head else .compound ":-" head [conjunction goals]

/-- A grammar rule has a body even without goals. -/
def grammarRule (head : Term) (goals : List Term) : Term :=
  .compound "-->" head [conjunction goals]

end Term

/-! ## Goals -/

inductive Goal where
  | literal (t : Term)
  | both (first second : Goal)
  | either (first second : Goal)
  | conditional (condition consequence alternative : Goal)

namespace Goal

def ofTerm : Term → Goal
  | .compound name first [second] =>
      if name = [','] then .both (ofTerm first) (ofTerm second)
      else if name = [';'] then
        match first with
        | .compound arrow condition [consequence] =>
            if arrow = ['-', '>'] then
              .conditional (ofTerm condition) (ofTerm consequence) (ofTerm second)
            else .either (ofTerm (.compound arrow condition [consequence])) (ofTerm second)
        | other => .either (ofTerm other) (ofTerm second)
      else .literal (.compound name first [second])
  | t => .literal t

end Goal

end LogicFormat
