import LogicFormat.Text

/-!
# Streams

Named texts that are only written to at their end, in the order of their names.
-/

namespace LogicFormat

/-- The name of a stream, or the console. -/
abbrev Sink := Option Text

abbrev Streams := List (Text × Text)

namespace Streams

def text? (name : Text) : Streams → Option Text
  | [] => none
  | (other, text) :: rest => if name = other then some text else text? name rest

/-- An empty stream, before the first one whose name is greater. -/
def insert (name : Text) : Streams → Streams
  | [] => [(name, [])]
  | (other, text) :: rest =>
      if name < other then (name, []) :: (other, text) :: rest
      else (other, text) :: insert name rest

/-- A stream comes into being, empty, when it is first named. -/
def named (streams : Streams) (name : Text) : Streams :=
  match streams.text? name with
  | some _ => streams
  | none => streams.insert name

def write (name text : Text) : Streams → Streams
  | [] => []
  | (other, written) :: rest =>
      if name = other then (other, written ++ text) :: rest
      else (other, written) :: write name text rest

theorem text?_insert (streams : Streams) (name other : Text) (h : streams.text? name = none) :
    (streams.insert name).text? other = if other = name then some [] else streams.text? other := by
  induction streams with
  | nil => rfl
  | cons stream rest ih =>
      obtain ⟨key, text⟩ := stream
      simp only [text?] at h
      split at h
      · contradiction
      · rename_i differs
        unfold insert
        split
        · rfl
        · simp only [text?, ih h]
          by_cases same : other = key
          · subst same
            rw [if_pos rfl, if_pos rfl, if_neg (fun e => differs e.symm)]
          · rw [if_neg same, if_neg same]

theorem text?_named (streams : Streams) (name other : Text) :
    (streams.named name).text? other =
      if other = name then some ((streams.text? name).getD []) else streams.text? other := by
  unfold named
  split
  · rename_i text found
    by_cases same : other = name
    · rw [if_pos same, same, found]
      rfl
    · rw [if_neg same]
  · rename_i missing
    rw [text?_insert streams name other missing, missing]
    rfl

theorem text?_write (streams : Streams) (name text other : Text) :
    (streams.write name text).text? other =
      if other = name then (streams.text? other).map (· ++ text) else streams.text? other := by
  induction streams with
  | nil => simp [write, text?]
  | cons stream rest ih =>
      obtain ⟨key, written⟩ := stream
      by_cases here : name = key
      · subst here
        by_cases same : other = name <;> simp [write, text?, same]
      · by_cases same : other = name
        · subst same
          simp [write, text?, here, ih]
        · simp [write, text?, here, ih, same]

end Streams

end LogicFormat
