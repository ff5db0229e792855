import LogicFormat.Session.Basic

/-!
# Steps of a session

What each step does to the settings and to the bindings that can be undone. A binding is refused as
a whole if one of its entries names no setting; calls change neither.
-/

namespace LogicFormat

namespace Settings

/-- Whether every entry names a setting, without which none of them is bound. -/
def accepts (entries : List (Text × Term)) : Bool :=
  entries.all fun entry => (Setting.ofName? entry.1).isSome

def mentions (setting : Setting) (entries : List (Text × Term)) : Bool :=
  entries.any fun entry => Setting.ofName? entry.1 = some setting

theorem settingsOf_of_accepts {entries : List (Text × Term)} (accepted : accepts entries = true) :
    ∃ values, settingsOf entries = .ok values ∧
      ∀ setting, setting ∈ values.map Prod.fst ↔ mentions setting entries = true := by
  induction entries with
  | nil => exact ⟨[], rfl, fun setting => by simp [mentions]⟩
  | cons entry rest ih =>
      obtain ⟨name, value⟩ := entry
      rw [accepts, List.all_cons, Bool.and_eq_true] at accepted
      obtain ⟨first, named⟩ := Option.isSome_iff_exists.mp accepted.1
      obtain ⟨others, resolved, mentioned⟩ := ih accepted.2
      refine ⟨(first, value) :: others, ?_, fun setting => ?_⟩
      · rw [settingsOf, named, resolved]
        rfl
      · have front : mentions setting ((name, value) :: rest) =
            (decide (some first = some setting) || mentions setting rest) := by
          rw [← named]
          rfl
        rw [front, Bool.or_eq_true, decide_eq_true_iff, Option.some_inj, ← mentioned,
          List.map_cons, List.mem_cons, eq_comm]

theorem settingsOf_of_not_accepts {entries : List (Text × Term)}
    (refused : accepts entries = false) :
    ∃ entry ∈ entries, Setting.ofName? entry.1 = none ∧
      settingsOf entries = .error (.unknownSetting entry.1) := by
  induction entries with
  | nil => exact nomatch refused
  | cons entry rest ih =>
      obtain ⟨name, value⟩ := entry
      cases named : Setting.ofName? name with
      | none => exact ⟨_, List.mem_cons_self, named, by rw [settingsOf, named]⟩
      | some setting =>
          rw [accepts, List.all_cons, named] at refused
          obtain ⟨culprit, member, unknown, resolved⟩ := ih refused
          refine ⟨culprit, List.mem_cons_of_mem _ member, unknown, ?_⟩
          rw [settingsOf, named, resolved]
          rfl

theorem resolve_of_accepts {entries : List (Text × Term)} (accepted : accepts entries = true) :
    ∃ values, resolve entries = .ok values ∧
      ∀ setting, setting ∈ values.map Prod.fst ↔ mentions setting entries = true := by
  have unreserved : ¬ (entries.any fun entry => entry.1 = Setting.reserved) = true := by
    rw [List.any_eq_true]
    rintro ⟨entry, member, same⟩
    have known := List.all_eq_true.mp accepted entry member
    rw [of_decide_eq_true same] at known
    exact absurd known (by decide)
  rw [resolve, if_neg unreserved]
  exact settingsOf_of_accepts accepted

theorem resolve_of_not_accepts {entries : List (Text × Term)}
    (refused : accepts entries = false) :
    ∃ entry ∈ entries, Setting.ofName? entry.1 = none ∧
      resolve entries = .error (Setting.refusal entry.1) := by
  by_cases reserved : (entries.any fun entry => entry.1 = Setting.reserved) = true
  · obtain ⟨entry, member, same⟩ := List.any_eq_true.mp reserved
    have same := of_decide_eq_true same
    -- the reserved name is that of no setting either
    refine ⟨entry, member, by rw [same]; decide, ?_⟩
    rw [resolve, if_pos reserved, Setting.refusal, if_pos same]
  · obtain ⟨entry, member, unknown, found⟩ := settingsOf_of_not_accepts refused
    refine ⟨entry, member, unknown, ?_⟩
    have apart : entry.1 ≠ Setting.reserved :=
      fun same => reserved (List.any_eq_true.mpr ⟨entry, member, decide_eq_true same⟩)
    rw [resolve, if_neg reserved, found, Setting.refusal, if_neg apart]

end Settings

namespace Session

theorem nameOutputs_eq (session : Session) (entries : List (Text × Term)) :
    ∃ streams, session.nameOutputs entries = { session with streams := streams } := by
  unfold nameOutputs
  induction entries generalizing session with
  | nil => exact ⟨session.streams, rfl⟩
  | cons entry rest ih =>
      rw [List.foldl_cons]
      split
      · next stream _ _ => exact ih (session.name stream)
      · exact ih session

theorem bind_of_resolve {entries : List (Text × Term)} {values : List (Setting × Term)}
    (resolved : Settings.resolve entries = .ok values) (session : Session) (id : Text) :
    (session.bind id entries).1.settings = session.settings.setAll values ∧
      (session.bind id entries).1.replaced =
        (id, values.map fun entry => (entry.1, session.settings.get entry.1)) ::
          session.replaced := by
  obtain ⟨streams, named⟩ := session.nameOutputs_eq entries
  rw [bind, resolved, named]
  exact ⟨rfl, rfl⟩

/-- A binding with a name that is none is refused, for such a name, and changes no setting. -/
theorem bind_of_not_accepts {entries : List (Text × Term)}
    (refused : Settings.accepts entries = false) (session : Session) (id : Text) :
    ∃ entry ∈ entries, Setting.ofName? entry.1 = none ∧
      (session.bind id entries).2 = .error (Setting.refusal entry.1) ∧
      (session.bind id entries).1.settings = session.settings ∧
      (session.bind id entries).1.replaced = session.replaced := by
  obtain ⟨entry, member, unknown, resolved⟩ := Settings.resolve_of_not_accepts refused
  obtain ⟨streams, named⟩ := session.nameOutputs_eq entries
  refine ⟨entry, member, unknown, ?_⟩
  rw [bind, resolved, named]
  exact ⟨rfl, rfl, rfl⟩

theorem nameSink_keeps (session : Session) (stream : Option Text) :
    (session.nameSink stream).settings = session.settings ∧
      (session.nameSink stream).replaced = session.replaced := by
  cases stream <;> exact ⟨rfl, rfl⟩

/-- A call fails, for want of a text or of a place for it, or it writes the text. -/
theorem deliver_cases (session : Session) (stream : Option Text) (outcome : Except Fault Text) :
    (∃ fault,
      (outcome = .error fault ∨
        ∃ text, outcome = .ok text ∧ session.settings.target stream = .error fault) ∧
      session.deliver stream outcome = (session.nameSink stream, .error fault)) ∨
    ∃ text sink, outcome = .ok text ∧ session.settings.target stream = .ok sink ∧
      session.deliver stream outcome = ((session.nameSink stream).write text sink, .ok ()) := by
  unfold deliver
  simp only [(session.nameSink_keeps stream).1]
  cases outcome with
  | error fault => exact .inl ⟨fault, .inl rfl, rfl⟩
  | ok text =>
      cases session.settings.target stream with
      | error fault => exact .inl ⟨fault, .inr ⟨text, rfl, rfl⟩, rfl⟩
      | ok sink => exact .inr ⟨text, sink, rfl, rfl, rfl⟩

theorem deliver_keeps (session : Session) (stream : Option Text) (outcome : Except Fault Text) :
    (session.deliver stream outcome).1.settings = session.settings ∧
      (session.deliver stream outcome).1.replaced = session.replaced := by
  have named := session.nameSink_keeps stream
  rcases session.deliver_cases stream outcome with ⟨_, -, done⟩ | ⟨_, sink, -, -, done⟩ <;> rw [done]
  · exact named
  · cases sink <;> exact named

theorem undo_replaced (session : Session) (id : Text) :
    (session.undo id).replaced = session.replaced := by
  unfold undo
  split <;> rfl

end Session

end LogicFormat
