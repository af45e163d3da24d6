import TextLisp.Proofs.Evaluator.Aliases
import TextLisp.Proofs.Evaluator.Recorded
import TextLisp.Proofs.Session.GlobalNames

namespace TextLisp

/-- The command binds a value that the embedding program hands over as it is. -/
def Command.BindsOwnValue : Command → Prop
  | .define _ _ | .set _ _ => True
  | _ => False

/-- The alias is there at the start or a command has added it, and no command has overwritten the
name since. -/
inductive IsStandingAlias (host : Host) : List Command → String → String → Prop
  | initial {name target : String} (h : (name, target) ∈ aliases) :
      IsStandingAlias host [] name target
  | added {commands : List Command} {name target : String}
      (h : ((Command.addAlias name target).perform host
        (Store.initial.after host commands)).result = .ok .unspecified) :
      IsStandingAlias host (commands ++ [.addAlias name target]) name target
  | kept {commands : List Command} {command : Command} {name target : String}
      (h : IsStandingAlias host commands name target)
      (hkept : ¬ command.Overwrites host (Store.initial.after host commands) name) :
      IsStandingAlias host (commands ++ [command]) name target

def HasAssigned (host : Host) (commands : List Command) (owner : Owner) (name : String)
    (value : Value) : Prop :=
  ∃ before line limit after start w, commands = before ++ .evaluate line limit :: after ∧
    Evaluation.Begins host ⟨limit, 0, Environment.empty, line, Store.initial.after host before⟩
      start w ∧
    w.Overwrites host owner name value

def Store.IsSpecified (s : Store) : Prop :=
  s.Holds fun owner _ value => owner = .globals → value.isUnspecified = false

theorem Store.IsSpecified.get?_ne {s : Store} (h : s.IsSpecified) (name : String) :
    s.globals.get? name ≠ some .unspecified := by
  intro hslot
  cases h .globals name .unspecified hslot rfl

theorem Store.History.isSpecified {s s' : Store} {log : List Record} (h : s.History log s')
    (hs : s.IsSpecified) : s'.IsSpecified := by
  apply h.holds hs
  · exact fun _ _ _ _ hvalue _ => hvalue
  · intro _ _ _ _ he
    cases he

theorem Store.after_concat (host : Host) (s : Store) (commands : List Command)
    (command : Command) :
    s.after host (commands ++ [command]) = (command.perform host (s.after host commands)).store :=
  List.foldl_append

/-- A definition by the embedding program keeps a condition that holds of what is bound. -/
theorem Store.Holds.bind_define {P : Owner → String → Value → Prop} {s : Store} (hs : s.Holds P)
    {name : String} {value : Value}
    (hvalue : ((do Run.update fun s => s.define name value; return .unspecified : Run Value)
      s).result = .ok .unspecified → P .globals name value) :
    ((do Run.update fun s => s.define name value; return .unspecified : Run Value)
      s).store.Holds P := by
  rw [bind_define_apply] at hvalue ⊢
  split
  · exact hs
  next hnew =>
    rw [if_neg hnew] at hvalue
    exact hs.put (hvalue rfl)

namespace Value

theorem holdsNoAlias_procedure (p : Procedure) : HoldsNoAlias (.procedure p) := by
  intro target hpart
  cases hpart

theorem holdsNoAlias_of_mem_constants {constant : String × Value} (h : constant ∈ constants) :
    HoldsNoAlias constant.2 := by
  intro target hpart
  revert constant
  simp only [constants, List.forall_mem_cons]
  refine ⟨?_, ?_, ?_, ?_, List.forall_mem_nil _⟩
  all_goals
    intro hpart
    cases hpart

end Value

theorem isSpecified_initial : Store.initial.IsSpecified := by
  apply Store.holds_initialGlobals
  · exact fun _ _ => rfl
  · simp [constants, Value.isUnspecified]
  · exact fun _ _ _ => rfl

/-- The aliases at the start are those of the table of aliases. -/
theorem aliasesAmong_initial :
    Store.initial.AliasesAmong fun name target => (name, target) ∈ aliases := by
  apply Store.holds_initialGlobals
  · exact fun _ => Or.inl (Value.holdsNoAlias_procedure _)
  · exact fun _ hmem => Or.inl (Value.holdsNoAlias_of_mem_constants hmem)
  · exact fun pair hmem => Or.inr ⟨pair.2, rfl, rfl, hmem⟩

/-- No command of a session makes the mark of binding forms global. -/
theorem isSpecified_after (host : Host) {commands : List Command}
    (h : ∀ command ∈ commands, ¬ command.BindsOwnValue) {s : Store} (hs : s.IsSpecified) :
    (s.after host commands).IsSpecified := by
  induction commands generalizing s with
  | nil => exact hs
  | cons command commands ih =>
    have hcommand := h command List.mem_cons_self
    apply ih fun other hmem => h other (List.mem_cons_of_mem command hmem)
    cases command with
    | evaluate line limit =>
      exact (recordedAt_evaluate host limit 0 Environment.empty line s).isSpecified hs
    | define | set => exact absurd trivial hcommand
    | addAlias name target => exact hs.bind_define fun _ _ => rfl
    | register name arity operation => exact hs.bind_define fun _ _ => rfl

section

variable {host : Host} (hhost : host.AddsNoAlias)
include hhost

/-- After a line, an alias is one that was there before, and the line has not overwritten it. -/
theorem aliasesAmong_line {allowed : String → String → Prop} {s : Store}
    (hs : s.AliasesAmong allowed) (line : String) (limit : Nat) :
    ((Command.evaluate line limit).perform host s).store.AliasesAmong fun name target =>
      allowed name target ∧ ¬ (Command.evaluate line limit).Overwrites host s name := by
  intro owner name value hslot
  have hline := (Evaluation.aliasesAmong_outcome hhost ⟨limit, 0, Environment.empty, line, s⟩ hs).1
  obtain hplain | ⟨target, rfl, rfl, hallowed⟩ := hline owner name value hslot
  · exact Or.inl hplain
  · refine Or.inr ⟨target, rfl, rfl, hallowed, ?_⟩
    rintro ⟨written, start, w, hbegins, hwrites⟩
    -- A `set!` of the name leaves no alias of that name, and nothing after it brings one back.
    have hw := hwrites.aliasesAmong hhost (hbegins.aliasesAmong hhost hs)
    have hgone := hbegins.aliasesAmong_outcome hhost hs hw .globals name (.aliasTo target) hslot
    obtain hplain | ⟨other, -, -, hother⟩ := hgone
    · exact hplain target .self
    · exact hother rfl

/-- Over a session aliases come from the embedding program, and stand until they are overwritten. -/
theorem aliasesAmong_after {commands : List Command}
    (h : ∀ command ∈ commands, ¬ command.BindsOwnValue) :
    (Store.initial.after host commands).AliasesAmong (IsStandingAlias host commands) := by
  -- On the session from its end: the last command makes an alias, or keeps those before it.
  induction commands using List.reverseRecOn with
  | nil => exact aliasesAmong_initial.mono_allowed fun _ _ hmem => .initial hmem
  | append_singleton commands command ih =>
    have hs := ih fun other hmem => h other (List.mem_append_left _ hmem)
    have hcommand := h command (List.mem_append_right _ List.mem_cons_self)
    rw [Store.after_concat]
    cases command with
    | evaluate line limit =>
      have hline := aliasesAmong_line hhost hs line limit
      exact hline.mono_allowed fun _ _ hkept => hkept.1.kept hkept.2
    | define | set => exact absurd trivial hcommand
    | addAlias name target =>
      have hkept : (Store.initial.after host commands).AliasesAmong
          (IsStandingAlias host (commands ++ [.addAlias name target])) :=
        hs.mono_allowed fun _ _ hstands => hstands.kept id
      exact hkept.bind_define fun hadded => Or.inr ⟨target, rfl, rfl, .added hadded⟩
    | register name arity operation =>
      have hkept : (Store.initial.after host commands).AliasesAmong
          (IsStandingAlias host (commands ++ [.register name arity operation])) :=
        hs.mono_allowed fun _ _ hstands => hstands.kept id
      exact hkept.bind_define fun _ => Or.inl (Value.holdsNoAlias_procedure _)

/-- Aliases and the mark that binding forms produce stay where they belong. Over a session in which
the embedding program binds no values of its own, whether its commands succeed or fail, no global
holds the mark, and no `set!` has written the mark to a slot, or anything with an alias in it. Every
alias is the value of a global, and nothing has overwritten it since it was made. Wherever an
evaluation begins in the course of a further line this is so as well, and no evaluation has a value
with an alias in it. -/
theorem aliases_and_marks_stay_in_place {commands : List Command}
    (h : ∀ command ∈ commands, ¬ command.BindsOwnValue) :
    let s := Store.initial.after host commands
    (∀ name, s.globals.get? name ≠ some .unspecified) ∧
    (∀ owner name value, HasAssigned host commands owner name value →
      value ≠ .unspecified ∧ value.HoldsNoAlias) ∧
    (∀ owner name value, (s.table owner).get? name = some value → value.HoldsNoAlias ∨
      ∃ target, owner = .globals ∧ value = .aliasTo target ∧
        IsStandingAlias host commands name target) ∧
    ∀ line limit start w,
      Evaluation.Begins host ⟨limit, 0, Environment.empty, line, s⟩ start w →
        (∀ name, w.store.globals.get? name ≠ some .unspecified) ∧
        (∀ owner name value, (w.store.table owner).get? name = some value → value.HoldsNoAlias ∨
          ∃ target, owner = .globals ∧ value = .aliasTo target ∧
            IsStandingAlias host commands name target) ∧
        ∀ value, (w.outcome host).result = .ok value → value.HoldsNoAlias := by
  intro s
  have hspecified : s.IsSpecified := isSpecified_after host h isSpecified_initial
  have hs := aliasesAmong_after hhost h
  refine ⟨hspecified.get?_ne, ?_, hs, ?_⟩
  · rintro owner name value ⟨before, line, limit, after, start, w, rfl, hbegins, hwrites⟩
    constructor
    · rintro rfl
      cases hwrites.exists_put.1
    · have hbefore := aliasesAmong_after hhost fun command hmem =>
        h command (List.mem_append_left _ hmem)
      exact hwrites.holdsNoAlias hhost (hbegins.aliasesAmong hhost hbefore)
  · intro line limit start w hbegins
    have hw := hbegins.aliasesAmong hhost hs
    have hglobals := hbegins.history.isSpecified hspecified
    exact ⟨hglobals.get?_ne, hw, (w.aliasesAmong_outcome hhost hw).2⟩

end

/-- A name that is an alias cannot be made one again, and when that is refused the first alias stays.
What is read through it is no alias. -/
theorem refused_alias_replaces_nothing :
    let host : Host := fun _ args => .ok (.list args)
    let commands : List Command := [.addAlias "=" "car"]
    let s := Store.initial.after host commands
    s.globals.get? "=" = some (.aliasTo "equal?") ∧ IsStandingAlias host commands "=" "equal?" ∧
      ∀ value, (evaluateLine host 1 "=" s).result = .ok value → value.HoldsNoAlias := by
  intro host commands s
  have hhost : host.AddsNoAlias := by
    rintro name args value hargs hresult target hpart
    obtain rfl := Except.ok.inj hresult
    cases hpart with
    | item hmem h => exact hargs _ hmem target h
  have hcommands : ∀ command ∈ commands, ¬ command.BindsOwnValue := by
    simp [commands, Command.BindsOwnValue]
  have hinitial : Store.initial.globals.get? "=" = some (.aliasTo "equal?") := by
    change (initialGlobals : Table Value).get? "=" = _
    rw [initialGlobals, Table.ofList, List.foldl_append]
    exact (Table.get?_insert _ _ _ _).trans (if_pos rfl)
  have hafter : s = Store.initial := by
    have hbound : Store.initial.globals.contains "=" = true := by
      rw [Table.contains, hinitial]
      rfl
    have hrefused := (refusesDefinitions_of_contains host hbound).addAlias "car"
    exact congrArg Outcome.store hrefused
  have hslot : s.globals.get? "=" = some (.aliasTo "equal?") := by rw [hafter, hinitial]
  obtain ⟨-, -, hslots, hlines⟩ := aliases_and_marks_stay_in_place hhost hcommands
  refine ⟨hslot, ?_, (hlines "=" 1 [] _ (.itself _)).2.2⟩
  obtain hplain | ⟨target, -, htarget, hstands⟩ := hslots .globals "=" _ hslot
  · exact absurd .self (hplain "equal?")
  · obtain rfl := Value.aliasTo.inj htarget
    exact hstands

end TextLisp
