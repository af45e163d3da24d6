import TextLisp.Proofs.Evaluator.Causes
import TextLisp.Proofs.Store.Listing
import TextLisp.Session

namespace TextLisp

/-- The command sets the global binding of a name, or it is a line in the course of which a `set!`
finds the name among the globals and writes to it. -/
def Command.Overwrites (host : Host) (s : Store) (name : String) : Command → Prop
  | .set other value =>
    other = name ∧ ((Command.set other value).perform host s).result = .ok .unspecified
  | .evaluate line limit => ∃ value start w,
    Evaluation.Begins host ⟨limit, 0, Environment.empty, line, s⟩ start w ∧
      w.Overwrites host .globals name value
  | _ => False

/-- Definitions of a name fail, and change nothing. A line that is one evaluates nothing else. -/
structure Store.RefusesDefinitions (host : Host) (s : Store) (name : String) : Prop where
  define (value : Value) :
    (Command.define name value).perform host s = ⟨.error (.redefinition name), s, []⟩
  addAlias (target : String) :
    (Command.addAlias name target).perform host s = ⟨.error (.redefinition name), s, []⟩
  register (arity : Arity) (operation : Operation) :
    (Command.register name arity operation).perform host s =
      ⟨.error (.redefinition name), s, []⟩
  line {line expr : String} {limit : Nat} (hname : isName name = true) (hlimit : 1 ≤ limit)
    (hform : Text.splitForm line = .ok ["define", name, expr]) :
    (Command.evaluate line limit).perform host s =
      ⟨.error (.redefinition name), s, [.evaluate 0 (Text.trim line)]⟩

theorem bind_define_apply (name : String) (value : Value) (s : Store) :
    (do Run.update fun s => s.define name value; return .unspecified : Run Value) s =
      if s.globals.contains name then ⟨.error (.redefinition name), s, []⟩
      else ⟨.ok .unspecified, s.put .globals name value, []⟩ := by
  by_cases hbound : s.globals.contains name = true
  · simp [Store.define_eq, hbound]
  · simp [Store.define_eq, hbound]

theorem perform_set_apply (host : Host) (name : String) (value : Value) (s : Store) :
    (Command.set name value).perform host s =
      if s.globals.contains name then ⟨.ok .unspecified, s.put .globals name value, []⟩
      else ⟨.error (.unboundVariable name), s, []⟩ := by
  change (Run.update (fun s => s.assign .globals name value) >>= fun _ => _) s = _
  by_cases hbound : s.globals.contains name = true
  · simp [Store.assign_globals_eq, hbound]
  · simp [Store.assign_globals_eq, hbound]

theorem keepsNames_bind_define (name : String) (value : Value) (s : Store) :
    s.KeepsNames
      ((do Run.update fun s => s.define name value; return .unspecified : Run Value) s).store := by
  rw [bind_define_apply]
  split
  · exact .refl s
  · exact Store.keepsNames_put (Or.inl rfl) value

theorem keepsBindings_bind_define (name : String) (value : Value) (s : Store) :
    s.KeepsBindings
      ((do Run.update fun s => s.define name value; return .unspecified : Run Value) s).store := by
  rw [bind_define_apply]
  split
  · exact .refl s
  next hnew =>
    rw [Bool.not_eq_true] at hnew
    exact Store.keepsBindings_put_globals hnew value

/-- A command unbinds nothing, whether it succeeds or fails. -/
theorem keepsNames_perform (host : Host) (command : Command) (s : Store) :
    s.KeepsNames (command.perform host s).store := by
  cases command with
  | evaluate line limit => exact keepsNames_evaluate host limit 0 Environment.empty line s
  | define name value => exact keepsNames_bind_define name value s
  | set name value =>
    rw [perform_set_apply]
    split
    · exact Store.keepsNames_put (Or.inl rfl) value
    · exact .refl s
  | addAlias name target => exact keepsNames_bind_define name _ s
  | register name arity operation => exact keepsNames_bind_define name _ s

/-- A command changes the value of a bound name only by overwriting it. -/
theorem overwrites_of_changed (host : Host) (command : Command) {s : Store} {name : String}
    {value : Value} (hvalue : s.globals.get? name = some value)
    (hchanged : (command.perform host s).store.globals.get? name ≠ some value) :
    command.Overwrites host s name := by
  -- Definitions leave every bound slot alone, so they are not what changed this one.
  have hdefine (other : String) (new : Value) :=
    keepsBindings_bind_define other new s .globals name value hvalue
  cases command with
  | evaluate line limit =>
    have hassigned := assignsAt_evaluate host limit 0 Environment.empty line s
    have hglobal : (s.table .globals).get? name = some value := hvalue
    obtain ⟨_, last, _, -, start, w, hbegins, hwrites, -⟩ :=
      hassigned.exists_cause hglobal hchanged
    exact ⟨last, start, w, hbegins, hwrites⟩
  | define other new => exact absurd (hdefine other new) hchanged
  | set other new =>
    change other = name ∧ ((Command.set other new).perform host s).result = _
    rw [perform_set_apply] at hchanged ⊢
    by_cases hbound : s.globals.contains other = true
    · rw [if_pos hbound] at hchanged ⊢
      refine ⟨?_, rfl⟩
      apply Classical.byContradiction
      intro hother
      apply hchanged
      change (s.globals.insert other new).get? name = some value
      simpa [Ne.symm hother] using hvalue
    · rw [if_neg hbound] at hchanged
      exact absurd hvalue hchanged
  | addAlias other target => exact absurd (hdefine other _) hchanged
  | register other arity operation => exact absurd (hdefine other _) hchanged

/-- Whatever would define a bound name is refused, and changes nothing. -/
theorem refusesDefinitions_of_contains (host : Host) {s : Store} {name : String}
    (hbound : s.globals.contains name = true) : s.RefusesDefinitions host name where
  define value := (bind_define_apply name value s).trans (if_pos hbound)
  addAlias target := (bind_define_apply name (.aliasTo target) s).trans (if_pos hbound)
  register arity operation := (bind_define_apply name _ s).trans (if_pos hbound)
  line {line expr limit} hname hlimit hform := by
    obtain ⟨remaining, rfl⟩ := Nat.exists_eq_add_of_le' hlimit
    exact evaluate_definition_of_bound host remaining 0 Environment.empty hform hname hbound

/-- No command unbinds a global name. -/
theorem contains_after (host : Host) (commands : List Command) {s : Store} {name : String}
    (hbound : s.globals.contains name = true) :
    (s.after host commands).globals.contains name = true := by
  induction commands generalizing s with
  | nil => exact hbound
  | cons command commands ih =>
    exact ih ((keepsNames_perform host command s).contains_globals hbound)

/-- Of a name that has another value after a session, some command overwrote the value. -/
theorem exists_overwrites_of_changed (host : Host) (commands : List Command) {s : Store}
    {name : String} {value : Value} (hvalue : s.globals.get? name = some value)
    (hchanged : (s.after host commands).globals.get? name ≠ some value) :
    ∃ before command after, commands = before ++ command :: after ∧
      command.Overwrites host (s.after host before) name := by
  induction commands generalizing s with
  | nil => exact absurd hvalue hchanged
  | cons command commands ih =>
    by_cases hfirst : (command.perform host s).store.globals.get? name = some value
    · obtain ⟨before, later, after, rfl, hwrites⟩ := ih hfirst hchanged
      exact ⟨command :: before, later, after, rfl, hwrites⟩
    · exact ⟨[], command, commands, rfl, overwrites_of_changed host command hvalue hfirst⟩

/-- Global names are for good. Over a session, whatever its commands are and wherever they fail, no
name is unbound, and no bound name has another value unless it was set, or a `set!` found it among
the globals and wrote to it. Once a name is bound all definitions of it are refused, and change
nothing. A definition in the course of which its own name is bound fails, and what was bound first
stays. The listing has each bound name once, in ascending order. -/
theorem global_names_are_permanent (host : Host) (s : Store) (commands : List Command) :
    let s' := s.after host commands
    (∀ name, s.globals.contains name = true → s'.globals.contains name = true) ∧
    (∀ name value, s.globals.get? name = some value → s'.globals.get? name ≠ some value →
      ∃ before command after, commands = before ++ command :: after ∧
        command.Overwrites host (s.after host before) name) ∧
    (∀ name, s.globals.contains name = true → s'.RefusesDefinitions host name) ∧
    (∀ remaining depth env text name expr, Text.splitForm text = .ok ["define", name, expr] →
      isName name = true → s'.globals.contains name = false →
      let inner := evaluate host remaining (depth + 1) env expr s'
      let outer := evaluate host (remaining + 1) depth env text s'
      inner.store.globals.contains name = true →
        outer.store = inner.store ∧ (∃ e, outer.result = .error e) ∧
        ∀ value, inner.result = .ok value → value.isUnspecified = false →
          outer.result = .error (.redefinition name)) ∧
    (bindingNames s'.globals.sorted).Pairwise (· < ·) ∧
    (∀ name value, (name, value) ∈ s'.globals.sorted ↔ s'.globals.get? name = some value) := by
  intro s'
  refine ⟨fun _ => contains_after host commands,
    fun _ _ => exists_overwrites_of_changed host commands,
    fun _ hbound => refusesDefinitions_of_contains host (contains_after host commands hbound),
    ?_, s'.globals.ascending_sorted, fun _ _ => Table.mem_sorted_iff⟩
  intro remaining depth env text name expr hform hname hnew inner outer hbound
  have houter : outer = _ := evaluate_definition host remaining depth env hform hname hnew
  -- If the expression fails so does the definition, and if it does not, the binding is refused.
  cases hresult : inner.result with
  | error e =>
    rw [Run.bind_of_result_error hresult] at houter
    rw [houter]
    refine ⟨rfl, ⟨e, rfl⟩, ?_⟩
    intro value hvalue
    cases hvalue
  | ok value =>
    rw [Run.bind_of_result_ok hresult, bindGlobal_apply, if_pos hbound] at houter
    rw [houter]
    cases hvalue : value.isUnspecified with
    | true =>
      refine ⟨rfl, ⟨_, rfl⟩, ?_⟩
      intro value' hvalue' hbindable
      obtain rfl := Except.ok.inj hvalue'
      rw [hvalue] at hbindable
      cases hbindable
    | false => exact ⟨rfl, ⟨_, rfl⟩, fun _ _ _ => rfl⟩

/-- A name is set and then defined again, which is refused. Another one is defined while it is being
defined, which is refused as well. -/
theorem definition_inside_itself_is_refused :
    let host : Host := fun _ _ => .ok .nil
    let s : Store := Store.ofGlobals (Table.ofList [("x", .nil)])
    let commands : List Command := [.evaluate "(set! x (quote a))" 2, .define "y" .nil]
    let s' := s.after host commands
    let outer :=
      evaluate host 4 0 .empty "(define z (if (define z (quote a)) (quote b) (quote c)))" s'
    s'.globals.contains "x" = true ∧
      (∃ before command after, commands = before ++ command :: after ∧
        command.Overwrites host (s.after host before) "x") ∧
      (Command.evaluate "(define x (set! x (quote b)))" 1).perform host s' =
        ⟨.error (.redefinition "x"), s', [.evaluate 0 "(define x (set! x (quote b)))"]⟩ ∧
      outer.result = .error (.redefinition "z") ∧
      outer.store.globals.get? "z" = some (.symbol "a") := by
  intro host s commands s' outer
  let t : Store := Store.ofGlobals (Table.ofList [("x", .symbol "a"), ("y", .nil)])
  have hafter : s.after host commands = t := by
    simp only [Store.after, commands, List.foldl_cons, List.foldl_nil]
    cbv
  have hvalue : s.globals.get? "x" = some .nil := by cbv
  have hx : s.globals.contains "x" = true := by cbv
  have hline : Text.splitForm "(define x (set! x (quote b)))" =
      .ok ["define", "x", "(set! x (quote b))"] := by cbv
  have hform : Text.splitForm "(define z (if (define z (quote a)) (quote b) (quote c)))" =
      .ok ["define", "z", "(if (define z (quote a)) (quote b) (quote c))"] := by cbv
  have htrim : Text.trim "(define x (set! x (quote b)))" = "(define x (set! x (quote b)))" := by cbv
  have hnames : isName "x" = true ∧ isName "z" = true := ⟨by cbv, by cbv⟩
  have hassigned : t.globals.get? "x" = some (.symbol "a") := by cbv
  have hz : t.globals.contains "z" = false := by cbv
  have hinner : (evaluate host 3 (0 + 1) .empty "(if (define z (quote a)) (quote b) (quote c))"
      t).result = .ok (.symbol "b") := by cbv
  have hkept : (evaluate host 3 (0 + 1) .empty "(if (define z (quote a)) (quote b) (quote c))"
      t).store.globals.get? "z" = some (.symbol "a") := by cbv
  have hbound : (evaluate host 3 (0 + 1) .empty "(if (define z (quote a)) (quote b) (quote c))"
      t).store.globals.contains "z" = true := by
    rw [Table.contains, hkept]
    rfl
  have hchanged : t.globals.get? "x" ≠ some .nil := by
    rw [hassigned]
    simp
  clear_value host s commands t
  obtain ⟨hstays, hwritten, hrefused, hnested, -, -⟩ := global_names_are_permanent host s commands
  rw [hafter] at hwritten hrefused hnested
  have hagain := (hrefused "x" hx).line hnames.1 (Nat.le_refl 1) hline
  rw [htrim] at hagain
  obtain ⟨hstore, -, herror⟩ := hnested 3 0 .empty _ "z" _ hform hnames.2 hz hbound
  subst hafter
  refine ⟨hstays "x" hx, hwritten "x" .nil hvalue hchanged, hagain, herror _ hinner rfl, ?_⟩
  rw [hstore]
  exact hkept

end TextLisp
