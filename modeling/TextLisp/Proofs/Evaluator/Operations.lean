import TextLisp.Evaluator
import TextLisp.Proofs.Store.Slot
import TextLisp.Proofs.Text.Expression

namespace TextLisp

variable {α β γ : Type}

namespace Run

theorem bind_of_result_ok {x : RunOver β α} {f : α → RunOver β γ} {s : Store β} {a : α}
    (h : (x s).result = .ok a) :
    (x >>= f) s = ⟨(f a (x s).store).result, (f a (x s).store).store,
      (x s).log ++ (f a (x s).store).log⟩ := by
  have hrun : x s = ⟨.ok a, (x s).store, (x s).log⟩ := by rw [← h]
  exact bind_of_ok hrun

theorem bind_of_result_error {x : RunOver β α} {f : α → RunOver β γ} {s : Store β} {e : Error}
    (h : (x s).result = .error e) : (x >>= f) s = ⟨.error e, (x s).store, (x s).log⟩ := by
  have hrun : x s = ⟨.error e, (x s).store, (x s).log⟩ := by rw [← h]
  exact bind_of_error hrun

@[simp]
theorem bind_ofExcept (r : Except Error α) (f : α → RunOver β γ) (s : Store β) :
    (ofExcept r >>= f) s =
      match r with
      | .ok a => f a s
      | .error e => ⟨.error e, s, []⟩ := by
  cases r with
  | error e => exact bind_of_error (ofExcept_apply (.error e) s)
  | ok a => exact bind_of_ok (ofExcept_apply (.ok a) s)

@[simp]
theorem bind_record (r : Record) (f : Unit → RunOver β γ) (s : Store β) :
    (record r >>= f) s = ⟨(f () s).result, (f () s).store, r :: (f () s).log⟩ := by
  have hrecord : (record r : RunOver β Unit) s = ⟨.ok (), s, [r]⟩ := rfl
  exact bind_of_ok hrecord

@[simp]
theorem bind_update (u : Store β → Except Error (Store β)) (f : Unit → RunOver β γ) (s : Store β) :
    (update u >>= f) s =
      match u s with
      | .ok s' => f () s'
      | .error e => ⟨.error e, s, []⟩ := by
  cases hu : u s with
  | error e =>
    have hupdate : update u s = ⟨.error e, s, []⟩ := by rw [update, hu]
    exact bind_of_error hupdate
  | ok s' =>
    have hupdate : update u s = ⟨.ok (), s', []⟩ := by rw [update, hu]
    exact bind_of_ok hupdate

end Run

theorem isName_iff {text : String} :
    isName text = true ↔ Text.isAtom text = true ∧ parseNumberExact text = none := by
  rw [isName, Bool.and_eq_true, Option.isNone_iff_eq_none]

theorem requireName_eq_ok {keyword : Keyword} {text : String} :
    requireName keyword text = .ok () ↔ isName text = true := by
  unfold requireName
  split
  next h => exact iff_of_true rfl h
  next h =>
    refine iff_of_false ?_ h
    intro he
    cases he

theorem distinct_of_requireDistinct {before names : List String}
    (h : requireDistinct before names = .ok ()) :
    names.Nodup ∧ ∀ name ∈ names, isName name = true ∧ name ∉ before := by
  induction names generalizing before with
  | nil => exact ⟨List.nodup_nil, fun _ hmem => absurd hmem List.not_mem_nil⟩
  | cons name names ih =>
    unfold requireDistinct at h
    cases hname : requireName .lambda name with
    | error e =>
      rw [hname] at h
      cases h
    | ok _ =>
      rw [hname] at h
      change (if before.contains name then Keyword.lambda.refuse (.duplicateParameter name)
        else requireDistinct (name :: before) names) = .ok () at h
      split at h
      · cases h
      next hfresh =>
        obtain ⟨hnodup, hall⟩ := ih h
        have hnotMem : name ∉ names := fun hmem => (hall name hmem).2 List.mem_cons_self
        refine ⟨List.nodup_cons.mpr ⟨hnotMem, hnodup⟩, ?_⟩
        intro other hmem
        obtain rfl | hmem := List.mem_cons.mp hmem
        · exact ⟨requireName_eq_ok.mp hname, by simpa using hfresh⟩
        · obtain ⟨hisName, hother⟩ := hall other hmem
          exact ⟨hisName, fun he => hother (List.mem_cons_of_mem name he)⟩

/-- Parameters are the siblings of a bracketed text, and a text with a fault in it is refused. -/
theorem parameterNames_eq_ok {text : String} {names : List String} :
    parameterNames text = .ok names ↔
      isBracketed text = true ∧ Text.splitForm text = .ok names ∧
        requireDistinct [] names = .ok () := by
  unfold parameterNames
  by_cases hbracketed : isBracketed text = true
  · rw [if_pos hbracketed]
    cases hsplit : Text.splitForm text with
    | error e =>
      refine iff_of_false (fun h => by cases h) ?_
      rintro ⟨-, h, -⟩
      cases h
    | ok siblings =>
      change (requireDistinct [] siblings >>= fun _ => pure siblings) = .ok names ↔ _
      cases hdistinct : requireDistinct [] siblings with
      | error e =>
        refine iff_of_false (fun h => by cases h) ?_
        rintro ⟨-, h, hnames⟩
        obtain rfl := Except.ok.inj h
        rw [hdistinct] at hnames
        cases hnames
      | ok _ =>
        constructor
        · intro h
          obtain rfl : siblings = names := Except.ok.inj h
          exact ⟨hbracketed, rfl, hdistinct⟩
        · rintro ⟨-, h, -⟩
          exact h
  · rw [if_neg hbracketed]
    refine iff_of_false (fun h => by cases h) ?_
    rintro ⟨h, -⟩
    exact hbracketed h

/-- Accepted parameters are names, and each of them once. -/
theorem distinct_of_parameterNames {text : String} {names : List String}
    (h : parameterNames text = .ok names) :
    names.Nodup ∧ ∀ name ∈ names, isName name = true := by
  obtain ⟨-, -, hdistinct⟩ := parameterNames_eq_ok.mp h
  obtain ⟨hnodup, hall⟩ := distinct_of_requireDistinct hdistinct
  exact ⟨hnodup, fun name hmem => (hall name hmem).1⟩

@[simp]
theorem evaluateAtom_apply (env : Environment) (text : String) (s : Store β) :
    evaluateAtom env text s = ⟨atomValue env s text, s, []⟩ :=
  Run.ofExcept_apply _ s

section

variable {env : Environment} {s : Store β} {text : String}

theorem atomValue_of_isAtom (h : Text.isAtom text = true) :
    atomValue env s text =
      match env.resolve s text with
      | .ok value => .ok value
      | .error name =>
        if name != text then .error (.unboundVariable name)
        else
          match parseNumberExact text with
          | some x => .ok (.number x)
          | none =>
            if looksNumeric text then .error (.noInterpretation text)
            else .error (.unboundVariable text) := by
  have hempty : ¬ (text == "") = true := by
    rw [beq_iff_eq]
    rintro rfl
    cases h
  have hatom : ¬ (!Text.isAtom text) = true := by
    rw [h]
    exact Bool.false_ne_true
  unfold atomValue
  exact (if_neg hempty).trans (if_neg hatom)

/-- An atom that is bound to a value is that value. -/
theorem atomValue_of_lookup {value : Value β} (hatom : Text.isAtom text = true)
    (h : env.lookup s text = some value) (hvalue : ∀ target, value ≠ .aliasTo target) :
    atomValue env s text = .ok value := by
  have hresolve : env.resolve s text = .ok value := by
    rw [Environment.resolve, h]
    exact Table.follow_of_value hvalue
  rw [atomValue_of_isAtom hatom, hresolve]

/-- An atom that nothing binds is read as a number. -/
theorem atomValue_of_unbound (hatom : Text.isAtom text = true) (h : env.lookup s text = none) :
    atomValue env s text =
      match parseNumberExact text with
      | some x => .ok (.number x)
      | none =>
        if looksNumeric text then .error (.noInterpretation text)
        else .error (.unboundVariable text) := by
  have hresolve : env.resolve s text = .error text := by
    rw [Environment.resolve, h]
  have hsame : ¬ (text != text) = true := by
    rw [bne_self_eq_false]
    exact Bool.false_ne_true
  rw [atomValue_of_isAtom hatom, hresolve]
  dsimp only
  rw [if_neg hsame]

end

/-- A name can become global when it is a name and is not global yet. -/
@[simp]
theorem requireNew_apply (name : String) (s : Store β) :
    requireNew name s =
      ⟨if isName name then requireUnbound s.globals name
        else Keyword.define.refuse (.notAName name), s, []⟩ := by
  unfold requireNew requireName
  rw [Run.bind_ofExcept]
  by_cases hname : isName name = true
  · rw [if_pos hname, if_pos hname]
    exact Run.ofExcept_apply _ s
  · rw [if_neg hname, if_neg hname]
    rfl

theorem requireNew_eq_ok {name : String} {u : Unit} {s s₁ : Store β} {log : List Record}
    (h : requireNew name s = ⟨.ok u, s₁, log⟩) :
    isName name = true ∧ s.globals.contains name = false ∧ s = s₁ := by
  rw [requireNew_apply] at h
  unfold requireUnbound at h
  split at h
  next hname =>
    split at h
    · cases h
    next hnew =>
      cases h
      exact ⟨hname, Bool.eq_false_iff.mpr hnew, rfl⟩
  · cases h

/-- The owner of a name is looked up, and nothing is changed. -/
@[simp]
theorem locate_apply (env : Environment) (name : String) (s : Store β) :
    locate env name s =
      ⟨if isName name then
          match env.owner? s name with
          | some owner => .ok owner
          | none => .error (.unboundVariable name)
        else Keyword.assign.refuse (.notAName name), s, []⟩ := by
  unfold locate requireName
  rw [Run.bind_ofExcept]
  by_cases hname : isName name = true
  · rw [if_pos hname, if_pos hname]
    have hstore : (Run.store : RunOver β (Store β)) s = ⟨.ok s, s, []⟩ := rfl
    refine (Run.bind_of_ok hstore).trans ?_
    cases env.owner? s name <;> rfl
  · rw [if_neg hname, if_neg hname]
    rfl

theorem locate_eq_ok {env : Environment} {name : String} {owner : Owner} {s s₁ : Store β}
    {log : List Record} (h : locate env name s = ⟨.ok owner, s₁, log⟩) :
    isName name = true ∧ env.owner? s name = some owner ∧ s = s₁ := by
  rw [locate_apply] at h
  split at h
  next hname =>
    split at h
    next owner' howner =>
      cases h
      exact ⟨hname, howner, rfl⟩
    · cases h
  · cases h

/-- The record stands in the log also when the name turns out to be bound. -/
theorem bindGlobal_apply (name : String) (value : Value β) (s : Store β) :
    bindGlobal name value s =
      if value.isUnspecified then ⟨Keyword.define.refuse .noValue, s, []⟩
      else if s.globals.contains name then
        ⟨.error (.redefinition name), s, [.define name value.render]⟩
      else ⟨.ok .unspecified, s.put .globals name value, [.define name value.render]⟩ := by
  unfold bindGlobal requireBindable
  rw [Run.bind_ofExcept]
  by_cases hvalue : value.isUnspecified = true
  · rw [if_pos hvalue, if_pos hvalue]
    rfl
  · rw [if_neg hvalue, if_neg hvalue]
    simp only [Run.bind_record, Run.bind_update, Store.define_eq]
    by_cases hbound : s.globals.contains name = true
    · simp only [if_pos hbound]
    · simp only [if_neg hbound]
      rfl

/-- A slot that is bound is overwritten unless there is no value to write. -/
theorem overwrite_apply {owner : Owner} {name : String} {s : Store β}
    (h : (s.table owner).contains name = true) (value : Value β) :
    overwrite owner name value s =
      if value.isUnspecified then ⟨Keyword.assign.refuse .noValue, s, []⟩
      else ⟨.ok .unspecified, s.put owner name value, [.assign name value.render]⟩ := by
  unfold overwrite requireBindable
  rw [Run.bind_ofExcept]
  by_cases hvalue : value.isUnspecified = true
  · rw [if_pos hvalue, if_pos hvalue]
    rfl
  · rw [if_neg hvalue, if_neg hvalue]
    simp only [Run.bind_record, Run.bind_update, Store.assign_of_contains h]
    rfl

@[simp]
theorem makeClosure_apply (params : String) (body : β) (env : Environment) (s : Store β) :
    makeClosure params body env s =
      ⟨.ok (.procedure (.closure ⟨s.nextClosure, params, body, env⟩)),
        { s with nextClosure := s.nextClosure + 1 }, [.lambda params env.depth]⟩ :=
  rfl

/-- A call with the right number of arguments adds a frame, unless there are no parameters. -/
@[simp]
theorem enterClosure_apply (scope : Environment) (params body : String) (names : List String)
    (args : List (Value β)) (s : Store β) :
    enterClosure scope params body names args s =
      if args.length = names.length then
        if names = [] then ⟨.ok scope, s, [.apply params args.length body]⟩
        else ⟨.ok (scope.push s.frames.size), s.addFrame (Table.ofList (names.zip args)),
          [.apply params args.length body]⟩
      else ⟨.error (.arityMismatch (.exact names.length) args.length), s, []⟩ := by
  unfold enterClosure Arity.check
  rw [Run.bind_ofExcept]
  by_cases hlength : args.length = names.length
  · have haccepts : (Arity.exact names.length).Accepts args.length := hlength
    rw [if_pos haccepts, if_pos hlength]
    simp only [Run.bind_record, bindParameters, List.isEmpty_iff]
    split <;> rfl
  · have hrefuses : ¬ (Arity.exact names.length).Accepts args.length := hlength
    rw [if_neg hrefuses, if_neg hlength]

/-- A call with another number of arguments than there are parameters has no effect. -/
theorem applyClosure_of_length_ne {c : Closure} {names : List String}
    (hnames : parameterNames c.params = .ok names) {args : List Value}
    (hlength : args.length ≠ names.length) (descend : Descent) (env : Environment) (s : Store) :
    applyClosure descend env c args s =
      ⟨.error (.arityMismatch (.exact names.length) args.length), s, []⟩ := by
  rw [applyClosure, Run.bind_ofExcept, hnames]
  apply Run.bind_of_error
  simp [hlength]

/-- Below the limit an evaluation is recorded before anything else happens. -/
theorem evaluate_succ (host : Host) (remaining depth : Nat) (env : Environment) (text : String)
    (s : Store) :
    evaluate host (remaining + 1) depth env text s =
      (let body := if isBracketed (Text.trim text) then
          evaluateForm host (evaluate host remaining (depth + 1)) env (Text.trim text)
        else evaluateAtom env (Text.trim text)
      ⟨(body s).result, (body s).store, .evaluate depth (Text.trim text) :: (body s).log⟩) :=
  Run.bind_record _ _ s

/-- An atom is its value. It is recorded, and changes nothing. -/
theorem evaluate_atom {text : String} (h : Text.isAtom (Text.trim text) = true) (host : Host)
    (remaining depth : Nat) (env : Environment) (s : Store) :
    evaluate host (remaining + 1) depth env text s =
      ⟨atomValue env s (Text.trim text), s, [.evaluate depth (Text.trim text)]⟩ := by
  have hbracket : ¬ isBracketed (Text.trim text) = true :=
    Bool.eq_false_iff.mp (Text.not_isBracketed_of_isAtom h)
  simp [evaluate_succ, hbracket]

/-- A form that splits is the evaluation of its siblings, behind its own record. -/
theorem evaluate_of_splitForm {text : String} {siblings : List String}
    (h : Text.splitForm text = .ok siblings) (host : Host) (remaining depth : Nat)
    (env : Environment) (s : Store) :
    evaluate host (remaining + 1) depth env text s =
      (let body := evaluateSiblings host (evaluate host remaining (depth + 1)) env
        (Text.trim text) siblings s
      ⟨body.result, body.store, .evaluate depth (Text.trim text) :: body.log⟩) := by
  rw [evaluate_succ, if_pos (Text.isBracketed_trim_of_splitForm h)]
  unfold evaluateForm
  rw [Text.splitForm_trim, h]
  rfl

@[simp]
theorem evaluateSiblings_define (host : Host) (descend : Descent) (env : Environment)
    (text : String) (operands : List String) :
    evaluateSiblings host descend env text ("define" :: operands) =
      evaluateDefine descend env operands := by
  have hkeyword : Keyword.ofText? "define" = some .define := by decide
  rw [evaluateSiblings, hkeyword]

@[simp]
theorem evaluateSiblings_assign (host : Host) (descend : Descent) (env : Environment)
    (text : String) (operands : List String) :
    evaluateSiblings host descend env text ("set!" :: operands) =
      evaluateAssign descend env operands := by
  have hkeyword : Keyword.ofText? "set!" = some .assign := by decide
  rw [evaluateSiblings, hkeyword]

/-- The definition of a bound name is refused before its expression is looked at. -/
theorem evaluate_definition_of_bound (host : Host) (remaining depth : Nat) (env : Environment)
    {s : Store} {text name expr : String} (hform : Text.splitForm text = .ok ["define", name, expr])
    (hname : isName name = true) (hbound : s.globals.contains name = true) :
    evaluate host (remaining + 1) depth env text s =
      ⟨.error (.redefinition name), s, [.evaluate depth (Text.trim text)]⟩ := by
  have hrefused : requireNew name s = ⟨.error (.redefinition name), s, []⟩ := by
    simp [hname, requireUnbound, hbound]
  have hdefine : evaluateDefine (evaluate host remaining (depth + 1)) env [name, expr] s =
      ⟨.error (.redefinition name), s, []⟩ := Run.bind_of_error hrefused
  rw [evaluate_of_splitForm hform, evaluateSiblings_define, hdefine]

/-- The definition of a new name is the evaluation of its expression and the binding. -/
theorem evaluate_definition (host : Host) (remaining depth : Nat) (env : Environment)
    {s : Store} {text name expr : String} (hform : Text.splitForm text = .ok ["define", name, expr])
    (hname : isName name = true) (hnew : s.globals.contains name = false) :
    evaluate host (remaining + 1) depth env text s =
      (let body := (evaluate host remaining (depth + 1) env expr >>= bindGlobal name) s
      ⟨body.result, body.store, .evaluate depth (Text.trim text) :: body.log⟩) := by
  have haccepted : requireNew name s = ⟨.ok (), s, []⟩ := by
    simp [hname, requireUnbound, hnew]
  have hdefine : evaluateDefine (evaluate host remaining (depth + 1)) env [name, expr] s =
      (evaluate host remaining (depth + 1) env expr >>= bindGlobal name) s :=
    Run.bind_of_ok haccepted
  rw [evaluate_of_splitForm hform, evaluateSiblings_define, hdefine]

end TextLisp
