import Mathlib
import TextLisp.Proofs.Evaluator.Resumed
import TextLisp.Session

namespace TextLisp

def Keyword.operandCount : Keyword → Nat
  | define | lambda | assign => 2
  | conditional => 3
  | quote => 1

def AreParameters (names : List String) : Prop :=
  names.Nodup ∧ ∀ name ∈ names, isName name = true

/-- Why a text is no list of parameters. Among the siblings the first that offends is reported. -/
inductive ParameterFault (params : String) : Error → Prop
  | unbracketed (h : isBracketed params = false) :
      ParameterFault params (.malformedForm "lambda" (.unbracketedParameters params))
  | unreadable {e : Error} (hbracketed : isBracketed params = true)
      (h : Text.splitForm params = .error e) : ParameterFault params e
  | notAName {before after : List String} {name : String} (hbracketed : isBracketed params = true)
      (hsplit : Text.splitForm params = .ok (before ++ name :: after))
      (hbefore : AreParameters before) (h : isName name = false) :
      ParameterFault params (.malformedForm "lambda" (.notAName name))
  | duplicate {before after : List String} {name : String} (hbracketed : isBracketed params = true)
      (hsplit : Text.splitForm params = .ok (before ++ name :: after))
      (hbefore : AreParameters before) (h : name ∈ before) :
      ParameterFault params (.malformedForm "lambda" (.duplicateParameter name))

inductive Refused (env : Environment) (s : Store) : List String → Error → Prop
  | operandCount {keyword : Keyword} {operands : List String}
      (h : operands.length ≠ keyword.operandCount) :
      Refused env s (keyword.text :: operands)
        (.malformedForm keyword.text (.operandCount keyword.operandCount operands.length))
  | target {keyword : Keyword} {name expr : String}
      (hkeyword : keyword = .define ∨ keyword = .assign) (h : isName name = false) :
      Refused env s [keyword.text, name, expr] (.malformedForm keyword.text (.notAName name))
  | bound {name expr : String} (hname : isName name = true)
      (h : s.globals.contains name = true) :
      Refused env s ["define", name, expr] (.redefinition name)
  | unowned {name expr : String} (hname : isName name = true) (h : env.owner? s name = none) :
      Refused env s ["set!", name, expr] (.unboundVariable name)
  | parameters {params body : String} {e : Error} (h : ParameterFault params e) :
      Refused env s ["lambda", params, body] e

/-- The expressions are evaluated to these values one after the other, each from the store that the
one before it has left. -/
inductive InTurn (descend : Descent) (env : Environment) :
    Store → List String → List Value → List Record → Store → Prop
  | nil (s : Store) : InTurn descend env s [] [] [] s
  | cons {s s₁ s₂ : Store} {expr : String} {exprs : List String} {value : Value}
      {values : List Value} {log log' : List Record}
      (h : descend env expr s = ⟨.ok value, s₁, log⟩)
      (hrest : InTurn descend env s₁ exprs values log' s₂) :
      InTurn descend env s (expr :: exprs) (value :: values) (log ++ log') s₂

inductive FailsInTurn (descend : Descent) (env : Environment) :
    Store → List String → Error → List Record → Store → Prop
  | intro {s s₁ s₂ : Store} {before : List String} {expr : String} {values : List Value}
      {e : Error} {log log' : List Record} (hbefore : InTurn descend env s before values log s₁)
      (h : descend env expr s₁ = ⟨.error e, s₂, log'⟩) (after : List String) :
      FailsInTurn descend env s (before ++ expr :: after) e (log ++ log') s₂

/-- The number of arguments that a procedure checks for. A closure has to have parameters for it. -/
def Procedure.arity? : Procedure → Option Arity
  | .primitive p => some p.arity
  | .closure c => (parameterNames c.params).toOption.map fun names => .exact names.length

theorem requireDistinct_cons (before : List String) (name : String) (names : List String) :
    requireDistinct before (name :: names) =
      if isName name then
        if before.contains name then Keyword.lambda.refuse (.duplicateParameter name)
        else requireDistinct (name :: before) names
      else Keyword.lambda.refuse (.notAName name) := by
  rw [requireDistinct, requireName]
  split <;> rfl

/-- Distinct names that are new are accepted, whatever follows. -/
theorem requireDistinct_append {seen names : List String} (h : AreParameters names)
    (hnew : ∀ name ∈ names, name ∉ seen) (rest : List String) :
    requireDistinct seen (names ++ rest) = requireDistinct (names.reverse ++ seen) rest := by
  induction names generalizing seen with
  | nil => rfl
  | cons name names ih =>
    obtain ⟨hnodup, hnames⟩ := h
    obtain ⟨hnotMem, hnodup⟩ := List.nodup_cons.mp hnodup
    have hname : isName name = true := hnames name List.mem_cons_self
    have hfresh : ¬ seen.contains name = true := by
      rw [List.contains_iff_mem]
      exact hnew name List.mem_cons_self
    have hrest : ∀ other ∈ names, other ∉ name :: seen := by
      intro other hmem hseen
      obtain rfl | hseen := List.mem_cons.mp hseen
      · exact hnotMem hmem
      · exact hnew other (List.mem_cons_of_mem _ hmem) hseen
    rw [List.cons_append, requireDistinct_cons, if_pos hname, if_neg hfresh,
      ih ⟨hnodup, fun other hmem => hnames other (List.mem_cons_of_mem _ hmem)⟩ hrest,
      List.reverse_cons, List.append_assoc, List.singleton_append]

/-- What are no parameters has a first member that offends. -/
theorem exists_offending {names : List String} (h : ¬ AreParameters names) :
    ∃ before name after, names = before ++ name :: after ∧ AreParameters before ∧
      (isName name = false ∨ name ∈ before) := by
  induction names using List.reverseRecOn with
  | nil => exact absurd ⟨List.nodup_nil, fun _ hmem => absurd hmem List.not_mem_nil⟩ h
  | append_singleton names name ih =>
    by_cases hnames : AreParameters names
    · refine ⟨names, name, [], rfl, hnames, ?_⟩
      by_contra hgood
      obtain ⟨hname, hnotMem⟩ := not_or.mp hgood
      refine h ⟨List.nodup_append_comm.mp (List.nodup_cons.mpr ⟨hnotMem, hnames.1⟩), ?_⟩
      intro other hmem
      obtain hmem | hmem := List.mem_append.mp hmem
      · exact hnames.2 other hmem
      · rw [List.mem_singleton.mp hmem]
        exact Bool.eq_true_of_not_eq_false hname
    · obtain ⟨before, offending, after, rfl, hbefore, hoffends⟩ := ih hnames
      refine ⟨before, offending, after ++ [name], ?_, hbefore, hoffends⟩
      rw [List.append_assoc, List.cons_append]

theorem ParameterFault.parameterNames_eq {params : String} {e : Error}
    (h : ParameterFault params e) : parameterNames params = .error e := by
  cases h with
  | unbracketed h =>
    rw [parameterNames, if_neg (Bool.eq_false_iff.mp h)]
    rfl
  | unreadable hbracketed h =>
    rw [parameterNames, if_pos hbracketed, h]
    rfl
  | notAName hbracketed hsplit hbefore h =>
    rw [parameterNames, if_pos hbracketed, hsplit]
    dsimp only [bind, Except.bind]
    rw [requireDistinct_append hbefore (fun _ _ => List.not_mem_nil), requireDistinct_cons,
      if_neg (Bool.eq_false_iff.mp h)]
    rfl
  | @duplicate before after name hbracketed hsplit hbefore h =>
    have hseen : (before.reverse ++ []).contains name = true := by
      rw [List.append_nil, List.contains_iff_mem, List.mem_reverse]
      exact h
    rw [parameterNames, if_pos hbracketed, hsplit]
    dsimp only [bind, Except.bind]
    rw [requireDistinct_append hbefore (fun _ _ => List.not_mem_nil), requireDistinct_cons,
      if_pos (hbefore.2 name h), if_pos hseen]
    rfl

/-- Siblings that are no parameters are at fault. -/
theorem exists_parameterFault {params : String} {names : List String}
    (hbracketed : isBracketed params = true) (hsplit : Text.splitForm params = .ok names)
    (h : ¬ AreParameters names) : ∃ e, ParameterFault params e := by
  obtain ⟨before, name, after, rfl, hbefore, hname | hmem⟩ := exists_offending h
  · exact ⟨_, .notAName hbracketed hsplit hbefore hname⟩
  · exact ⟨_, .duplicate hbracketed hsplit hbefore hmem⟩

theorem Keyword.ofText?_text (keyword : Keyword) : ofText? keyword.text = some keyword := by
  cases keyword <;> decide

/-- A form with another number of operands is refused. -/
theorem evaluateSiblings_of_operandCount {keyword : Keyword} {operands : List String}
    (h : operands.length ≠ keyword.operandCount) (host : Host) (descend : Descent)
    (env : Environment) (text : String) :
    evaluateSiblings host descend env text (keyword.text :: operands) =
      Run.ofExcept (keyword.refuse (.operandCount keyword.operandCount operands.length)) := by
  rw [evaluateSiblings, keyword.ofText?_text]
  cases keyword
  all_goals
    dsimp only
    first
      | unfold evaluateDefine
      | unfold evaluateConditional
      | unfold evaluateQuote
      | unfold evaluateLambda
      | unfold evaluateAssign
    split
    · exact absurd rfl h
    · rfl

theorem evaluateSiblings_define_of_refused {name : String} {s : Store} {e : Error}
    (h : requireNew name s = ⟨.error e, s, []⟩) (host : Host) (descend : Descent)
    (env : Environment) (text expr : String) :
    evaluateSiblings host descend env text ["define", name, expr] s = ⟨.error e, s, []⟩ := by
  rw [evaluateSiblings_define]
  exact Run.bind_of_error h

theorem evaluateSiblings_assign_of_refused {env : Environment} {name : String} {s : Store}
    {e : Error} (h : locate env name s = ⟨.error e, s, []⟩) (host : Host) (descend : Descent)
    (text expr : String) :
    evaluateSiblings host descend env text ["set!", name, expr] s = ⟨.error e, s, []⟩ := by
  rw [evaluateSiblings_assign]
  exact Run.bind_of_error h

/-- A form that is refused is so however its sub-expressions would be evaluated. -/
theorem Refused.evaluateSiblings_eq {env : Environment} {s : Store} {siblings : List String}
    {e : Error} (h : Refused env s siblings e) (host : Host) (descend : Descent) (text : String) :
    evaluateSiblings host descend env text siblings s = ⟨.error e, s, []⟩ := by
  cases h with
  | operandCount h =>
    rw [evaluateSiblings_of_operandCount h]
    rfl
  | target hkeyword h =>
    obtain rfl | rfl := hkeyword
    · apply evaluateSiblings_define_of_refused
      simp [h, Keyword.refuse]
    · apply evaluateSiblings_assign_of_refused
      simp [h, Keyword.refuse]
  | bound hname h =>
    apply evaluateSiblings_define_of_refused
    simp [hname, requireUnbound, h]
  | unowned hname h =>
    apply evaluateSiblings_assign_of_refused
    simp [hname, h]
  | parameters h =>
    have hkeyword : Keyword.ofText? "lambda" = some .lambda := Keyword.lambda.ofText?_text
    rw [evaluateSiblings, hkeyword]
    dsimp only
    rw [evaluateLambda, h.parameterNames_eq]
    rfl

section

variable {descend : Descent} {env : Environment} {s s₁ : Store} {exprs : List String}
  {values : List Value} {log : List Record}

/-- Operands that have values in turn are evaluated to those values. -/
theorem InTurn.evaluateOperands_eq (h : InTurn descend env s exprs values log s₁) :
    evaluateOperands descend env exprs s = ⟨.ok values, s₁, log⟩ := by
  induction h with
  | nil s => rfl
  | cons h _ ih => exact evaluateOperands_cons_of_ok h ih

theorem evaluateOperands_cons_of_error {expr : String} {e : Error}
    (h : descend env expr s = ⟨.error e, s₁, log⟩) (exprs : List String) :
    evaluateOperands descend env (expr :: exprs) s = ⟨.error e, s₁, log⟩ :=
  Run.bind_of_error h

/-- What is behind an operand that fails is not evaluated. -/
theorem FailsInTurn.evaluateOperands_eq {e : Error} (h : FailsInTurn descend env s exprs e log s₁) :
    evaluateOperands descend env exprs s = ⟨.error e, s₁, log⟩ := by
  obtain ⟨hbefore, h, after⟩ := h
  rw [evaluateOperands_append, Run.bind_eq_behind hbefore.evaluateOperands_eq,
    Run.bind_of_error (evaluateOperands_cons_of_error h after)]
  rfl

/-- Expressions in a row have all of them values, or one of them is the first to fail. -/
theorem inTurn_or_failsInTurn (descend : Descent) (env : Environment) (exprs : List String)
    (s : Store) : (∃ values log s₁, InTurn descend env s exprs values log s₁) ∨
      ∃ e log s₁, FailsInTurn descend env s exprs e log s₁ := by
  induction exprs generalizing s with
  | nil => exact Or.inl ⟨[], [], s, .nil s⟩
  | cons expr exprs ih =>
    rcases h : descend env expr s with ⟨e | value, s₁, log⟩
    · exact Or.inr ⟨e, _, s₁, .intro (.nil s) h exprs⟩
    · obtain ⟨values, log', s₂, hvalues⟩ | ⟨e, log', s₂, hfails⟩ := ih s₁
      · exact Or.inl ⟨_, _, _, .cons h hvalues⟩
      · obtain ⟨hbefore, hfails, after⟩ := hfails
        exact Or.inr ⟨e, _, s₂, .intro (.cons h hbefore) hfails after⟩

end

/-- A call with a number of arguments that the procedure does not accept has no effect. -/
theorem applyProcedure_of_arity {p : Procedure} {arity : Arity} (h : p.arity? = some arity)
    {args : List Value} (hrefuses : ¬ arity.Accepts args.length) (host : Host) (descend : Descent)
    (env : Environment) (s : Store) :
    applyProcedure host (applyClosure descend env) args p s =
      ⟨.error (.arityMismatch arity args.length), s, []⟩ := by
  cases p with
  | primitive p =>
    obtain rfl : p.arity = arity := Option.some.inj h
    simp [applyProcedure, Arity.check, hrefuses]
  | closure c =>
    rw [Procedure.arity?] at h
    cases hnames : parameterNames c.params with
    | error e =>
      rw [hnames] at h
      cases h
    | ok names =>
      rw [hnames] at h
      obtain rfl : Arity.exact names.length = arity := Option.some.inj h
      have hlength : ¬ args.length = names.length := hrefuses
      rw [applyProcedure, applyClosure_of_length_ne hnames hlength]

/-- A special form that is refused is so before anything in it is evaluated: nothing but the
beginning of the form is recorded, and the store stays as it is. Among these forms are all with a
list of parameters that has a fault. An application ends with its head if that fails or is no
procedure. Otherwise it ends with the first operand that fails, where this one has left the store
and the log, and a number of arguments that is not accepted is reported when all operands have been
evaluated, with no further effect. -/
theorem refusals_come_first (host : Host) {text : String} {siblings : List String}
    (hform : Text.splitForm text = .ok siblings) (remaining depth : Nat) (env : Environment)
    (s : Store) :
    let descend := evaluate host remaining (depth + 1)
    let begun := [Record.evaluate depth (Text.trim text)]
    let o := evaluate host (remaining + 1) depth env text s
    (∀ e, Refused env s siblings e →
      o = ⟨.error e, s, begun⟩ ∧
      ∀ descend', evaluateSiblings host descend' env (Text.trim text) siblings s =
        ⟨.error e, s, []⟩) ∧
    (∀ params body names, siblings = ["lambda", params, body] → isBracketed params = true →
      Text.splitForm params = .ok names → ¬ AreParameters names →
        ∃ e, Refused env s siblings e) ∧
    ∀ head operands, siblings = head :: operands → Keyword.ofText? head = none →
      (∀ e log s₁, descend env head s = ⟨.error e, s₁, log⟩ → o = ⟨.error e, s₁, begun ++ log⟩) ∧
      (∀ value log s₁, descend env head s = ⟨.ok value, s₁, log⟩ → (∀ p, value ≠ .procedure p) →
        o = ⟨.error (.typeMismatch (.notProcedure value.kind value.render)), s₁, begun ++ log⟩) ∧
      ∀ p log s₁, descend env head s = ⟨.ok (.procedure p), s₁, log⟩ →
        ((∃ args log' s₂, InTurn descend env s₁ operands args log' s₂) ∨
          ∃ e log' s₂, FailsInTurn descend env s₁ operands e log' s₂) ∧
        (∀ e log' s₂, FailsInTurn descend env s₁ operands e log' s₂ →
          o = ⟨.error e, s₂, begun ++ (log ++ log')⟩) ∧
        ∀ args log' s₂, InTurn descend env s₁ operands args log' s₂ →
          o = (applyProcedure host (applyClosure descend env) args p s₂).behind
            (begun ++ (log ++ log')) ∧
          ∀ arity, p.arity? = some arity → ¬ arity.Accepts args.length →
            o = ⟨.error (.arityMismatch arity args.length), s₂, begun ++ (log ++ log')⟩ := by
  intro descend begun o
  have ho : o = (evaluateSiblings host descend env (Text.trim text) siblings s).behind begun :=
    evaluate_of_splitForm hform host remaining depth env s
  refine ⟨?_, ?_, ?_⟩
  · intro e h
    refine ⟨?_, fun descend' => h.evaluateSiblings_eq host descend' _⟩
    rw [ho, h.evaluateSiblings_eq]
    rfl
  · rintro params body names rfl hbracketed hsplit hnames
    obtain ⟨e, he⟩ := exists_parameterFault hbracketed hsplit hnames
    exact ⟨e, .parameters he⟩
  rintro head operands rfl hhead
  refine ⟨?_, ?_, ?_⟩
  · intro e log s₁ h
    rw [ho, evaluateSiblings, hhead]
    exact congrArg (Outcome.behind begun) (Run.bind_of_error h)
  · intro value log s₁ h hvalue
    have happly : applyHead host (applyClosure descend env) descend env operands value s₁ =
        ⟨.error (.typeMismatch (.notProcedure value.kind value.render)), s₁, []⟩ := by
      cases value with
      | procedure p => exact absurd rfl (hvalue p)
      | _ => rfl
    rw [ho, evaluateSiblings_of_head hhead h, happly, Outcome.behind_behind]
    simp only [Outcome.behind, List.append_nil]
  intro p log s₁ h
  have happly : o = ((evaluateOperands descend env operands >>= fun args =>
      applyProcedure host (applyClosure descend env) args p) s₁).behind (begun ++ log) := by
    rw [ho, evaluateSiblings_of_head hhead h, Outcome.behind_behind]
    rfl
  refine ⟨inTurn_or_failsInTurn descend env operands s₁, ?_, ?_⟩
  · intro e log' s₂ hfails
    rw [happly, Run.bind_of_error hfails.evaluateOperands_eq, ← List.append_assoc]
    rfl
  · intro args log' s₂ hargs
    have hcall : o = (applyProcedure host (applyClosure descend env) args p s₂).behind
        (begun ++ (log ++ log')) := by
      rw [happly, Run.bind_eq_behind hargs.evaluateOperands_eq, Outcome.behind_behind,
        List.append_assoc]
    refine ⟨hcall, ?_⟩
    intro arity harity hrefuses
    rw [hcall, applyProcedure_of_arity harity hrefuses]
    simp only [Outcome.behind, List.append_nil]

/-- A definition with an expression too many, and a call without an argument. -/
theorem definition_and_call_are_refused :
    let host : Host := fun _ _ => .ok .nil
    evaluate host 2 0 .empty "(define a (car) 2)" Store.initial =
      ⟨.error (.malformedForm "define" (.operandCount 2 3)), Store.initial,
        [.evaluate 0 "(define a (car) 2)"]⟩ ∧
    evaluate host 2 0 .empty " (car)" Store.initial =
      ⟨.error (.arityMismatch (.exact 1) 0), Store.initial,
        [.evaluate 0 "(car)", .evaluate 1 "car"]⟩ := by
  intro host
  have hdefine : Text.splitForm "(define a (car) 2)" = .ok ["define", "a", "(car)", "2"] := by cbv
  have hcall : Text.splitForm " (car)" = .ok ["car"] := by cbv
  have hcar : evaluate host 1 1 .empty "car" Store.initial =
      ⟨.ok Builtin.car.toValue, Store.initial, [.evaluate 1 "car"]⟩ := by
    have htrim : Text.trim "car" = "car" := by cbv
    have hatom : Text.isAtom "car" = true := by cbv
    have hvalue : atomValue .empty Store.initial "car" = .ok Builtin.car.toValue := by
      apply atomValue_of_lookup hatom rfl
      intro target he
      cases he
    have htrimmed : Text.isAtom (Text.trim "car") = true := by rwa [htrim]
    rw [evaluate_atom htrimmed, htrim, hvalue]
  have hcount : Refused .empty Store.initial ["define", "a", "(car)", "2"]
      (.malformedForm "define" (.operandCount 2 3)) := by
    have hlength : ["a", "(car)", "2"].length ≠ Keyword.define.operandCount := by decide
    exact .operandCount hlength
  refine ⟨((refusals_come_first host hdefine 1 0 .empty Store.initial).1 _ hcount).1, ?_⟩
  have hkeyword : Keyword.ofText? "car" = none := by decide
  have happly := (refusals_come_first host hcall 1 0 .empty Store.initial).2.2 _ _ rfl hkeyword
  exact ((happly.2.2 _ _ _ hcar).2.2 _ _ _ (.nil _)).2 (.exact 1) rfl (by decide)

end TextLisp
