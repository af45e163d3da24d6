import TextLisp.Proofs.Evaluator.Nested

/-! What follows an evaluation inside another one. A form that asks for an evaluation is resumed
with the result, and is nothing but the records before it, that evaluation, and the rest. -/
namespace TextLisp

variable {α γ : Type}

def Outcome.behind (log : List Record) (o : Outcome α) : Outcome α :=
  ⟨o.result, o.store, log ++ o.log⟩

theorem Outcome.behind_behind (log log' : List Record) (o : Outcome α) :
    (o.behind log').behind log = o.behind (log ++ log') := by
  simp only [behind, List.append_assoc]

/-- What follows a success stands behind its records. -/
theorem Run.bind_eq_behind {x : Run α} {f : α → Run γ} {s s₁ : Store} {a : α} {log : List Record}
    (h : x s = ⟨.ok a, s₁, log⟩) : (x >>= f) s = (f a s₁).behind log :=
  bind_of_ok h

/-- Operands are evaluated one part after the other. -/
theorem evaluateOperands_append (descend : Descent) (env : Environment)
    (before after : List String) :
    evaluateOperands descend env (before ++ after) = do
      let values ← evaluateOperands descend env before
      let more ← evaluateOperands descend env after
      return values ++ more := by
  induction before with
  | nil => simp [evaluateOperands]
  | cons operand before ih =>
    rw [List.cons_append, evaluateOperands, ih, evaluateOperands]
    simp only [bind_assoc, pure_bind, List.cons_append]

/-- What a form does with the result of an evaluation that it has asked for. -/
inductive Resumes (host : Host) (descend : Descent) (env : Environment) (s : Store) :
    (Value → Run Value) → Prop
  | definition (name : String) : Resumes host descend env s (bindGlobal name)
  | test (first second : String) :
      Resumes host descend env s fun value => descend env (if value.isTrue then first else second)
  | assignment (owner : Owner) (name : String) : Resumes host descend env s (overwrite owner name)
  | head (operands : List String) :
      Resumes host descend env s
        (applyHead host (applyClosure descend env) descend env operands)
  | operand {head : String} {before : List String} (after : List String) {p : Procedure}
      {values : List Value} {s₁ s₂ : Store} {log log' : List Record}
      (hprocedure : descend env head s = ⟨.ok (.procedure p), s₁, log⟩)
      (hbefore : evaluateOperands descend env before s₁ = ⟨.ok values, s₂, log'⟩) :
      Resumes host descend env s fun value => do
        let more ← evaluateOperands descend env after
        applyProcedure host (applyClosure descend env) (values ++ value :: more) p
  /-- The result is that of the form. -/
  | tail : Resumes host descend env s pure

/-- A form whose head has a value applies it. -/
theorem evaluateSiblings_of_head {host : Host} {descend : Descent} {env : Environment}
    {head : String} (hhead : Keyword.ofText? head = none) {s s₁ : Store} {value : Value}
    {log : List Record} (hvalue : descend env head s = ⟨.ok value, s₁, log⟩) (text : String)
    (operands : List String) :
    evaluateSiblings host descend env text (head :: operands) s =
      (applyHead host (applyClosure descend env) descend env operands value s₁).behind log := by
  rw [evaluateSiblings, hhead]
  exact Run.bind_eq_behind hvalue

/-- A form that asks for an evaluation is that evaluation and the rest. -/
theorem Asks.exists_resumes {descend : Descent} {env env' : Environment} {s s' : Store}
    {siblings : List String} {log : List Record} {text' : String}
    (h : Asks descend env s siblings log env' text' s') (host : Host) (text : String) :
    ∃ rest, Resumes host descend env s rest ∧
      evaluateSiblings host descend env text siblings s =
        ((descend env' text' >>= rest) s').behind log := by
  cases h with
  | @definition name expr hnew =>
    refine ⟨_, .definition name, ?_⟩
    rw [evaluateSiblings_define]
    exact Run.bind_eq_behind hnew
  | @test test first second => exact ⟨_, .test first second, rfl⟩
  | @branch test first second value s₁ log htest =>
    refine ⟨_, .tail, ?_⟩
    rw [bind_pure]
    exact Run.bind_eq_behind htest
  | @assignment name expr owner hlocate =>
    refine ⟨_, .assignment owner name, ?_⟩
    rw [evaluateSiblings_assign]
    exact Run.bind_eq_behind hlocate
  | @head head operands hhead =>
    refine ⟨_, .head operands, ?_⟩
    rw [evaluateSiblings, hhead]
    rfl
  | @operand head operand before after p values s₁ s₂ log log' hhead hprocedure hbefore =>
    refine ⟨_, .operand after hprocedure hbefore, ?_⟩
    have happly : applyHead host (applyClosure descend env) descend env
        (before ++ text' :: after) (.procedure p) s₁ =
          ((descend env text' >>= fun value => do
            let more ← evaluateOperands descend env after
            applyProcedure host (applyClosure descend env) (values ++ value :: more) p) s').behind
              log' := by
      unfold applyHead
      rw [evaluateOperands_append, evaluateOperands]
      simp only [bind_assoc, pure_bind]
      exact Run.bind_eq_behind hbefore
    rw [evaluateSiblings_of_head hhead hprocedure, happly, Outcome.behind_behind]
  | @body head operands names c args _ s₁ s₂ _ log log' log'' hhead hclosure hargs hnames henter =>
    refine ⟨_, .tail, ?_⟩
    have hcall : applyClosure descend env c args s₂ = (descend env' c.body s').behind log'' := by
      unfold applyClosure
      rw [hnames]
      exact Run.bind_eq_behind henter
    rw [bind_pure]
    calc
      evaluateSiblings host descend env text (head :: operands) s
        = (applyHead host (applyClosure descend env) descend env operands
            (.procedure (.closure c)) s₁).behind log := evaluateSiblings_of_head hhead hclosure ..
      _ = ((applyClosure descend env c args s₂).behind log').behind log :=
        congrArg (Outcome.behind log) (Run.bind_eq_behind hargs)
      _ = (descend env' c.body s').behind (log ++ (log' ++ log'')) := by
        rw [hcall, Outcome.behind_behind, Outcome.behind_behind, List.append_assoc]

end TextLisp
