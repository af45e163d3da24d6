import TextLisp.Proofs.Evaluator.Operations

/-! Evaluations inside an evaluation: which ones a form asks for, in which order and from which
stores, and so all that begin in the course of a run. -/
namespace TextLisp

structure Evaluation where
  remaining : Nat
  depth : Nat
  env : Environment
  text : String
  store : Store

def Evaluation.outcome (host : Host) (v : Evaluation) : Outcome Value :=
  evaluate host v.remaining v.depth v.env v.text v.store

/-- The evaluations that a form asks for, given its siblings: the records that the form has made by
then, the chain, the text, and the store. -/
inductive Asks (descend : Descent) (env : Environment) (s : Store) :
    List String → List Record → Environment → String → Store → Prop
  | definition {name expr : String} (hnew : requireNew name s = ⟨.ok (), s, []⟩) :
      Asks descend env s ["define", name, expr] [] env expr s
  | test {test first second : String} :
      Asks descend env s ["if", test, first, second] [] env test s
  | branch {test first second : String} {value : Value} {s₁ : Store} {log : List Record}
      (htest : descend env test s = ⟨.ok value, s₁, log⟩) :
      Asks descend env s ["if", test, first, second] log env
        (if value.isTrue then first else second) s₁
  | assignment {name expr : String} {owner : Owner}
      (hlocate : locate env name s = ⟨.ok owner, s, []⟩) :
      Asks descend env s ["set!", name, expr] [] env expr s
  | head {head : String} {operands : List String} (hhead : Keyword.ofText? head = none) :
      Asks descend env s (head :: operands) [] env head s
  | operand {head operand : String} {before after : List String} {p : Procedure}
      {values : List Value} {s₁ s₂ : Store} {log log' : List Record}
      (hhead : Keyword.ofText? head = none)
      (hprocedure : descend env head s = ⟨.ok (.procedure p), s₁, log⟩)
      (hbefore : evaluateOperands descend env before s₁ = ⟨.ok values, s₂, log'⟩) :
      Asks descend env s (head :: (before ++ operand :: after)) (log ++ log') env operand s₂
  /-- The body of the closure that the head stands for. -/
  | body {head : String} {operands names : List String} {c : Closure} {args : List Value}
      {inner : Environment} {s₁ s₂ s₃ : Store} {log log' log'' : List Record}
      (hhead : Keyword.ofText? head = none)
      (hclosure : descend env head s = ⟨.ok (.procedure (.closure c)), s₁, log⟩)
      (hargs : evaluateOperands descend env operands s₁ = ⟨.ok args, s₂, log'⟩)
      (hnames : parameterNames c.params = .ok names)
      (henter : enterClosure (env.splice c.env) c.params c.body names args s₂ =
        ⟨.ok inner, s₃, log''⟩) :
      Asks descend env s (head :: operands) (log ++ (log' ++ log'')) inner c.body s₃

/-- The evaluations that begin in the course of one, itself among them, each with the records that
have been made by then. -/
inductive Evaluation.Begins (host : Host) : Evaluation → List Record → Evaluation → Prop
  | itself (v : Evaluation) : Begins host v [] v
  | inside {remaining depth : Nat} {env env' : Environment} {text text' : String} {s s' : Store}
      {siblings : List String} {log log' : List Record} {w : Evaluation}
      (hform : Text.splitForm text = .ok siblings)
      (hasks : Asks (evaluate host remaining (depth + 1)) env s siblings log env' text' s')
      (h : Begins host ⟨remaining, depth + 1, env', text', s'⟩ log' w) :
      Begins host ⟨remaining + 1, depth, env, text, s⟩
        (.evaluate depth (Text.trim text) :: (log ++ log')) w

/-- The evaluation is one of a form `set!` which finds its target, evaluates its expression, and
writes the value to the slot that it has found. -/
structure Evaluation.Overwrites (host : Host) (w : Evaluation) (owner : Owner) (name : String)
    (value : Value) : Prop where
  target : w.env.owner? w.store name = some owner
  written : ∃ remaining expr s log, w.remaining = remaining + 1 ∧
    Text.splitForm w.text = .ok ["set!", name, expr] ∧
    evaluate host remaining (w.depth + 1) w.env expr w.store = ⟨.ok value, s, log⟩ ∧
    s.assign owner name value = .ok (w.outcome host).store
  result : (w.outcome host).result = .ok .unspecified

theorem Keyword.eq_text_of_ofText? {text : String} {keyword : Keyword}
    (h : Keyword.ofText? text = some keyword) : text = keyword.text :=
  (beq_iff_eq.mp (List.find?_some (p := fun k : Keyword => k.text == text) h)).symm

theorem evaluateOperands_cons_of_ok {ε β : Type} {descend : Descent ε β} {env : Environment}
    {operand : ε} {operands : List ε} {s s₁ s₂ : Store β} {value : Value β}
    {values : List (Value β)} {log log' : List Record}
    (h : descend env operand s = ⟨.ok value, s₁, log⟩)
    (h' : evaluateOperands descend env operands s₁ = ⟨.ok values, s₂, log'⟩) :
    evaluateOperands descend env (operand :: operands) s =
      ⟨.ok (value :: values), s₂, log ++ log'⟩ := by
  have hrest : (evaluateOperands descend env operands >>= fun values => pure (value :: values)) s₁ =
      ⟨.ok (value :: values), s₂, log'⟩ := by
    simp [Run.bind_of_ok h']
  refine (Run.bind_of_ok h).trans ?_
  rw [hrest]

end TextLisp
