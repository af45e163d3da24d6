import TextLisp.Proofs.Evaluator.Nested
import TextLisp.Proofs.Store.History

namespace TextLisp

variable {α β γ ε : Type}

namespace Run

def RecordedAt (x : RunOver β α) (s : Store β) : Prop :=
  s.History (x s).log (x s).store

theorem recordedAt_of_apply {x : RunOver β α} {s : Store β} {r : Except Error α}
    (h : x s = ⟨r, s, []⟩) : RecordedAt x s := by
  rw [RecordedAt, h]
  exact .start

theorem RecordedAt.history {x : RunOver β α} {s s₁ : Store β} {r : Except Error α}
    {log : List Record} (hx : RecordedAt x s) (h : x s = ⟨r, s₁, log⟩) : s.History log s₁ := by
  rwa [RecordedAt, h] at hx

theorem recordedAt_ofExcept (r : Except Error α) (s : Store β) : RecordedAt (ofExcept r) s :=
  recordedAt_of_apply (ofExcept_apply r s)

/-- Histories in a row are one history. -/
theorem RecordedAt.bind {x : RunOver β α} {f : α → RunOver β γ} {s : Store β}
    (hx : RecordedAt x s)
    (hf : ∀ a s₁ log, x s = ⟨.ok a, s₁, log⟩ → RecordedAt (f a) s₁) :
    RecordedAt (x >>= f) s := by
  rcases hrun : x s with ⟨e | a, s₁, log⟩
  · rw [RecordedAt, bind_of_error hrun]
    exact hx.history hrun
  · have hlast := hf a s₁ log hrun
    rw [RecordedAt, bind_of_ok hrun]
    exact (hx.history hrun).trans hlast

end Run

open Run

theorem recordedAt_bindGlobal {name : String} (hname : isName name = true) (value : Value β)
    (s : Store β) : RecordedAt (bindGlobal name value) s := by
  unfold RecordedAt
  rw [bindGlobal_apply]
  by_cases hvalue : value.isUnspecified = true
  · rw [if_pos hvalue]
    exact .start
  · rw [if_neg hvalue]
    rw [Bool.not_eq_true] at hvalue
    by_cases hbound : s.globals.contains name = true
    · rw [if_pos hbound]
      exact Store.History.start.refuse hname hvalue hbound
    · rw [if_neg hbound]
      rw [Bool.not_eq_true] at hbound
      exact Store.History.start.define hname hvalue hbound

theorem recordedAt_overwrite {owner : Owner} {name : String} {s : Store β}
    (hname : isName name = true) (hbound : (s.table owner).contains name = true)
    (value : Value β) : RecordedAt (overwrite owner name value) s := by
  unfold RecordedAt
  rw [overwrite_apply hbound]
  by_cases hvalue : value.isUnspecified = true
  · rw [if_pos hvalue]
    exact .start
  · rw [if_neg hvalue]
    rw [Bool.not_eq_true] at hvalue
    exact Store.History.start.assign hname hvalue hbound

theorem recordedAt_makeClosure (params : String) (body : β) (env : Environment) (s : Store β) :
    RecordedAt (makeClosure params body env) s :=
  (Store.History.start.note rfl).closure

theorem recordedAt_enterClosure {names : List String} (hnodup : names.Nodup)
    (hnames : ∀ name ∈ names, isName name = true) (scope : Environment) (params body : String)
    (args : List (Value β)) (s : Store β) :
    RecordedAt (enterClosure scope params body names args) s := by
  unfold RecordedAt
  rw [enterClosure_apply]
  by_cases hlength : args.length = names.length
  · rw [if_pos hlength]
    split
    · exact Store.History.start.note rfl
    · exact (Store.History.start.note rfl).enter hnodup hnames hlength
  · rw [if_neg hlength]
    exact .start

theorem recordedAt_applyProcedure (host : Host β)
    {call : Closure β → List (Value β) → RunOver β (Value β)}
    (hcall : ∀ c args s, RecordedAt (call c args) s) (args : List (Value β)) (p : Procedure β)
    (s : Store β) : RecordedAt (applyProcedure host call args p) s := by
  cases p with
  | primitive p =>
    apply (recordedAt_ofExcept _ s).bind
    intro _ s₁ _ _
    exact recordedAt_ofExcept _ s₁
  | closure c => exact hcall c args s

section

variable {descend : Descent ε β} (hd : ∀ env expr s, RecordedAt (descend env expr) s)
include hd

theorem recordedAt_evaluateConditional (env : Environment) (operands : List ε) (s : Store β) :
    RecordedAt (evaluateConditional descend env operands) s := by
  unfold evaluateConditional
  split
  · exact (hd _ _ _).bind fun _ _ _ _ => hd _ _ _
  · exact recordedAt_ofExcept _ s

/-- Operands leave the histories of their evaluations, one behind the other. -/
theorem recordedAt_evaluateOperands (env : Environment) (operands : List ε) (s : Store β) :
    RecordedAt (evaluateOperands descend env operands) s := by
  induction operands generalizing s with
  | nil => exact recordedAt_of_apply (pure_apply [] s)
  | cons operand operands ih =>
    apply (hd env operand s).bind
    intro value s₁ _ _
    apply (ih s₁).bind
    intro values s₂ _ _
    exact recordedAt_of_apply (pure_apply (value :: values) s₂)

theorem recordedAt_applyHead (host : Host β)
    {call : Closure β → List (Value β) → RunOver β (Value β)}
    (hcall : ∀ c args s, RecordedAt (call c args) s) (env : Environment) (operands : List ε)
    (value : Value β) (s : Store β) :
    RecordedAt (applyHead host call descend env operands value) s := by
  cases value with
  | procedure p =>
    apply (recordedAt_evaluateOperands hd env operands s).bind
    intro args s₁ _ _
    exact recordedAt_applyProcedure host hcall args p s₁
  | _ => exact recordedAt_of_apply rfl

theorem recordedAt_evaluateApplication (host : Host β)
    {call : Closure β → List (Value β) → RunOver β (Value β)}
    (hcall : ∀ c args s, RecordedAt (call c args) s) (env : Environment) (head : ε)
    (operands : List ε) (s : Store β) :
    RecordedAt (evaluateApplication host call descend env head operands) s := by
  apply (hd env head s).bind
  intro value s₁ _ _
  exact recordedAt_applyHead hd host hcall env operands value s₁

end

theorem recordedAt_evaluateQuote (operands : List String) (s : Store) :
    RecordedAt (evaluateQuote operands) s := by
  unfold evaluateQuote
  split <;> exact recordedAt_ofExcept _ s

theorem recordedAt_evaluateLambda (env : Environment) (operands : List String) (s : Store) :
    RecordedAt (evaluateLambda env operands) s := by
  unfold evaluateLambda
  split
  · apply (recordedAt_ofExcept _ s).bind
    intro _ s₁ _ _
    exact recordedAt_makeClosure _ _ env s₁
  · exact recordedAt_ofExcept _ s

section

variable {descend : Descent} (hd : ∀ env text s, RecordedAt (descend env text) s)
include hd

theorem recordedAt_evaluateDefine (env : Environment) (operands : List String) (s : Store) :
    RecordedAt (evaluateDefine descend env operands) s := by
  unfold evaluateDefine
  split
  next name expr =>
    apply (recordedAt_of_apply (requireNew_apply name s)).bind
    intro _ s₁ _ hnew
    obtain ⟨hname, -, rfl⟩ := requireNew_eq_ok hnew
    apply (hd env expr s).bind
    -- The expression may have bound the name by now, so that it was new counts for nothing.
    intro value s₂ _ _
    exact recordedAt_bindGlobal hname value s₂
  · exact recordedAt_ofExcept _ s

/-- The slot that was found before the expression was evaluated is still there afterwards. -/
theorem contains_of_descend {env : Environment} {name expr : String} {owner : Owner} {s s₁ : Store}
    {value : Value} {log : List Record} (howner : env.owner? s name = some owner)
    (hvalue : descend env expr s = ⟨.ok value, s₁, log⟩) :
    (s₁.table owner).contains name = true :=
  ((hd env expr s).history hvalue).keepsNames.contains_table
    (Environment.contains_of_owner? howner)

theorem recordedAt_overwrite_of_descend {env : Environment} {name expr : String} {owner : Owner}
    {s s₁ : Store} {value : Value} {log : List Record} (hname : isName name = true)
    (howner : env.owner? s name = some owner) (hvalue : descend env expr s = ⟨.ok value, s₁, log⟩) :
    RecordedAt (overwrite owner name value) s₁ :=
  recordedAt_overwrite hname (contains_of_descend hd howner hvalue) value

theorem recordedAt_evaluateAssign (env : Environment) (operands : List String) (s : Store) :
    RecordedAt (evaluateAssign descend env operands) s := by
  unfold evaluateAssign
  split
  next name expr =>
    apply (recordedAt_of_apply (locate_apply env name s)).bind
    intro owner s₁ _ hlocate
    obtain ⟨hname, howner, rfl⟩ := locate_eq_ok hlocate
    apply (hd env expr s).bind
    intro value s₂ log hvalue
    exact recordedAt_overwrite_of_descend hd hname howner hvalue
  · exact recordedAt_ofExcept _ s

/-- A call is the history of its frame and of its body. -/
theorem recordedAt_applyClosure (env : Environment) (c : Closure) (args : List Value) (s : Store) :
    RecordedAt (applyClosure descend env c args) s := by
  apply (recordedAt_ofExcept _ s).bind
  intro names s₁ _ hnames
  rw [ofExcept_apply] at hnames
  -- Parameters are checked again at every call, so nothing has to be known of the closure.
  obtain ⟨hnodup, hall⟩ := distinct_of_parameterNames (congrArg Outcome.result hnames)
  apply (recordedAt_enterClosure hnodup hall _ _ _ _ s₁).bind
  intro inner s₂ _ _
  exact hd inner c.body s₂

theorem recordedAt_evaluateForm (host : Host) (env : Environment) (text : String) (s : Store) :
    RecordedAt (evaluateForm host descend env text) s := by
  apply (recordedAt_ofExcept _ s).bind
  intro siblings s₁ _ _
  unfold evaluateSiblings
  split
  · exact recordedAt_of_apply rfl
  · split
    · exact recordedAt_evaluateDefine hd env _ s₁
    · exact recordedAt_evaluateConditional hd env _ s₁
    · exact recordedAt_evaluateQuote _ s₁
    · exact recordedAt_evaluateLambda env _ s₁
    · exact recordedAt_evaluateAssign hd env _ s₁
    · exact recordedAt_evaluateApplication hd host (recordedAt_applyClosure hd env) env _ _ s₁

theorem recordedAt_evaluateText (host : Host) (depth : Nat) (env : Environment) (text : String)
    (s : Store) : RecordedAt (evaluateText host descend depth env text) s := by
  have hrecord : RecordedAt (record (.evaluate depth (Text.trim text))) s :=
    Store.History.start.note rfl
  apply hrecord.bind
  intro _ s₁ _ _
  split
  · exact recordedAt_evaluateForm hd host env _ s₁
  · exact recordedAt_of_apply (evaluateAtom_apply env _ s₁)

end

/-- The history of an evaluation. -/
theorem recordedAt_evaluate (host : Host) (remaining depth : Nat) (env : Environment)
    (text : String) (s : Store) : RecordedAt (evaluate host remaining depth env text) s := by
  induction remaining generalizing depth env text s with
  | zero => exact recordedAt_of_apply rfl
  | succ remaining ih => exact recordedAt_evaluateText (ih (depth + 1)) host depth env text s

/-- What a form does before it asks for an evaluation has a history. -/
theorem Asks.history {descend : Descent} (hd : ∀ env text s, RecordedAt (descend env text) s)
    {env env' : Environment} {s s' : Store} {siblings : List String} {log : List Record}
    {text : String} (h : Asks descend env s siblings log env' text s') : s.History log s' := by
  cases h with
  | definition | test | assignment | head => exact .start
  | branch htest => exact (hd env _ s).history htest
  | operand _ hprocedure hbefore =>
    have hoperands := (recordedAt_evaluateOperands hd env _ _).history hbefore
    exact ((hd env _ s).history hprocedure).trans hoperands
  | body _ hclosure hargs hnames henter =>
    obtain ⟨hnodup, hall⟩ := distinct_of_parameterNames hnames
    have hoperands := (recordedAt_evaluateOperands hd env _ _).history hargs
    have hframe := (recordedAt_enterClosure hnodup hall _ _ _ _ _).history henter
    exact ((hd env _ s).history hclosure).trans (hoperands.trans hframe)

/-- The records that have been made by then are those of the history. -/
theorem Evaluation.Begins.history {host : Host} {v w : Evaluation} {log : List Record}
    (h : v.Begins host log w) : v.store.History log w.store := by
  induction h with
  | itself v => exact .start
  | @inside remaining depth env env' text text' s s' siblings log log' w hform hasks hbegins ih =>
    have hrecord : s.History [.evaluate depth (Text.trim text)] s :=
      Store.History.start.note rfl
    have hasked := hasks.history (recordedAt_evaluate host remaining (depth + 1))
    exact hrecord.trans (hasked.trans ih)

end TextLisp
