import TextLisp.Proofs.Evaluator.Assignment
import TextLisp.Proofs.Evaluator.Nested
import TextLisp.Proofs.Store.Causes

namespace TextLisp

variable {α β γ ε : Type}

namespace Cause

theorem behind_nil (cause : Cause β) : cause.behind [] = cause :=
  rfl

theorem behind_behind (cause : Cause β) (log log' : List Record) :
    (cause.behind log).behind log' = cause.behind (log ++ log') := by
  funext rest
  simp only [behind, List.append_assoc]

end Cause

namespace Run

/-- From this store on, whatever the computation assigns to a bound slot has the cause. -/
def AssignsAt (cause : Cause β) (x : RunOver β α) (s : Store β) : Prop :=
  Store.AssignedBy cause s (x s).log (x s).store

variable {cause cause' : Cause β}

theorem assignsAt_of_quiet {x : RunOver β α} {s : Store β}
    (hlog : ∀ r ∈ (x s).log, r.isAssign = false) (hkeeps : s.KeepsBindings (x s).store) :
    AssignsAt cause x s :=
  Store.AssignedBy.start.quiet hlog hkeeps

theorem assignsAt_of_apply {x : RunOver β α} {s : Store β} {r : Except Error α}
    (h : x s = ⟨r, s, []⟩) : AssignsAt cause x s := by
  rw [AssignsAt, h]
  exact .start

theorem assignsAt_ofExcept (r : Except Error α) (s : Store β) : AssignsAt cause (ofExcept r) s :=
  assignsAt_of_apply (ofExcept_apply r s)

theorem AssignsAt.mono {x : RunOver β α} {s : Store β} (hx : AssignsAt cause x s)
    (h : ∀ log owner name value, cause log owner name value → cause' log owner name value) :
    AssignsAt cause' x s :=
  Store.AssignedBy.mono hx h

/-- The causes of the second part lie behind the records of the first one. -/
theorem AssignsAt.bind {x : RunOver β α} {f : α → RunOver β γ} {s : Store β}
    (hx : AssignsAt cause x s)
    (hf : ∀ a s₁ log, x s = ⟨.ok a, s₁, log⟩ → AssignsAt (cause.behind log) (f a) s₁) :
    AssignsAt cause (x >>= f) s := by
  rcases hrun : x s with ⟨e | a, s₁, log⟩
  · rw [AssignsAt, bind_of_error hrun]
    rwa [AssignsAt, hrun] at hx
  · have hlast := hf a s₁ log hrun
    rw [AssignsAt, hrun] at hx
    rw [AssignsAt, bind_of_ok hrun]
    exact hx.trans hlast

/-- A first part that changes and records nothing has no say in the causes. -/
theorem AssignsAt.bind_still {x : RunOver β α} {f : α → RunOver β γ} {s : Store β}
    {r : Except Error α} (hx : x s = ⟨r, s, []⟩)
    (hf : ∀ a, x s = ⟨.ok a, s, []⟩ → AssignsAt cause (f a) s) : AssignsAt cause (x >>= f) s := by
  apply (assignsAt_of_apply hx).bind
  intro a s₁ log hrun
  obtain ⟨-, rfl, rfl⟩ := Outcome.mk.inj (hx.symm.trans hrun)
  exact hf a hrun

end Run

open Run

variable {cause : Cause β}

theorem assignsAt_bindGlobal (name : String) (value : Value β) (s : Store β) :
    AssignsAt cause (bindGlobal name value) s := by
  have hannounce : ∀ r ∈ [Record.define name value.render], r.isAssign = false := by
    simp [Record.isAssign]
  unfold AssignsAt
  rw [bindGlobal_apply]
  split
  · exact .start
  · split
    · exact Store.AssignedBy.start.quiet hannounce (.refl s)
    next hnew =>
      rw [Bool.not_eq_true] at hnew
      exact Store.AssignedBy.start.quiet hannounce (Store.keepsBindings_put_globals hnew value)

/-- To overwrite a slot that is bound is an assignment, and the only step that needs a cause. -/
theorem assignsAt_overwrite {owner : Owner} {name : String} {s : Store β} {value : Value β}
    (hbound : (s.table owner).contains name = true)
    (hcause : value.isUnspecified = false → cause [] owner name value) :
    AssignsAt cause (overwrite owner name value) s := by
  unfold AssignsAt
  rw [overwrite_apply hbound]
  split
  · exact .start
  next hvalue =>
    rw [Bool.not_eq_true] at hvalue
    exact Store.AssignedBy.start.assign hbound (hcause hvalue)

theorem assignsAt_makeClosure (params : String) (body : β) (env : Environment) (s : Store β) :
    AssignsAt cause (makeClosure params body env) s := by
  apply assignsAt_of_quiet
  · simp [makeClosure_apply, Record.isAssign]
  · intro owner name value hvalue
    cases owner <;> exact hvalue

theorem assignsAt_enterClosure (scope : Environment) (params body : String) (names : List String)
    (args : List (Value β)) (s : Store β) :
    AssignsAt cause (enterClosure scope params body names args) s := by
  have hentry : ∀ r ∈ [Record.apply params args.length body], r.isAssign = false := by
    simp [Record.isAssign]
  unfold AssignsAt
  rw [enterClosure_apply]
  split
  · split
    · exact Store.AssignedBy.start.quiet hentry (.refl s)
    · exact Store.AssignedBy.start.quiet hentry (Store.keepsBindings_addFrame s _)
  · exact .start

theorem assignsAt_evaluateOperands {descend : Descent ε β} {env : Environment} {operands : List ε}
    {s : Store β}
    (hd : ∀ before operand after values s₁ log, operands = before ++ operand :: after →
      evaluateOperands descend env before s = ⟨.ok values, s₁, log⟩ →
        AssignsAt (cause.behind log) (descend env operand) s₁) :
    AssignsAt cause (evaluateOperands descend env operands) s := by
  induction operands generalizing s cause with
  | nil => exact assignsAt_of_apply (pure_apply [] s)
  | cons operand operands ih =>
    have hhead := hd [] operand operands [] s [] rfl rfl
    rw [Cause.behind_nil] at hhead
    apply hhead.bind
    intro value s₁ log hvalue
    -- What is evaluated before an operand of the rest is evaluated after the first operand.
    have hrest : AssignsAt (cause.behind log) (evaluateOperands descend env operands) s₁ := by
      apply ih
      intro before other after values s₂ log' hsplit hbefore
      rw [Cause.behind_behind]
      apply hd (operand :: before) other after (value :: values) s₂
      · rw [hsplit, List.cons_append]
      · exact evaluateOperands_cons_of_ok hvalue hbefore
    apply hrest.bind
    intro values s₂ _ _
    exact assignsAt_of_apply (pure_apply (value :: values) s₂)

section

variable {cause : Cause} {descend : Descent} {env : Environment} {s : Store}

theorem assignsAt_evaluateApplication {host : Host} {head : String} {operands : List String}
    (hkeyword : Keyword.ofText? head = none)
    (hd : ∀ log env' expr s', Asks descend env s (head :: operands) log env' expr s' →
      AssignsAt (cause.behind log) (descend env' expr) s') :
    AssignsAt cause (evaluateApplication host (applyClosure descend env) descend env head operands)
      s := by
  have hhead := hd [] env head s (.head hkeyword)
  rw [Cause.behind_nil] at hhead
  apply hhead.bind
  intro value s₁ log hvalue
  cases value with
  | procedure p =>
    have hoperands : AssignsAt (cause.behind log) (evaluateOperands descend env operands) s₁ := by
      apply assignsAt_evaluateOperands
      rintro before operand after values s₂ log' rfl hbefore
      rw [Cause.behind_behind]
      exact hd _ env operand s₂ (.operand hkeyword hvalue hbefore)
    apply hoperands.bind
    intro args s₂ log' hargs
    cases p with
    | primitive p =>
      apply AssignsAt.bind_still (ofExcept_apply _ s₂)
      intro _ _
      exact assignsAt_ofExcept _ s₂
    | closure c =>
      apply AssignsAt.bind_still (ofExcept_apply _ s₂)
      intro names hnames
      rw [ofExcept_apply] at hnames
      apply (assignsAt_enterClosure _ _ _ _ _ s₂).bind
      intro inner s₃ log'' henter
      rw [Cause.behind_behind, Cause.behind_behind]
      exact hd _ inner c.body s₃
        (.body hkeyword hvalue hargs (congrArg Outcome.result hnames) henter)
  | _ => exact assignsAt_of_apply rfl

theorem assignsAt_evaluateDefine {operands : List String}
    (hd : ∀ log env' expr s', Asks descend env s ("define" :: operands) log env' expr s' →
      AssignsAt (cause.behind log) (descend env' expr) s') :
    AssignsAt cause (evaluateDefine descend env operands) s := by
  unfold evaluateDefine
  split
  next name expr =>
    apply AssignsAt.bind_still (requireNew_apply name s)
    intro _ hnew
    have hexpr := hd [] env expr s (.definition hnew)
    rw [Cause.behind_nil] at hexpr
    apply hexpr.bind
    intro value s₁ _ _
    exact assignsAt_bindGlobal name value s₁
  · exact assignsAt_ofExcept _ s

theorem assignsAt_evaluateConditional {operands : List String}
    (hd : ∀ log env' expr s', Asks descend env s ("if" :: operands) log env' expr s' →
      AssignsAt (cause.behind log) (descend env' expr) s') :
    AssignsAt cause (evaluateConditional descend env operands) s := by
  unfold evaluateConditional
  split
  next test first second =>
    have htest := hd [] env test s .test
    rw [Cause.behind_nil] at htest
    apply htest.bind
    intro value s₁ log hvalue
    exact hd log env _ s₁ (.branch hvalue)
  · exact assignsAt_ofExcept _ s

theorem assignsAt_evaluateQuote (operands : List String) :
    AssignsAt cause (evaluateQuote operands) s := by
  unfold evaluateQuote
  split <;> exact assignsAt_ofExcept _ s

theorem assignsAt_evaluateLambda (operands : List String) :
    AssignsAt cause (evaluateLambda env operands) s := by
  unfold evaluateLambda
  split
  · apply AssignsAt.bind_still (ofExcept_apply _ s)
    intro _ _
    exact assignsAt_makeClosure _ _ env s
  · exact assignsAt_ofExcept _ s

theorem assignsAt_evaluateAssign {operands : List String}
    (hr : ∀ env text s, RecordedAt (descend env text) s)
    (hd : ∀ log env' expr s', Asks descend env s ("set!" :: operands) log env' expr s' →
      AssignsAt (cause.behind log) (descend env' expr) s')
    (hown : ∀ name expr owner value s₁ log, operands = [name, expr] →
      isName name = true → env.owner? s name = some owner →
      descend env expr s = ⟨.ok value, s₁, log⟩ → value.isUnspecified = false →
        cause log owner name value) :
    AssignsAt cause (evaluateAssign descend env operands) s := by
  unfold evaluateAssign
  split
  next name expr =>
    apply AssignsAt.bind_still (locate_apply env name s)
    intro owner hlocate
    have hexpr := hd [] env expr s (.assignment hlocate)
    obtain ⟨hname, howner, -⟩ := locate_eq_ok hlocate
    rw [Cause.behind_nil] at hexpr
    apply hexpr.bind
    intro value s₁ log hvalue
    have hbound := contains_of_descend hr howner hvalue
    apply assignsAt_overwrite hbound
    intro hbindable
    rw [Cause.behind, List.append_nil]
    exact hown name expr owner value s₁ log rfl hname howner hvalue hbindable
  · exact assignsAt_ofExcept _ s

/-- A form assigns what the evaluations that it asks for assign, and what it assigns itself if it is
a `set!`. -/
theorem assignsAt_evaluateSiblings {host : Host} {text : String} {siblings : List String}
    (hr : ∀ env text s, RecordedAt (descend env text) s)
    (hd : ∀ log env' expr s', Asks descend env s siblings log env' expr s' →
      AssignsAt (cause.behind log) (descend env' expr) s')
    (hown : ∀ name expr owner value s₁ log, siblings = ["set!", name, expr] →
      isName name = true → env.owner? s name = some owner →
      descend env expr s = ⟨.ok value, s₁, log⟩ → value.isUnspecified = false →
        cause log owner name value) :
    AssignsAt cause (evaluateSiblings host descend env text siblings) s := by
  unfold evaluateSiblings
  split
  · exact assignsAt_of_apply rfl
  next head operands =>
    split
    next hkeyword =>
      obtain rfl := Keyword.eq_text_of_ofText? hkeyword
      exact assignsAt_evaluateDefine hd
    next hkeyword =>
      obtain rfl := Keyword.eq_text_of_ofText? hkeyword
      exact assignsAt_evaluateConditional hd
    · exact assignsAt_evaluateQuote operands
    · exact assignsAt_evaluateLambda operands
    next hkeyword =>
      obtain rfl := Keyword.eq_text_of_ofText? hkeyword
      apply assignsAt_evaluateAssign hr hd
      rintro name expr owner value s₁ log rfl
      exact hown name expr owner value s₁ log rfl
    next hkeyword => exact assignsAt_evaluateApplication hkeyword hd

end

/-- The assignments of an evaluation: each is made by a `set!` that begins in the course of it, as
the last thing that the `set!` does. -/
def Evaluation.assigns (host : Host) (v : Evaluation) : Cause :=
  fun log owner name value => ∃ start w, v.Begins host start w ∧
    w.Overwrites host owner name value ∧
    log ++ [.assign name value.render] = start ++ (w.outcome host).log

/-- A `set!` that finds its target and has a value writes to the target as its last step. -/
theorem overwrites_of_evaluate {host : Host} {remaining depth : Nat} {env : Environment}
    {text name expr : String} {s s₁ : Store} {owner : Owner} {value : Value} {log : List Record}
    (hform : Text.splitForm text = .ok ["set!", name, expr]) (hname : isName name = true)
    (howner : env.owner? s name = some owner)
    (hvalue : evaluate host remaining (depth + 1) env expr s = ⟨.ok value, s₁, log⟩)
    (hbindable : value.isUnspecified = false) :
    let w : Evaluation := ⟨remaining + 1, depth, env, text, s⟩
    w.Overwrites host owner name value ∧
      (w.outcome host).log =
        .evaluate depth (Text.trim text) :: (log ++ [.assign name value.render]) := by
  intro w
  have hbound := contains_of_descend (recordedAt_evaluate host remaining (depth + 1)) howner hvalue
  have hnot : ¬ value.isUnspecified = true := Bool.eq_false_iff.mp hbindable
  have houtcome : w.outcome host = ⟨.ok .unspecified, s₁.put owner name value,
      .evaluate depth (Text.trim text) :: (log ++ [.assign name value.render])⟩ := by
    have hrun := evaluate_assignment host remaining depth hform hname howner
    rw [Run.bind_of_ok hvalue, overwrite_apply hbound, if_neg hnot] at hrun
    exact hrun
  rw [houtcome]
  refine ⟨⟨howner, ⟨remaining, expr, s₁, log, rfl, hform, hvalue, ?_⟩, ?_⟩, rfl⟩
  · rw [houtcome]
    exact Store.assign_of_contains hbound value
  · rw [houtcome]

/-- An assignment to what is no name fails. -/
theorem Evaluation.Overwrites.isName {host : Host} {w : Evaluation} {owner : Owner} {name : String}
    {value : Value} (h : w.Overwrites host owner name value) : isName name = true := by
  obtain ⟨remaining, depth, env, text, s⟩ := w
  obtain ⟨-, ⟨remaining, expr, s₁, log, rfl, hform, -, -⟩, hresult⟩ := h
  apply Classical.byContradiction
  intro hname
  have hlocate : locate env name s = ⟨Keyword.assign.refuse (.notAName name), s, []⟩ := by
    rw [locate_apply, if_neg hname]
  have hassign : (evaluateAssign (evaluate host remaining (depth + 1)) env [name, expr] s).result =
      Keyword.assign.refuse (.notAName name) :=
    congrArg Outcome.result (Run.bind_of_error hlocate)
  change (evaluate host (remaining + 1) depth env text s).result = _ at hresult
  rw [evaluate_of_splitForm hform, evaluateSiblings_assign] at hresult
  cases hassign.symm.trans hresult

/-- What is written is the value of the expression, and it is one that can be bound. -/
theorem Evaluation.Overwrites.exists_put {host : Host} {w : Evaluation} {owner : Owner}
    {name : String} {value : Value} (h : w.Overwrites host owner name value) :
    value.isUnspecified = false ∧ ∃ v : Evaluation, v.store = w.store ∧
      (v.outcome host).result = .ok value ∧
      ((v.outcome host).store.table owner).contains name = true ∧
      (w.outcome host).store = (v.outcome host).store.put owner name value := by
  have hname := h.isName
  obtain ⟨remaining, depth, env, text, s⟩ := w
  obtain ⟨howner, ⟨remaining, expr, s₁, log, rfl, hform, hvalue, hassign⟩, hresult⟩ := h
  dsimp only at howner hform hvalue
  have hkeeps := keepsNames_evaluate host remaining (depth + 1) env expr s
  rw [hvalue] at hkeeps
  have hbound := hkeeps.contains_table (Environment.contains_of_owner? howner)
  rw [Store.assign_of_contains hbound] at hassign
  constructor
  · change (evaluate host (remaining + 1) depth env text s).result = _ at hresult
    rw [evaluate_assignment host remaining depth hform hname howner, Run.bind_of_ok hvalue,
      overwrite_apply hbound] at hresult
    apply Bool.eq_false_iff.mpr
    intro hnone
    rw [if_pos hnone] at hresult
    cases hresult
  · refine ⟨⟨remaining, depth + 1, env, expr, s⟩, rfl, ?_⟩
    unfold Evaluation.outcome at hassign ⊢
    dsimp only at hassign ⊢
    rw [hvalue]
    exact ⟨rfl, hbound, (Except.ok.inj hassign).symm⟩

/-- Every assignment of an evaluation is made by a `set!` that begins in the course of it. -/
theorem assignsAt_evaluate (host : Host) (remaining depth : Nat) (env : Environment)
    (text : String) (s : Store) :
    AssignsAt (Evaluation.assigns host ⟨remaining, depth, env, text, s⟩)
      (evaluate host remaining depth env text) s := by
  -- On the levels. Causes on the next level lie behind the records that are made before it.
  induction remaining generalizing depth env text s with
  | zero => exact assignsAt_of_apply rfl
  | succ remaining ih =>
    have hrecord : AssignsAt (Evaluation.assigns host ⟨remaining + 1, depth, env, text, s⟩)
        (record (.evaluate depth (Text.trim text))) s :=
      assignsAt_of_quiet (by simp [record, Record.isAssign]) (.refl s)
    apply hrecord.bind
    rintro ⟨⟩ s₁ log hrun
    obtain ⟨-, rfl, rfl⟩ := Outcome.mk.inj hrun
    split
    next hbracketed =>
      apply AssignsAt.bind_still (ofExcept_apply _ s)
      intro siblings hsiblings
      rw [ofExcept_apply, Text.splitForm_trim] at hsiblings
      have hform : Text.splitForm text = .ok siblings := congrArg Outcome.result hsiblings
      apply assignsAt_evaluateSiblings (recordedAt_evaluate host remaining (depth + 1))
      -- What begins inside an evaluation that the form asks for begins inside the form.
      · intro log env' expr s' hasks
        apply (ih (depth + 1) env' expr s').mono
        rintro rest owner name value ⟨start, w, hbegins, hwrites, hrest⟩
        refine ⟨_, w, .inside hform hasks hbegins, hwrites, ?_⟩
        simp only [List.cons_append, List.append_assoc, ← hrest, List.nil_append]
      · rintro name expr owner value s₁ log rfl hname howner hvalue hbindable
        obtain ⟨hwrites, hlog⟩ := overwrites_of_evaluate hform hname howner hvalue hbindable
        refine ⟨[], _, .itself _, hwrites, ?_⟩
        rw [hlog]
        simp only [List.cons_append, List.nil_append]
    · exact assignsAt_of_apply (evaluateAtom_apply env _ s)

end TextLisp
