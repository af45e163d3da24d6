import TextLisp.Proofs.Evaluator.CallTree
import TextLisp.Proofs.Evaluator.DepthLimit
import TextLisp.Proofs.Evaluator.Refusals

/-! Where a run is cut off. The evaluation that finds no level left was asked for by one on the last
level, as the first thing that it does, so the record of that one is the last of the log. -/
namespace TextLisp

variable {α β γ : Type}

theorem Invariant.Keeps.of_ok {I : Invariant} {post : α → Prop} {x : Run α} (hx : I.Keeps post x)
    {s s₁ : Store} {a : α} {log : List Record} (hs : I.Holds s) (h : x s = ⟨.ok a, s₁, log⟩) :
    post a ∧ I.Holds s₁ := by
  obtain ⟨hstore, hresult⟩ := hx s hs
  rw [h] at hstore hresult
  cases hresult with
  | ok ha => exact ⟨ha, hstore⟩

def uncut : Discipline where
  accepts _ := True
  admits := Procedure.IsHostFree
  allows e := ∀ limit, e ≠ .depthExceeded limit

theorem isInductive_uncut (host : Host) : uncut.invariant.IsInductive host := by
  apply Discipline.IsKept.isInductive
  apply isKept_hostFree
  · rintro e he limit rfl
    exact he.elim
  · intro fault limit he
    cases he

/-- A step that keeps to the errors other than an exhausted depth is never what is cut off. -/
theorem not_isCut_of_keeps {post : α → Prop} {x : Run α} (hx : uncut.invariant.Keeps post x)
    {s : Store} (hs : s.Within Procedure.IsHostFree) : ¬ (x s).IsCut := by
  rintro ⟨limit, hresult⟩
  have hyields := (hx s hs).2
  rw [hresult] at hyields
  cases hyields with
  | error he => exact he limit rfl

theorem not_isCut_refuse (keyword : Keyword) (fault : FormFault) (s : Store) :
    ¬ (Run.ofExcept (keyword.refuse fault) s : Outcome α).IsCut := by
  rintro ⟨limit, hresult⟩
  cases hresult

namespace Run

/-- A computation of two parts is cut off in the first one, or in the second one after the first
one is done. -/
theorem isCut_bind {x : RunOver β α} {f : α → RunOver β γ} {s : Store β}
    (h : ((x >>= f) s).IsCut) :
    ((x s).IsCut ∧ ((x >>= f) s).log = (x s).log) ∨
      ∃ a s₁ log, x s = ⟨.ok a, s₁, log⟩ ∧ (f a s₁).IsCut ∧
        ((x >>= f) s).log = log ++ (f a s₁).log := by
  obtain ⟨limit, hresult⟩ := h
  rcases hrun : x s with ⟨e | a, s₁, log⟩
  · rw [bind_of_error hrun] at hresult ⊢
    exact Or.inl ⟨⟨limit, congrArg Except.error (Except.error.inj hresult)⟩, rfl⟩
  · rw [bind_of_ok hrun] at hresult ⊢
    exact Or.inr ⟨a, s₁, log, rfl, ⟨limit, hresult⟩, rfl⟩

/-- A first part that is never cut off and neither changes nor records anything. -/
theorem isCut_bind_still {x : RunOver β α} {f : α → RunOver β γ} {s : Store β}
    {r : Except Error α} (hx : x s = ⟨r, s, []⟩) (hcut : ¬ (x s).IsCut)
    (h : ((x >>= f) s).IsCut) :
    ∃ a, x s = ⟨.ok a, s, []⟩ ∧ (f a s).IsCut ∧ ((x >>= f) s).log = (f a s).log := by
  obtain ⟨hfirst, -⟩ | ⟨a, s₁, log, hrun, hrest, hlog⟩ := isCut_bind h
  · exact absurd hfirst hcut
  · obtain ⟨-, rfl, rfl⟩ := Outcome.mk.inj (hx.symm.trans hrun)
    exact ⟨a, hrun, hrest, hlog⟩

end Run

open Run

/-- The outcome is cut off in an evaluation that is asked for, and records nothing after it. -/
def CutInside (descend : Descent) (asked : List Record → Environment → String → Store → Prop)
    (o : Outcome Value) : Prop :=
  ∃ log env text s, asked log env text s ∧ s.Within Procedure.IsHostFree ∧
    (descend env text s).IsCut ∧ o.log = log ++ (descend env text s).log

section

variable {host : Host} {descend : Descent} {limit : Nat}
  (hd : ∀ env text, (reporting limit).Obeys (Value.Within Procedure.IsHostFree) (descend env text))
  {env : Environment} {s : Store} (hs : s.Within Procedure.IsHostFree)
include hd hs

theorem within_of_descend {text : String} {value : Value} {s₁ : Store} {log : List Record}
    (h : descend env text s = ⟨.ok value, s₁, log⟩) :
    value.Within Procedure.IsHostFree ∧ s₁.Within Procedure.IsHostFree :=
  Invariant.Keeps.of_ok (I := (reporting limit).invariant) (hd env text) hs h

theorem within_of_evaluateOperands {operands : List String} {values : List Value} {s₁ : Store}
    {log : List Record} (h : evaluateOperands descend env operands s = ⟨.ok values, s₁, log⟩) :
    (∀ v ∈ values, v.Within Procedure.IsHostFree) ∧ s₁.Within Procedure.IsHostFree := by
  have htexts : ∀ expr ∈ operands, (reporting limit).invariant.text expr := fun _ _ => trivial
  have hdescends env text (_ : (reporting limit).invariant.text text) := hd env text
  exact (Invariant.keeps_evaluateOperands hdescends env htexts).of_ok hs h

/-- Operands are cut off in one of them, after those before it have been evaluated. -/
theorem exists_operand_of_isCut {operands : List String}
    (h : (evaluateOperands descend env operands s).IsCut) :
    ∃ before operand after values s₁ log, operands = before ++ operand :: after ∧
      evaluateOperands descend env before s = ⟨.ok values, s₁, log⟩ ∧
      s₁.Within Procedure.IsHostFree ∧ (descend env operand s₁).IsCut ∧
      (evaluateOperands descend env operands s).log = log ++ (descend env operand s₁).log := by
  obtain ⟨limit, hresult⟩ := h
  obtain ⟨values, log, s₁, hvalues⟩ | ⟨e, log, s₁, hfails⟩ :=
    inTurn_or_failsInTurn descend env operands s
  · rw [hvalues.evaluateOperands_eq] at hresult
    cases hresult
  · rw [hfails.evaluateOperands_eq] at hresult ⊢
    obtain rfl := Except.error.inj hresult
    obtain ⟨hbefore, hoperand, after⟩ := hfails
    have hvalues := hbefore.evaluateOperands_eq
    refine ⟨_, _, after, _, _, _, rfl, hvalues, (within_of_evaluateOperands hd hs hvalues).2, ?_, ?_⟩
    · rw [hoperand]
      exact ⟨limit, rfl⟩
    · rw [hoperand]

omit hd in
/-- Of the procedures only closures are cut off, in their body. -/
theorem exists_body_of_isCut {p : Procedure} (hp : p.IsHostFree) {args : List Value}
    (hargs : ∀ v ∈ args, v.Within Procedure.IsHostFree)
    (h : (applyProcedure host (applyClosure descend env) args p s).IsCut) :
    ∃ c names inner s₁ log, p = .closure c ∧ parameterNames c.params = .ok names ∧
      enterClosure (env.splice c.env) c.params c.body names args s = ⟨.ok inner, s₁, log⟩ ∧
      s₁.Within Procedure.IsHostFree ∧ (descend inner c.body s₁).IsCut ∧
      (applyProcedure host (applyClosure descend env) args p s).log =
        log ++ (descend inner c.body s₁).log := by
  have hI := isInductive_uncut host
  cases p with
  | primitive p =>
    have hchecked := Invariant.keeps_check hI p.arity args.length
    have happlied : uncut.invariant.Keeps uncut.invariant.value
        (ofExcept (p.operation.apply host args)) :=
      Invariant.keeps_ofExcept (hI.primitive p args (.procedure hp) hargs)
    -- A host could report any error of its own, but here none of the procedures is of that kind.
    exact absurd h (not_isCut_of_keeps (hchecked.bind fun _ _ => happlied) hs)
  | closure c =>
    have hparameters := Invariant.keeps_ofExcept (hI.closure c (.procedure hp)).2
    obtain ⟨names, hnames, hcut, hlog⟩ :=
      isCut_bind_still (ofExcept_apply _ s) (not_isCut_of_keeps hparameters hs) h
    rw [ofExcept_apply] at hnames
    have henters := Invariant.keeps_enterClosure hI (env.splice c.env) c.params c.body names hargs
    obtain ⟨hcut, -⟩ | ⟨inner, s₁, log, henter, hcut, hlog'⟩ := isCut_bind hcut
    · exact absurd hcut (not_isCut_of_keeps henters hs)
    · have hs₁ := (henters.of_ok hs henter).2
      exact ⟨c, names, inner, s₁, log, rfl, congrArg Outcome.result hnames, henter, hs₁, hcut,
        hlog.trans hlog'⟩

/-- An application is cut off in its head, in an operand or in the body, whichever comes first. -/
theorem cutInside_evaluateApplication {head : String} {operands : List String}
    (hkeyword : Keyword.ofText? head = none)
    (h : (evaluateApplication host (applyClosure descend env) descend env head operands s).IsCut) :
    CutInside descend (Asks descend env s (head :: operands))
      (evaluateApplication host (applyClosure descend env) descend env head operands s) := by
  -- The head, the operands and the body follow one another, and the run stops in the first of them
  -- that is cut off.
  obtain ⟨hcut, hlog⟩ | ⟨value, s₁, log, hvalue, hcut, hlog⟩ := isCut_bind h
  · exact ⟨[], env, head, s, .head hkeyword, hs, hcut, hlog⟩
  obtain ⟨hadmitted, hs₁⟩ := within_of_descend hd hs hvalue
  cases value with
  | procedure p =>
    obtain ⟨hcut, hlog'⟩ | ⟨args, s₂, log', hargs, hcut, hlog'⟩ := isCut_bind hcut
    · obtain ⟨before, operand, after, values, s₂, log', rfl, hbefore, hs₂, hcut, hlog''⟩ :=
        exists_operand_of_isCut hd hs₁ hcut
      refine ⟨_, env, operand, s₂, .operand hkeyword hvalue hbefore, hs₂, hcut, ?_⟩
      exact hlog.trans (by rw [List.append_assoc, ← hlog'', ← hlog']; rfl)
    · obtain ⟨hadmittedArgs, hs₂⟩ := within_of_evaluateOperands hd hs₁ hargs
      obtain ⟨c, names, inner, s₃, log'', rfl, hnames, henter, hs₃, hcut, hlog''⟩ :=
        exists_body_of_isCut hs₂ (hadmitted.of_occurs .here) hadmittedArgs hcut
      refine ⟨_, inner, c.body, s₃, .body hkeyword hvalue hargs hnames henter, hs₃, hcut, ?_⟩
      exact hlog.trans (by rw [List.append_assoc, List.append_assoc, ← hlog'', ← hlog']; rfl)
  | _ =>
    obtain ⟨limit, hresult⟩ := hcut
    cases hresult

theorem cutInside_evaluateDefine {operands : List String}
    (h : (evaluateDefine descend env operands s).IsCut) :
    CutInside descend (Asks descend env s ("define" :: operands))
      (evaluateDefine descend env operands s) := by
  have hI := isInductive_uncut fun _ _ => .ok .nil
  unfold evaluateDefine at h ⊢
  split at h
  next name expr =>
    have hname : uncut.invariant.text name := trivial
    have hrequired := Invariant.keeps_requireNew hI hname
    obtain ⟨_, hnew, hcut, hlog⟩ :=
      isCut_bind_still (requireNew_apply name s) (not_isCut_of_keeps hrequired hs) h
    obtain ⟨hcut, hlog'⟩ | ⟨value, s₁, log, hvalue, hcut, -⟩ := isCut_bind hcut
    · exact ⟨[], env, expr, s, .definition hnew, hs, hcut, hlog.trans hlog'⟩
    · obtain ⟨hadmitted, hs₁⟩ := within_of_descend hd hs hvalue
      have hbinds := Invariant.keeps_bindGlobal hI hname hadmitted
      exact absurd hcut (not_isCut_of_keeps hbinds hs₁)
  · exact absurd h (not_isCut_refuse _ _ s)

theorem cutInside_evaluateAssign {operands : List String}
    (h : (evaluateAssign descend env operands s).IsCut) :
    CutInside descend (Asks descend env s ("set!" :: operands))
      (evaluateAssign descend env operands s) := by
  have hI := isInductive_uncut fun _ _ => .ok .nil
  unfold evaluateAssign at h ⊢
  split at h
  next name expr =>
    have hname : uncut.invariant.text name := trivial
    have hlocates := Invariant.keeps_locate hI env hname
    obtain ⟨owner, hlocate, hcut, hlog⟩ :=
      isCut_bind_still (locate_apply env name s) (not_isCut_of_keeps hlocates hs) h
    obtain ⟨hcut, hlog'⟩ | ⟨value, s₁, log, hvalue, hcut, -⟩ := isCut_bind hcut
    · exact ⟨[], env, expr, s, .assignment hlocate, hs, hcut, hlog.trans hlog'⟩
    · obtain ⟨hadmitted, hs₁⟩ := within_of_descend hd hs hvalue
      have hwrites := Invariant.keeps_overwrite hI owner hname hadmitted
      exact absurd hcut (not_isCut_of_keeps hwrites hs₁)
  · exact absurd h (not_isCut_refuse _ _ s)

theorem cutInside_evaluateConditional {operands : List String}
    (h : (evaluateConditional descend env operands s).IsCut) :
    CutInside descend (Asks descend env s ("if" :: operands))
      (evaluateConditional descend env operands s) := by
  have hI := isInductive_uncut fun _ _ => .ok .nil
  unfold evaluateConditional at h ⊢
  split at h
  next test first second =>
    obtain ⟨hcut, hlog⟩ | ⟨value, s₁, log, hvalue, hcut, hlog⟩ := isCut_bind h
    · exact ⟨[], env, test, s, .test, hs, hcut, hlog⟩
    · have hs₁ := (within_of_descend hd hs hvalue).2
      exact ⟨log, env, _, s₁, .branch hvalue, hs₁, hcut, hlog⟩
  · exact absurd h (not_isCut_refuse _ _ s)

/-- A form that is cut off is so in an evaluation that it asks for. -/
theorem cutInside_evaluateSiblings {text : String} {siblings : List String}
    (h : (evaluateSiblings host descend env text siblings s).IsCut) :
    CutInside descend (Asks descend env s siblings)
      (evaluateSiblings host descend env text siblings s) := by
  have hI := isInductive_uncut host
  have htexts (operands : List String) : ∀ expr ∈ operands, uncut.invariant.text expr :=
    fun _ _ => trivial
  cases siblings with
  | nil =>
    obtain ⟨limit, hresult⟩ := h
    cases hresult
  | cons head operands =>
    rw [evaluateSiblings] at h ⊢
    cases hkeyword : Keyword.ofText? head with
    | none =>
      rw [hkeyword] at h
      exact cutInside_evaluateApplication hd hs hkeyword h
    | some keyword =>
      rw [hkeyword] at h
      obtain rfl := Keyword.eq_text_of_ofText? hkeyword
      cases keyword with
      | define => exact cutInside_evaluateDefine hd hs h
      | conditional => exact cutInside_evaluateConditional hd hs h
      | assign => exact cutInside_evaluateAssign hd hs h
      | quote =>
        exact absurd h (not_isCut_of_keeps (Invariant.keeps_evaluateQuote hI (htexts operands)) hs)
      | lambda =>
        exact absurd h
          (not_isCut_of_keeps (Invariant.keeps_evaluateLambda hI env (htexts operands)) hs)

end

/-- Where no evaluation succeeds, a form has recorded nothing when it asks for one. -/
theorem Asks.log_eq_nil {descend : Descent} {env env' : Environment} {s s' : Store}
    {siblings : List String} {log : List Record} {text : String}
    (h : Asks descend env s siblings log env' text s')
    (hfails : ∀ env text s, ∃ e, (descend env text s).result = .error e) : log = [] := by
  have hnever {env : Environment} {text : String} {s s₁ : Store} {value : Value}
      {log : List Record} (hvalue : descend env text s = ⟨.ok value, s₁, log⟩) : False := by
    obtain ⟨e, he⟩ := hfails env text s
    rw [hvalue] at he
    cases he
  cases h with
  | definition | test | assignment | head => rfl
  | branch hvalue => exact (hnever hvalue).elim
  | operand _ hvalue _ => exact (hnever hvalue).elim
  | body _ hvalue _ _ _ => exact (hnever hvalue).elim

/-- Below the limit an evaluation is cut off in a form, and there in an evaluation that the form asks
for. -/
theorem cutInside_evaluate {host : Host} {remaining depth limit : Nat}
    (hlimit : depth + (remaining + 1) = limit) {env : Environment} {text : String} {s : Store}
    (hs : s.Within Procedure.IsHostFree)
    (h : (evaluate host (remaining + 1) depth env text s).IsCut) :
    ∃ siblings body, CutInside (evaluate host remaining (depth + 1))
        (Asks (evaluate host remaining (depth + 1)) env s siblings) body ∧
      (evaluate host (remaining + 1) depth env text s).log =
        .evaluate depth (Text.trim text) :: body.log := by
  have hI := isInductive_uncut host
  have hexhausted : (reporting limit).allows (.depthExceeded limit) := by
    intro reported he
    cases he
    rfl
  have hdeeper : depth + 1 + remaining = limit := by omega
  have hd (env : Environment) (text : String) :
      (reporting limit).Obeys (Value.Within Procedure.IsHostFree)
        (evaluate host remaining (depth + 1) env text) :=
    Discipline.obeys_evaluate (isKept_reporting host limit) hdeeper hexhausted env trivial
  obtain ⟨reported, hresult⟩ := h
  rw [evaluate_succ] at hresult ⊢
  by_cases hbracketed : isBracketed (Text.trim text) = true
  · rw [if_pos hbracketed] at hresult ⊢
    dsimp only at hresult ⊢
    have hform : (evaluateForm host (evaluate host remaining (depth + 1)) env (Text.trim text)
      s).IsCut := ⟨reported, hresult⟩
    have hsplits := Invariant.keeps_ofExcept (hI.form text trivial hbracketed)
    obtain ⟨siblings, -, hcut, hlog⟩ :=
      isCut_bind_still (ofExcept_apply _ s) (not_isCut_of_keeps hsplits hs) hform
    exact ⟨siblings, _, cutInside_evaluateSiblings hd hs hcut, congrArg (_ :: ·) hlog⟩
  · rw [if_neg hbracketed] at hresult
    dsimp only at hresult
    rw [evaluateAtom_apply] at hresult
    have hatom := hI.atom env s text hs trivial (Bool.eq_false_iff.mpr hbracketed)
    have hcut := not_isCut_of_keeps (Invariant.keeps_ofExcept hatom) hs
    rw [ofExcept_apply] at hcut
    exact absurd ⟨reported, hresult⟩ hcut

/-- The log of an evaluation that is cut off ends where one begins on the last level. -/
theorem exists_last_of_isCut (host : Host) {remaining depth limit : Nat}
    (hlimit : depth + (remaining + 1) = limit) {env : Environment} {text : String} {s : Store}
    (hs : s.Within Procedure.IsHostFree)
    (h : (evaluate host (remaining + 1) depth env text s).IsCut) :
    ∃ before last, (evaluate host (remaining + 1) depth env text s).log =
      before ++ [.evaluate (limit - 1) last] := by
  -- On the levels left. What is above the last level passes on the log of what is cut off inside.
  induction remaining generalizing depth env text s with
  | zero =>
    obtain ⟨siblings, body, ⟨log, env', text', s', hasks, -, -, hbody⟩, hlog⟩ :=
      cutInside_evaluate hlimit hs h
    -- Without a level left every evaluation fails, so the form stops at the first that it asks for.
    have hnothing : log = [] := hasks.log_eq_nil fun env text s => ⟨_, rfl⟩
    have hlast : limit - 1 = depth := by omega
    refine ⟨[], Text.trim text, ?_⟩
    rw [hlog, hbody, hnothing, hlast]
    rfl
  | succ remaining ih =>
    obtain ⟨siblings, body, ⟨log, env', text', s', -, hs', hcut, hbody⟩, hlog⟩ :=
      cutInside_evaluate hlimit hs h
    have hdeeper : depth + 1 + (remaining + 1) = limit := by omega
    obtain ⟨before, last, hinside⟩ := ih hdeeper hs' hcut
    refine ⟨.evaluate depth (Text.trim text) :: (log ++ before), last, ?_⟩
    rw [hlog, hbody, hinside, List.cons_append, List.append_assoc]

/-- The depths that a line records list the tree of its evaluations in preorder: the first one is 0
and no other one is, each is at most one level below the one before it, and none reaches the limit.
When the limit cuts the line off, and the embedding program supplies no procedures, the record of an
evaluation on the last level comes last of all. -/
theorem depths_list_call_tree (host : Host) (s : Store) (line : String) {limit : Nat}
    (h : 1 ≤ limit) :
    let o := evaluateLine host limit line s
    let depths := o.log.filterMap Record.depth?
    (∃ call : CallTree, depths = call.depths 0) ∧
    (∃ inner, depths = 0 :: inner ∧ ∀ k ∈ inner, 1 ≤ k) ∧
    (depths.IsChain fun k next => next ≤ k + 1) ∧
    (∀ k ∈ depths, k < limit) ∧
    (s.Within Procedure.IsHostFree → o.IsCut →
      ∃ before last, o.log = before ++ [.evaluate (limit - 1) last]) := by
  intro o depths
  obtain ⟨remaining, rfl⟩ := Nat.exists_eq_add_of_le' h
  have hinside := listsCalls_evaluate host remaining 1
  obtain ⟨call, hheight, hdepths⟩ := exists_callTree hinside Environment.empty line s
  have hdepths : depths = call.depths 0 := hdepths
  refine ⟨⟨call, hdepths⟩, ?_, ?_, ?_, fun hs hcut => ?_⟩
  · cases call with
    | node calls =>
      refine ⟨CallTree.rowDepths 1 calls, hdepths, ?_⟩
      exact fun k hk => (CallTree.bounds_of_mem_rowDepths calls hk).1
  · rw [hdepths]
    exact CallTree.isChain_depths 0 call
  · intro k hk
    rw [hdepths] at hk
    have hbound := (CallTree.bounds_of_mem_depths call hk).2
    omega
  · have hlimit : 0 + (remaining + 1) = remaining + 1 := by omega
    exact exists_last_of_isCut host hlimit hs hcut

/-- The test of the inner conditional finds no level left, so the log ends with the evaluation of
that conditional. -/
theorem nested_conditional_cut_off :
    let host : Host := fun _ _ => .ok .nil
    let s := Store.ofGlobals (Table.ofList [("nil", .nil)])
    let o := evaluateLine host 2 "(if (if nil nil nil) #f #t)" s
    o.IsCut ∧ ∃ before last, o.log = before ++ [.evaluate 1 last] := by
  intro host s o
  have hs : s.Within Procedure.IsHostFree := by
    apply Store.within_ofGlobals
    apply Table.within_ofList
    intro binding hmem
    obtain rfl := List.mem_singleton.mp hmem
    exact .nil
  have hresult : (evaluateLine host 2 "(if (if nil nil nil) #f #t)" s).result =
      .error (.depthExceeded 2) := by cbv
  have hcut : o.IsCut := ⟨2, hresult⟩
  have hlimit : 1 ≤ 2 := by decide
  obtain ⟨-, -, -, -, hlast⟩ :=
    depths_list_call_tree host s "(if (if nil nil nil) #f #t)" hlimit
  exact ⟨hcut, hlast hs hcut⟩

end TextLisp
