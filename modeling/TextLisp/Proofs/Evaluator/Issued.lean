import TextLisp.Proofs.Evaluator.Recorded
import TextLisp.Proofs.Store.Within
import TextLisp.Session

/-! What a store has given out. A closure has an identity that was counted and a chain of frames
that were added before, and evaluation keeps it so: nothing that it stores or gives points beyond
the store. -/
namespace TextLisp

variable {α γ : Type}

/-- The identity of the closure and its frames have been given out by the store. -/
def Procedure.IsIssued (s : Store) : Procedure → Prop
  | .primitive _ => True
  | .closure c => c.identity < s.nextClosure ∧ c.env.IsValid s

abbrev Value.IsIssued (s : Store) (value : Value) : Prop :=
  value.Within (Procedure.IsIssued s)

abbrev Store.IsSound (s : Store) : Prop :=
  s.Within (Procedure.IsIssued s)

structure Store.Grows (s s' : Store) : Prop where
  size_le : s.frames.size ≤ s'.frames.size
  nextClosure_le : s.nextClosure ≤ s'.nextClosure

theorem Store.History.grows {s s' : Store} {log : List Record} (h : s.History log s') :
    s.Grows s' :=
  ⟨h.keepsNames.size_le, h.nextClosure_le⟩

namespace Store.Grows

variable {s s' : Store} (h : s.Grows s')
include h

theorem isValid {env : Environment} (henv : env.IsValid s) : env.IsValid s' :=
  henv.mono h.size_le

theorem procedure (p : Procedure) (hp : p.IsIssued s) : p.IsIssued s' := by
  cases p with
  | primitive => exact trivial
  | closure c => exact ⟨Nat.lt_of_lt_of_le hp.1 h.nextClosure_le, h.isValid hp.2⟩

theorem value {v : Value} (hv : v.IsIssued s) : v.IsIssued s' :=
  hv.mono h.procedure

theorem values {vs : List Value} (hvs : ∀ v ∈ vs, v.IsIssued s) : ∀ v ∈ vs, v.IsIssued s' :=
  fun v hmem => h.value (hvs v hmem)

end Store.Grows

/-- A value may be stored if it does not point beyond the store. -/
theorem Store.IsSound.put {s : Store} (h : s.IsSound) (owner : Owner) (name : String)
    {value : Value} (hvalue : value.IsIssued s) : (s.put owner name value).IsSound := by
  have hgrows : s.Grows (s.put owner name value) :=
    ⟨Nat.le_of_eq (size_put s owner name value).symm,
      Nat.le_of_eq (nextClosure_put s owner name value).symm⟩
  exact (Within.put h owner name hvalue).mono hgrows.procedure

theorem Store.IsSound.addFrame {s : Store} (h : s.IsSound) {table : Table Value}
    (htable : table.Within (Procedure.IsIssued s)) : (s.addFrame table).IsSound := by
  have hgrows : s.Grows (s.addFrame table) :=
    ⟨(keepsNames_addFrame s table).size_le, Nat.le_refl _⟩
  exact (Within.addFrame h htable).mono hgrows.procedure

/-- The procedures of the embedding program make no closures of their own. -/
def Host.IssuesNothing (host : Host) : Prop :=
  ∀ (s : Store) name args value, (∀ v ∈ args, Value.IsIssued s v) → host name args = .ok value →
    value.IsIssued s

/-- No primitive makes a closure, so it gives only what was given out. -/
theorem Host.IssuesNothing.apply {host : Host} (hhost : host.IssuesNothing) {s : Store}
    {operation : Operation} {args : List Value} {value : Value}
    (hargs : ∀ v ∈ args, Value.IsIssued s v) (h : operation.apply host args = .ok value) :
    value.IsIssued s := by
  cases operation with
  | builtin operation =>
    have hyields := operation.apply_yields hargs
    have happly : operation.apply args = .ok value := h
    rw [happly] at hyields
    cases hyields with
    | ok hvalue => exact hvalue
  | host name => exact hhost s name args value hargs h

namespace Run

/-- From this store on, a sound one, the computation leaves a sound store, and the condition holds
of its result there. -/
def IssuesAt (post : Store → α → Prop) (x : Run α) (s : Store) : Prop :=
  s.IsSound → (x s).store.IsSound ∧ ∀ a, (x s).result = .ok a → post (x s).store a

variable {post : Store → α → Prop} {post' : Store → γ → Prop}

theorem issuesAt_of_apply {x : Run α} {s : Store} {r : Except Error α} (h : x s = ⟨r, s, []⟩)
    (hr : ∀ a, r = .ok a → s.IsSound → post s a) : IssuesAt post x s := by
  intro hs
  rw [h]
  exact ⟨hs, fun a ha => hr a ha hs⟩

theorem issuesAt_ofExcept {r : Except Error α} {s : Store} (hr : ∀ a, r = .ok a → post s a) :
    IssuesAt post (ofExcept r) s :=
  issuesAt_of_apply (ofExcept_apply r s) fun a ha _ => hr a ha

/-- The second part begins with the store that the first one has left, and with its value. -/
theorem IssuesAt.bind {x : Run α} {f : α → Run γ} {s : Store} (hx : IssuesAt post x s)
    (hf : ∀ a s₁ log, x s = ⟨.ok a, s₁, log⟩ → post s₁ a → IssuesAt post' (f a) s₁) :
    IssuesAt post' (x >>= f) s := by
  intro hs
  obtain ⟨hsound, hresult⟩ := hx hs
  rcases hrun : x s with ⟨e | a, s₁, log⟩
  · rw [hrun] at hsound
    rw [bind_of_error hrun]
    refine ⟨hsound, ?_⟩
    intro _ h
    cases h
  · rw [hrun] at hsound hresult
    rw [bind_of_ok hrun]
    exact hf a s₁ log hrun (hresult a rfl) hsound

/-- What comes after a step that leaves the store alone. -/
theorem IssuesAt.bind_still {x : Run α} {f : α → Run γ} {s : Store} {r : Except Error α}
    (hx : x s = ⟨r, s, []⟩) (hf : ∀ a, r = .ok a → IssuesAt post' (f a) s) :
    IssuesAt post' (x >>= f) s := by
  have hstill : IssuesAt (fun _ _ => True) x s := issuesAt_of_apply hx fun _ _ _ => trivial
  apply hstill.bind
  intro a s₁ log hrun _
  obtain ⟨hr, rfl, rfl⟩ := Outcome.mk.inj (hx.symm.trans hrun)
  exact hf a hr

end Run

open Run

theorem issuesAt_evaluateAtom (env : Environment) (text : String) (s : Store) :
    IssuesAt Value.IsIssued (evaluateAtom env text) s := by
  apply issuesAt_of_apply (evaluateAtom_apply env text s)
  intro value hvalue hs
  unfold atomValue at hvalue
  split at hvalue
  · cases hvalue
  · split at hvalue
    · cases hvalue
    · split at hvalue
      next hresolve =>
        obtain rfl := Except.ok.inj hvalue
        exact hs.resolve hresolve
      · split at hvalue
        · cases hvalue
        · split at hvalue
          · obtain rfl := Except.ok.inj hvalue
            exact .number _
          · split at hvalue <;> cases hvalue

theorem issuesAt_bindGlobal (name : String) {value : Value} {s : Store}
    (hvalue : value.IsIssued s) :
    IssuesAt Value.IsIssued (bindGlobal name value) s := by
  intro hs
  rw [bindGlobal_apply]
  split
  · exact ⟨hs, fun _ h => by cases h⟩
  · split
    · exact ⟨hs, fun _ h => by cases h⟩
    · refine ⟨hs.put .globals name hvalue, ?_⟩
      rintro _ ⟨⟩
      exact .unspecified

theorem issuesAt_overwrite {owner : Owner} {name : String} {value : Value} {s : Store}
    (hbound : (s.table owner).contains name = true) (hvalue : value.IsIssued s) :
    IssuesAt Value.IsIssued (overwrite owner name value) s := by
  intro hs
  rw [overwrite_apply hbound]
  split
  · exact ⟨hs, fun _ h => by cases h⟩
  · refine ⟨hs.put owner name hvalue, ?_⟩
    rintro _ ⟨⟩
    exact .unspecified

/-- The next identity is the one that is counted now. -/
theorem issuesAt_makeClosure (params body : String) {env : Environment} {s : Store}
    (henv : env.IsValid s) : IssuesAt Value.IsIssued (makeClosure params body env) s := by
  intro hs
  rw [makeClosure_apply]
  have hgrows : s.Grows { s with nextClosure := s.nextClosure + 1 } :=
    ⟨Nat.le_refl _, Nat.le_succ _⟩
  refine ⟨(hs.nextClosure _).mono hgrows.procedure, ?_⟩
  rintro _ ⟨⟩
  exact .procedure ⟨Nat.lt_succ_self _, hgrows.isValid henv⟩

theorem issuesAt_enterClosure {scope : Environment} (params body : String) (names : List String)
    {args : List Value} {s : Store} (hscope : scope.IsValid s) (hargs : ∀ v ∈ args, v.IsIssued s) :
    IssuesAt (fun s env => env.IsValid s) (enterClosure scope params body names args) s := by
  intro hs
  have htable : (Table.ofList (names.zip args)).Within (Procedure.IsIssued s) :=
    Table.within_ofList fun binding hmem => hargs binding.2 (List.of_mem_zip hmem).2
  have hgrows : s.Grows (s.addFrame (Table.ofList (names.zip args))) :=
    ⟨(Store.keepsNames_addFrame s _).size_le, Nat.le_refl _⟩
  rw [enterClosure_apply]
  split
  · split
    · refine ⟨hs, ?_⟩
      rintro _ ⟨⟩
      exact hscope
    · refine ⟨hs.addFrame htable, ?_⟩
      rintro _ ⟨⟩ index hmem
      obtain rfl | hmem := List.mem_cons.mp hmem
      · simp [Store.addFrame]
      · exact hgrows.isValid hscope index hmem
  · exact ⟨hs, fun _ h => by cases h⟩

theorem issuesAt_evaluateQuote (operands : List String) (s : Store) :
    IssuesAt Value.IsIssued (evaluateQuote operands) s := by
  unfold evaluateQuote
  split
  · exact issuesAt_ofExcept fun _ hvalue => within_of_datum hvalue
  · exact issuesAt_ofExcept fun _ h => by cases h

theorem issuesAt_evaluateLambda {env : Environment} (operands : List String) {s : Store}
    (henv : env.IsValid s) : IssuesAt Value.IsIssued (evaluateLambda env operands) s := by
  unfold evaluateLambda
  split
  · apply IssuesAt.bind_still (ofExcept_apply _ s)
    intro _ _
    exact issuesAt_makeClosure _ _ henv
  · exact issuesAt_ofExcept fun _ h => by cases h

section

variable {descend : Descent} {env : Environment} {s : Store}
  (hd : ∀ env text s, env.IsValid s → IssuesAt Value.IsIssued (descend env text) s)
include hd

theorem issuesAt_applyClosure {c : Closure} {args : List Value} (henv : env.IsValid s)
    (hc : Procedure.IsIssued s (.closure c)) (hargs : ∀ v ∈ args, v.IsIssued s) :
    IssuesAt Value.IsIssued (applyClosure descend env c args) s := by
  have hscope : (env.splice c.env).IsValid s := by
    intro index hmem
    exact (List.mem_append.mp hmem).elim (henv index) (hc.2 index)
  apply IssuesAt.bind_still (ofExcept_apply _ s)
  intro names _
  apply (issuesAt_enterClosure c.params c.body names hscope hargs).bind
  intro inner s₁ _ _ hinner
  exact hd inner c.body s₁ hinner

theorem issuesAt_evaluateDefine (operands : List String) (henv : env.IsValid s) :
    IssuesAt Value.IsIssued (evaluateDefine descend env operands) s := by
  unfold evaluateDefine
  split
  next name expr =>
    apply IssuesAt.bind_still (requireNew_apply name s)
    intro _ _
    apply (hd env expr s henv).bind
    intro value s₁ _ _ hissued
    exact issuesAt_bindGlobal name hissued
  · exact issuesAt_ofExcept fun _ h => by cases h

variable (hr : ∀ env text s, RecordedAt (descend env text) s)
include hr

omit hd in
/-- The store that an evaluation leaves. -/
theorem grows_of_descend {text : String} {s₁ : Store} {r : Except Error Value} {log : List Record}
    (h : descend env text s = ⟨r, s₁, log⟩) : s.Grows s₁ := by
  exact ((hr env text s).history h).grows

theorem issuesAt_evaluateConditional (operands : List String) (henv : env.IsValid s) :
    IssuesAt Value.IsIssued (evaluateConditional descend env operands) s := by
  unfold evaluateConditional
  split
  next test first second =>
    apply (hd env test s henv).bind
    intro value s₁ log hvalue _
    exact hd env _ s₁ ((grows_of_descend hr hvalue).isValid henv)
  · exact issuesAt_ofExcept fun _ h => by cases h

theorem issuesAt_evaluateOperands (operands : List String) (henv : env.IsValid s) :
    IssuesAt (fun s values => ∀ v ∈ values, Value.IsIssued s v)
      (evaluateOperands descend env operands) s := by
  induction operands generalizing s with
  | nil =>
    apply issuesAt_of_apply (pure_apply [] s)
    rintro _ ⟨⟩ _ v hmem
    cases hmem
  | cons operand operands ih =>
    apply (hd env operand s henv).bind
    intro value s₁ log hvalue hissued
    apply (ih ((grows_of_descend hr hvalue).isValid henv)).bind
    intro values s₂ log' hvalues hrest
    have hhistory := (recordedAt_evaluateOperands hr env operands s₁).history hvalues
    apply issuesAt_of_apply (pure_apply (value :: values) s₂)
    rintro _ ⟨⟩ _ v hmem
    obtain rfl | hmem := List.mem_cons.mp hmem
    · exact hhistory.grows.value hissued
    · exact hrest v hmem

theorem issuesAt_evaluateApplication {host : Host} (hhost : host.IssuesNothing) (head : String)
    (operands : List String) (henv : env.IsValid s) :
    IssuesAt Value.IsIssued
      (evaluateApplication host (applyClosure descend env) descend env head operands) s := by
  apply (hd env head s henv).bind
  intro value s₁ log hvalue hissued
  have henv₁ := (grows_of_descend hr hvalue).isValid henv
  cases hissued with
  | @procedure p hp =>
    apply (issuesAt_evaluateOperands hd hr operands henv₁).bind
    intro args s₂ log' hargs hargs'
    have hgrows : s₁.Grows s₂ :=
      ((recordedAt_evaluateOperands hr env operands s₁).history hargs).grows
    cases p with
    | primitive p =>
      apply IssuesAt.bind_still (ofExcept_apply _ s₂)
      intro _ _
      exact issuesAt_ofExcept fun _ hresult => hhost.apply hargs' hresult
    | closure c =>
      exact issuesAt_applyClosure hd (hgrows.isValid henv₁) (hgrows.procedure _ hp) hargs'
  | _ => exact issuesAt_ofExcept (r := .error _) fun _ h => by cases h

theorem issuesAt_evaluateAssign (operands : List String) (henv : env.IsValid s) :
    IssuesAt Value.IsIssued (evaluateAssign descend env operands) s := by
  unfold evaluateAssign
  split
  next name expr =>
    have hlocate := locate_apply env name s
    apply IssuesAt.bind_still hlocate
    intro owner howner
    rw [howner] at hlocate
    obtain ⟨-, howner, -⟩ := locate_eq_ok hlocate
    apply (hd env expr s henv).bind
    intro value s₁ log hvalue hissued
    exact issuesAt_overwrite (contains_of_descend hr howner hvalue) hissued
  · exact issuesAt_ofExcept fun _ h => by cases h

/-- The step: sub-expressions that leave sound stores make the text around them leave one. -/
theorem issuesAt_evaluateText {host : Host} (hhost : host.IssuesNothing) (depth : Nat)
    (text : String) (henv : env.IsValid s) :
    IssuesAt Value.IsIssued (evaluateText host descend depth env text) s := by
  have hrecord : IssuesAt (fun _ _ => True) (record (.evaluate depth (Text.trim text))) s :=
    fun hs => ⟨hs, fun _ _ => trivial⟩
  apply hrecord.bind
  rintro ⟨⟩ s₁ log hrun -
  obtain ⟨-, rfl, -⟩ := Outcome.mk.inj hrun
  split
  · apply IssuesAt.bind_still (ofExcept_apply _ s)
    intro siblings _
    unfold evaluateSiblings
    split
    · exact issuesAt_ofExcept (r := .error _) fun _ h => by cases h
    · split
      · exact issuesAt_evaluateDefine hd _ henv
      · exact issuesAt_evaluateConditional hd hr _ henv
      · exact issuesAt_evaluateQuote _ s
      · exact issuesAt_evaluateLambda _ henv
      · exact issuesAt_evaluateAssign hd hr _ henv
      · exact issuesAt_evaluateApplication hd hr hhost _ _ henv
  · exact issuesAt_evaluateAtom env _ s

end

/-- Evaluation over a sound store, in a chain of frames that are there, leaves a sound store and
gives values that it has issued. -/
theorem issuesAt_evaluate {host : Host} (hhost : host.IssuesNothing) (remaining depth : Nat)
    {env : Environment} (text : String) {s : Store} (henv : env.IsValid s) :
    IssuesAt Value.IsIssued (evaluate host remaining depth env text) s := by
  -- On the levels. Stores only grow on the way, so chains and values stay valid once they are.
  induction remaining generalizing depth env text s with
  | zero => exact issuesAt_ofExcept (r := .error _) fun _ h => by cases h
  | succ remaining ih =>
    have hnext : ∀ env text s, env.IsValid s →
        IssuesAt Value.IsIssued (evaluate host remaining (depth + 1) env text) s :=
      fun _ text _ henv => ih (depth + 1) text henv
    exact issuesAt_evaluateText hnext (recordedAt_evaluate host remaining (depth + 1)) hhost depth
      text henv

/-- The store that programs start with holds no closures. -/
theorem isSound_initial : Store.initial.IsSound :=
  Store.within_ofGlobals (Table.within_initialGlobals fun _ => trivial)

/-- Stores stay sound over any lines, whether they succeed or fail. -/
theorem isSound_after {host : Host} (hhost : host.IssuesNothing) (lines : List (String × Nat))
    {s : Store} (h : s.IsSound) :
    (s.after host (lines.map fun line => .evaluate line.1 line.2)).IsSound := by
  induction lines generalizing s with
  | nil => exact h
  | cons line lines ih =>
    have henv : Environment.empty.IsValid s := fun _ hmem => absurd hmem List.not_mem_nil
    have hline := issuesAt_evaluate hhost line.2 0 line.1 henv h
    exact ih hline.1

end TextLisp
