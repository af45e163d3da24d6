import TextLisp.Proofs.Evaluator.Operations
import TextLisp.Proofs.Store.Holding
import TextLisp.Proofs.Value.Within

/-! Invariants of runs. An invariant says which texts are evaluated, which values are bound and
computed, and which errors may come up. If it survives the single steps, then it survives every
run. -/
namespace TextLisp

/-- An atom is what it is bound to, or the number that it says. -/
theorem yields_atomValue {allows : Error → Prop} {P : Value → Prop} {s : Store}
    (hs : s.Holds fun _ _ value => P value) (env : Environment) {text : String}
    (hnumber : ∀ x, P (.number x)) (hnone : allows (.noInterpretation text))
    (hsingle : Text.isAtom text = false → text ≠ "" → allows (.invalidSubform (.notSingle text)))
    (hunbound : ∀ name, name = text ∨ P (.aliasTo name) → allows (.unboundVariable name)) :
    Yields allows P (atomValue env s text) := by
  obtain ⟨hvalue, hname⟩ := hs.resolve env text
  unfold atomValue
  split
  next hempty =>
    obtain rfl := beq_iff_eq.mp hempty
    exact .error hnone
  next hempty =>
    split
    next hatom => exact .error (hsingle (by simpa using hatom) (by simpa using hempty))
    · cases hresolve : env.resolve s text with
      | ok value => exact .ok (hvalue value hresolve)
      | error name =>
        dsimp only
        split
        · exact .error (hunbound name (hname name hresolve))
        · split
          · exact .ok (hnumber _)
          · split
            · exact .error hnone
            · exact .error (hunbound text (Or.inl rfl))

theorem yields_requireDistinct {allows : Error → Prop} (before : List String) {names : List String}
    (h : ∀ name ∈ names, allows (.malformedForm "lambda" (.notAName name)) ∧
      allows (.malformedForm "lambda" (.duplicateParameter name))) :
    Yields allows (fun _ => True) (requireDistinct before names) := by
  induction names generalizing before with
  | nil => exact .ok trivial
  | cons name names ih =>
    obtain ⟨⟨hname, hduplicate⟩, hnames⟩ := List.forall_mem_cons.mp h
    unfold requireDistinct requireName
    split
    · change Yields _ _ (if before.contains name then _ else _)
      split
      · exact .error hduplicate
      · exact ih (name :: before) hnames
    · exact .error hname

/-- A list of parameters is refused as such, or for one of its siblings, unless it cannot be
split. -/
theorem yields_parameterNames {allows : Error → Prop} {text : String}
    (hunbracketed : allows (.malformedForm "lambda" (.unbracketedParameters text)))
    (hsplit : isBracketed text = true → Yields allows
      (fun names => ∀ name ∈ names, allows (.malformedForm "lambda" (.notAName name)) ∧
        allows (.malformedForm "lambda" (.duplicateParameter name))) (Text.splitForm text)) :
    Yields allows (fun names => parameterNames text = .ok names) (parameterNames text) := by
  have hnames : Yields allows (fun _ => True) (parameterNames text) := by
    unfold parameterNames
    split
    next hbracketed =>
      apply (hsplit hbracketed).bind
      intro siblings hsiblings
      apply (yields_requireDistinct [] hsiblings).bind
      intro _ _
      exact .ok trivial
    · exact .error hunbracketed
  exact hnames.eq_ok

structure Invariant where
  text : String → Prop
  value : Value → Prop
  error : Error → Prop

namespace Invariant

def Holds (I : Invariant) (s : Store) : Prop :=
  s.Holds fun _ _ value => I.value value

/-- The steps of an evaluation lead from texts and values that satisfy the conditions to others that
do, and to errors that do. -/
structure IsInductive (I : Invariant) (host : Host) : Prop where
  form : ∀ text, I.text text → isBracketed (Text.trim text) = true →
    Yields I.error (fun siblings => ∀ sibling ∈ siblings, I.text sibling)
      (Text.splitForm (Text.trim text))
  empty : ∀ text, I.text text → I.error (.noInterpretation (Text.trim text))
  atom : ∀ env s text, I.Holds s → I.text text → isBracketed (Text.trim text) = false →
    Yields I.error I.value (atomValue env s (Text.trim text))
  operandCount : ∀ (keyword : Keyword) (expected got : Nat),
    I.error (.malformedForm keyword.text (.operandCount expected got))
  notAName : ∀ (keyword : Keyword) (text : String), I.text text →
    I.error (.malformedForm keyword.text (.notAName text))
  noValue : ∀ keyword : Keyword, I.error (.malformedForm keyword.text .noValue)
  redefinition : ∀ name, I.text name → I.error (.redefinition name)
  unbound : ∀ name, I.text name → I.error (.unboundVariable name)
  unspecified : I.value .unspecified
  quoted : ∀ text, I.text text → Yields I.error I.value (datum text)
  parameters : ∀ params body, I.text params → I.text body →
    Yields I.error
      (fun _ => ∀ identity env, I.value (.procedure (.closure ⟨identity, params, body, env⟩)))
      (parameterNames params)
  notProcedure : ∀ value, I.value value →
    I.error (.typeMismatch (.notProcedure value.kind value.render))
  arityMismatch : ∀ (arity : Arity) got, ¬ arity.Accepts got → I.error (.arityMismatch arity got)
  primitive : ∀ p args, I.value (.procedure (.primitive p)) → (∀ v ∈ args, I.value v) →
    Yields I.error I.value (p.operation.apply host args)
  closure : ∀ c, I.value (.procedure (.closure c)) →
    I.text c.body ∧ Yields I.error (fun _ => True) (parameterNames c.params)

/-- From a store that satisfies the invariant the computation leads to one that does, and its result
satisfies the condition. -/
def Keeps {α : Type} (I : Invariant) (post : α → Prop) (x : Run α) : Prop :=
  ∀ s, I.Holds s → I.Holds (x s).store ∧ Yields I.error post (x s).result

variable {α γ : Type} {I : Invariant}

theorem keeps_ofExcept {post : α → Prop} {r : Except Error α} (h : Yields I.error post r) :
    I.Keeps post (Run.ofExcept r) := by
  intro s hs
  rw [Run.ofExcept_apply]
  exact ⟨hs, h⟩

theorem keeps_pure {post : α → Prop} {a : α} (h : post a) : I.Keeps post (pure a : Run α) :=
  fun _ hs => ⟨hs, .ok h⟩

theorem keeps_fail {post : α → Prop} {e : Error} (h : I.error e) : I.Keeps post (Run.fail e) :=
  fun _ hs => ⟨hs, .error h⟩

theorem keeps_record (r : Record) : I.Keeps (fun _ => True) (Run.record r) :=
  fun _ hs => ⟨hs, .ok trivial⟩

theorem keeps_update {u : Store → Except Error Store}
    (h : ∀ s, I.Holds s → Yields I.error I.Holds (u s)) :
    I.Keeps (fun _ => True) (Run.update u) := by
  intro s hs
  have hupdate := h s hs
  unfold Run.update
  generalize u s = r at hupdate ⊢
  cases hupdate with
  | ok hstore => exact ⟨hstore, .ok trivial⟩
  | error he => exact ⟨hs, .error he⟩

/-- Two computations in a row keep an invariant if both do, the second one after what the first one
gives. -/
theorem Keeps.bind {post : α → Prop} {post' : γ → Prop} {x : Run α} {f : α → Run γ}
    (hx : I.Keeps post x) (hf : ∀ a, post a → I.Keeps post' (f a)) : I.Keeps post' (x >>= f) := by
  intro s hs
  obtain ⟨hstore, hresult⟩ := hx s hs
  rcases hrun : x s with ⟨r, s₁, log⟩
  rw [hrun] at hstore hresult
  cases hresult with
  | ok ha =>
    rw [Run.bind_of_ok hrun]
    exact hf _ ha s₁ hstore
  | error he =>
    rw [Run.bind_of_error hrun]
    exact ⟨hstore, .error he⟩

theorem keeps_makeClosure {params body : String}
    (h : ∀ identity env, I.value (.procedure (.closure ⟨identity, params, body, env⟩)))
    (env : Environment) : I.Keeps I.value (makeClosure params body env) := by
  intro s hs
  rw [makeClosure_apply]
  exact ⟨hs.nextClosure _, .ok (h s.nextClosure env)⟩

/-- Operands are evaluated to values that satisfy the condition, each over the store that the one
before it has left. -/
theorem keeps_evaluateOperands {descend : Descent}
    (hd : ∀ env text, I.text text → I.Keeps I.value (descend env text)) (env : Environment)
    {operands : List String} (h : ∀ expr ∈ operands, I.text expr) :
    I.Keeps (fun values => ∀ v ∈ values, I.value v) (evaluateOperands descend env operands) := by
  induction operands with
  | nil => exact keeps_pure fun v hmem => absurd hmem List.not_mem_nil
  | cons operand operands ih =>
    apply (hd env operand (h operand List.mem_cons_self)).bind
    intro value hvalue
    apply (ih fun expr hmem => h expr (List.mem_cons_of_mem _ hmem)).bind
    intro values hvalues
    exact keeps_pure (List.forall_mem_cons.mpr ⟨hvalue, hvalues⟩)

section

variable {host : Host} (hI : I.IsInductive host)
include hI

theorem keeps_refuseCount {post : α → Prop} (keyword : Keyword) (expected got : Nat) :
    I.Keeps post (Run.ofExcept (keyword.refuse (.operandCount expected got))) :=
  keeps_ofExcept (.error (hI.operandCount keyword expected got))

theorem keeps_check (arity : Arity) (got : Nat) :
    I.Keeps (fun _ => True) (Run.ofExcept (arity.check got)) := by
  apply keeps_ofExcept
  unfold Arity.check
  split
  · exact .ok trivial
  next hrefuses => exact .error (hI.arityMismatch arity got hrefuses)

theorem keeps_requireNew {name : String} (h : I.text name) :
    I.Keeps (fun _ => True) (requireNew name) := by
  intro s hs
  rw [requireNew_apply]
  refine ⟨hs, ?_⟩
  unfold requireUnbound
  split
  · split
    · exact .error (hI.redefinition name h)
    · exact .ok trivial
  · exact .error (hI.notAName .define name h)

theorem keeps_bindGlobal {name : String} (h : I.text name) {value : Value}
    (hvalue : I.value value) : I.Keeps I.value (bindGlobal name value) := by
  intro s hs
  rw [bindGlobal_apply]
  split
  · exact ⟨hs, .error (hI.noValue .define)⟩
  · split
    · exact ⟨hs, .error (hI.redefinition name h)⟩
    · exact ⟨hs.put hvalue, .ok hI.unspecified⟩

theorem keeps_locate (env : Environment) {name : String} (h : I.text name) :
    I.Keeps (fun _ => True) (locate env name) := by
  intro s hs
  rw [locate_apply]
  refine ⟨hs, ?_⟩
  split
  · split
    · exact .ok trivial
    · exact .error (hI.unbound name h)
  · exact .error (hI.notAName .assign name h)

theorem keeps_overwrite (owner : Owner) {name : String} (h : I.text name) {value : Value}
    (hvalue : I.value value) : I.Keeps I.value (overwrite owner name value) := by
  have hbindable : Yields I.error (fun _ => True) (requireBindable .assign value) := by
    unfold requireBindable
    split
    · exact .error (hI.noValue .assign)
    · exact .ok trivial
  have hupdate : I.Keeps (fun _ => True) (Run.update fun s => s.assign owner name value) := by
    -- Nothing is known of the owner here, so the write itself may be refused.
    apply keeps_update
    intro s hs
    have hput : I.Holds (s.put owner name value) := hs.put hvalue
    cases owner with
    | frame index => exact .ok hput
    | globals =>
      rw [Store.assign_globals_eq]
      split
      · exact .ok hput
      · exact .error (hI.unbound name h)
  apply (keeps_ofExcept hbindable).bind
  intro _ _
  apply (keeps_record (.assign name value.render)).bind
  intro _ _
  apply hupdate.bind
  intro _ _
  exact keeps_pure hI.unspecified

theorem keeps_enterClosure (scope : Environment) (params body : String) (names : List String)
    {args : List Value} (h : ∀ v ∈ args, I.value v) :
    I.Keeps (fun _ => True) (enterClosure scope params body names args) := by
  intro s hs
  rw [enterClosure_apply]
  split
  · split
    · exact ⟨hs, .ok trivial⟩
    · refine ⟨hs.addFrame ?_, .ok trivial⟩
      exact fun index binding hmem => h binding.2 (List.of_mem_zip hmem).2
  next hlength => exact ⟨hs, .error (hI.arityMismatch _ _ hlength)⟩

theorem keeps_evaluateQuote {operands : List String} (h : ∀ expr ∈ operands, I.text expr) :
    I.Keeps I.value (evaluateQuote operands) := by
  unfold evaluateQuote
  split
  next expr => exact keeps_ofExcept (hI.quoted expr (h expr List.mem_cons_self))
  · exact keeps_refuseCount hI _ _ _

theorem keeps_evaluateLambda (env : Environment) {operands : List String}
    (h : ∀ expr ∈ operands, I.text expr) : I.Keeps I.value (evaluateLambda env operands) := by
  unfold evaluateLambda
  split
  next params body =>
    have hparams := h params List.mem_cons_self
    have hbody := h body (List.mem_cons_of_mem _ List.mem_cons_self)
    apply (keeps_ofExcept (hI.parameters params body hparams hbody)).bind
    intro _ hclosure
    exact keeps_makeClosure hclosure env
  · exact keeps_refuseCount hI _ _ _

section

variable {descend : Descent}
  (hd : ∀ env text, I.text text → I.Keeps I.value (descend env text))
include hd

theorem keeps_evaluateDefine (env : Environment) {operands : List String}
    (h : ∀ expr ∈ operands, I.text expr) :
    I.Keeps I.value (evaluateDefine descend env operands) := by
  unfold evaluateDefine
  split
  next name expr =>
    have hname : I.text name := h name List.mem_cons_self
    have hexpr : I.text expr := h expr (List.mem_cons_of_mem _ List.mem_cons_self)
    apply (keeps_requireNew hI hname).bind
    intro _ _
    apply (hd env expr hexpr).bind
    intro value hvalue
    exact keeps_bindGlobal hI hname hvalue
  · exact keeps_refuseCount hI _ _ _

theorem keeps_evaluateAssign (env : Environment) {operands : List String}
    (h : ∀ expr ∈ operands, I.text expr) :
    I.Keeps I.value (evaluateAssign descend env operands) := by
  unfold evaluateAssign
  split
  next name expr =>
    have hname : I.text name := h name List.mem_cons_self
    have hexpr : I.text expr := h expr (List.mem_cons_of_mem _ List.mem_cons_self)
    apply (keeps_locate hI env hname).bind
    intro owner _
    apply (hd env expr hexpr).bind
    intro value hvalue
    exact keeps_overwrite hI owner hname hvalue
  · exact keeps_refuseCount hI _ _ _

theorem keeps_evaluateConditional (env : Environment) {operands : List String}
    (h : ∀ expr ∈ operands, I.text expr) :
    I.Keeps I.value (evaluateConditional descend env operands) := by
  unfold evaluateConditional
  split
  next test first second =>
    have htest : I.text test := h test (by simp)
    have hfirst : I.text first := h first (by simp)
    have hsecond : I.text second := h second (by simp)
    apply (hd env test htest).bind
    intro value _
    apply hd
    split
    · exact hfirst
    · exact hsecond
  · exact keeps_refuseCount hI _ _ _

/-- The parameters and the body of a closure are known by the condition on its value alone. -/
theorem keeps_applyClosure (env : Environment) {c : Closure}
    (hc : I.value (.procedure (.closure c))) {args : List Value} (h : ∀ v ∈ args, I.value v) :
    I.Keeps I.value (applyClosure descend env c args) := by
  -- The closure was made by an earlier call or line; all that is known of its text is what the
  -- invariant keeps of it.
  obtain ⟨hbody, hparams⟩ := hI.closure c hc
  apply (keeps_ofExcept hparams).bind
  intro names _
  apply (keeps_enterClosure hI _ _ _ names h).bind
  intro inner _
  exact hd inner c.body hbody

theorem keeps_evaluateApplication (env : Environment) {head : String} {operands : List String}
    (hhead : I.text head) (h : ∀ expr ∈ operands, I.text expr) :
    I.Keeps I.value
      (evaluateApplication host (applyClosure descend env) descend env head operands) := by
  apply (hd env head hhead).bind
  intro value hvalue
  cases value with
  | procedure p =>
    apply (keeps_evaluateOperands hd env h).bind
    intro args hargs
    cases p with
    | primitive p =>
      apply (keeps_check hI p.arity args.length).bind
      intro _ _
      exact keeps_ofExcept (hI.primitive p args hvalue hargs)
    | closure c => exact keeps_applyClosure hI hd env hvalue hargs
  | _ => exact keeps_fail (hI.notProcedure _ hvalue)

theorem keeps_evaluateForm (env : Environment) {text : String} (htext : I.text text)
    (hbracketed : isBracketed (Text.trim text) = true) :
    I.Keeps I.value (evaluateForm host descend env (Text.trim text)) := by
  apply (keeps_ofExcept (hI.form text htext hbracketed)).bind
  intro siblings hsiblings
  unfold evaluateSiblings
  split
  · exact keeps_fail (hI.empty text htext)
  next head operands =>
    have hhead := hsiblings head List.mem_cons_self
    have h : ∀ expr ∈ operands, I.text expr :=
      fun expr hmem => hsiblings expr (List.mem_cons_of_mem _ hmem)
    split
    · exact keeps_evaluateDefine hI hd env h
    · exact keeps_evaluateConditional hI hd env h
    · exact keeps_evaluateQuote hI h
    · exact keeps_evaluateLambda hI env h
    · exact keeps_evaluateAssign hI hd env h
    · exact keeps_evaluateApplication hI hd env hhead h

/-- The step: if the sub-expressions keep the invariant so does the text around them. -/
theorem keeps_evaluateText (depth : Nat) (env : Environment) {text : String}
    (htext : I.text text) : I.Keeps I.value (evaluateText host descend depth env text) := by
  apply (keeps_record _).bind
  intro _ _
  split
  next hbracketed => exact keeps_evaluateForm hI hd env htext hbracketed
  next hbracketed =>
    intro s hs
    rw [evaluateAtom_apply]
    exact ⟨hs, hI.atom env s text hs htext (by simpa using hbracketed)⟩

end

/-- Runs keep the invariant, whatever they are a part of. -/
theorem keeps_evaluate {remaining depth limit : Nat} (hlimit : depth + remaining = limit)
    (hexhausted : I.error (.depthExceeded limit)) (env : Environment) {text : String}
    (htext : I.text text) : I.Keeps I.value (evaluate host remaining depth env text) := by
  -- The depth and the levels that are left add up to the limit all the way down, so the limit is
  -- what running out of levels reports.
  induction remaining generalizing depth env text with
  | zero =>
    have hdepth : depth = limit := by omega
    rw [hdepth]
    exact keeps_fail hexhausted
  | succ remaining ih =>
    have hnext : depth + 1 + remaining = limit := by omega
    apply keeps_evaluateText hI (ih hnext)
    exact htext

end

end Invariant

end TextLisp
