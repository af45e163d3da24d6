import TextLisp.Proofs.Evaluator.Nested
import TextLisp.Proofs.Value.Within

/-! Two runs of the same text that go side by side. What in one run stands for what in the other is
left open. It is enough that the steps which look into the store, or write to it, keep to it. -/
namespace TextLisp

variable {α α' β γ δ δ' ε ε' : Type}

structure Coupling (β γ : Type) where
  procedure : Procedure β → Procedure γ → Prop
  /-- The names that aliases may stand for. -/
  target : String → Prop
  chain : Environment → Environment → Prop
  owner : Owner → Owner → Prop
  entry : Record → Record → Prop
  store : Store β → Store γ → Prop

namespace Coupling

abbrev value (C : Coupling β γ) : Value β → Value γ → Prop :=
  Value.AlikeWhere C.procedure C.target

structure Ends (C : Coupling β γ) (P : α → α' → Prop) (o : Outcome α β) (o' : Outcome α' γ) :
    Prop where
  result : Agree (fun _ => True) P o.result o'.result
  store : C.store o.store o'.store
  log : List.Forall₂ C.entry o.log o'.log

/-- From coupled stores on, the two computations go side by side. -/
def Couples (C : Coupling β γ) (P : α → α' → Prop) (x : RunOver β α) (y : RunOver γ α') : Prop :=
  ∀ s t, C.store s t → C.Ends P (x s) (y t)

/-- Where records are coupled only to themselves, the logs are the same. -/
theorem log_eq_of_forall₂ {entry : Record → Record → Prop} (hentry : ∀ r r', entry r r' → r' = r)
    {log log' : List Record} (h : List.Forall₂ entry log log') : log' = log := by
  have hsame : List.Forall₂ Eq log log' := h.imp fun r r' hr => (hentry r r' hr).symm
  rw [List.forall₂_eq_eq_eq] at hsame
  exact hsame.symm

open Run

variable {C : Coupling β γ} {P : α → α' → Prop} {Q : δ → δ' → Prop}

theorem couples_ofExcept {r : Except Error α} {r' : Except Error α'}
    (h : Agree (fun _ => True) P r r') : C.Couples P (ofExcept r) (ofExcept r') := by
  intro s t hst
  rw [ofExcept_apply, ofExcept_apply]
  exact ⟨h, hst, .nil⟩

theorem couples_pure {a : α} {a' : α'} (h : P a a') : C.Couples P (pure a) (pure a') :=
  fun _ _ hst => ⟨.ok h, hst, .nil⟩

theorem couples_fail {e e' : Error} (h : e = e') : C.Couples P (fail e) (fail e') := by
  subst h
  exact fun _ _ hst => ⟨.error trivial, hst, .nil⟩

theorem couples_record {r r' : Record} (h : C.entry r r') :
    C.Couples Eq (record r) (record r') :=
  fun _ _ hst => ⟨.ok rfl, hst, .cons h .nil⟩

theorem couples_update {u : Store β → Except Error (Store β)}
    {u' : Store γ → Except Error (Store γ)}
    (h : ∀ s t, C.store s t → Agree (fun _ => True) C.store (u s) (u' t)) :
    C.Couples Eq (update u) (update u') := by
  intro s t hst
  have hupdate := h s t hst
  unfold update
  generalize u s = r at hupdate ⊢
  generalize u' t = r' at hupdate ⊢
  cases hupdate with
  | ok hstore => exact ⟨.ok rfl, hstore, .nil⟩
  | error _ => exact ⟨.error trivial, hst, .nil⟩

theorem Couples.mono {P' : α → α' → Prop} {x : RunOver β α} {y : RunOver γ α'}
    (h : C.Couples P x y) (hP : ∀ a a', P a a' → P' a a') : C.Couples P' x y := by
  intro s t hst
  obtain ⟨hresult, hstore, hlog⟩ := h s t hst
  exact ⟨hresult.mono (fun _ h => h) hP, hstore, hlog⟩

/-- Two computations in a row go side by side with two others if the parts do. -/
theorem Couples.bind {x : RunOver β α} {y : RunOver γ α'} {f : α → RunOver β δ}
    {g : α' → RunOver γ δ'} (h : C.Couples P x y)
    (hfg : ∀ a a', P a a' → C.Couples Q (f a) (g a')) :
    C.Couples Q (x >>= f) (y >>= g) := by
  intro s t hst
  obtain ⟨hresult, hstore, hlog⟩ := h s t hst
  rcases hx : x s with ⟨r, s₁, log⟩
  rcases hy : y t with ⟨r', t₁, log'⟩
  rw [hx, hy] at hresult hstore hlog
  cases hresult with
  | ok ha =>
    obtain ⟨hresult', hstore', hlog'⟩ := hfg _ _ ha s₁ t₁ hstore
    rw [bind_of_ok hx, bind_of_ok hy]
    exact ⟨hresult', hstore', List.rel_append hlog hlog'⟩
  | error _ =>
    rw [bind_of_error hx, bind_of_error hy]
    exact ⟨.error trivial, hstore, hlog⟩

theorem Couples.bind_eq {x : RunOver β α} {y : RunOver γ α} {f : α → RunOver β δ}
    {g : α → RunOver γ δ'} (h : C.Couples Eq x y) (hfg : ∀ a, C.Couples Q (f a) (g a)) :
    C.Couples Q (x >>= f) (y >>= g) := by
  apply h.bind
  intro a a' ha
  subst ha
  exact hfg a

theorem couples_same (r : Except Error α) : C.Couples Eq (ofExcept r) (ofExcept r) :=
  couples_ofExcept (agree_refl r)

theorem couples_refuseCount (keyword : Keyword) (expected : Nat) {got got' : Nat}
    (h : got = got') :
    C.Couples P (ofExcept (keyword.refuse (.operandCount expected got)))
      (ofExcept (keyword.refuse (.operandCount expected got'))) := by
  subst h
  exact couples_ofExcept (.error trivial)

/-- Only the chain and the stores can tell two evaluations of an atom apart. -/
theorem couples_evaluateAtom {env env' : Environment} {text : String}
    (h : ∀ s t, Text.isAtom text = true → C.store s t →
      Agree (fun _ => True) C.value (env.resolve s text) (env'.resolve t text)) :
    C.Couples C.value (evaluateAtom env text) (evaluateAtom env' text) := by
  intro s t hst
  rw [evaluateAtom_apply, evaluateAtom_apply]
  refine ⟨?_, hst, .nil⟩
  unfold atomValue
  split
  · exact .error trivial
  · split
    · exact .error trivial
    next hatom =>
      rw [Bool.not_eq_true, Bool.not_eq_false'] at hatom
      have hresolve := h s t hatom hst
      generalize env.resolve s text = r at hresolve ⊢
      generalize env'.resolve t text = r' at hresolve ⊢
      cases hresolve with
      | ok hvalue => exact .ok hvalue
      | error _ =>
        -- From here on only the text is looked at, and it is the same.
        dsimp only
        split
        · exact .error trivial
        · split
          · exact .ok (.number _)
          · split
            · exact .error trivial
            · exact .error trivial

/-- The stores matter only for a name. -/
theorem couples_requireNew {name : String}
    (h : ∀ s t, isName name = true → C.store s t →
      s.globals.contains name = t.globals.contains name) :
    C.Couples (fun _ _ => isName name = true) (requireNew name) (requireNew name) := by
  intro s t hst
  rw [requireNew_apply, requireNew_apply]
  refine ⟨?_, hst, .nil⟩
  split
  next hname =>
    unfold requireUnbound
    rw [h s t hname hst]
    split
    · exact .error trivial
    · exact .ok hname
  · exact .error trivial

theorem couples_locate {env env' : Environment} {name : String}
    (h : ∀ s t, isName name = true → C.store s t →
      Option.Rel C.owner (env.owner? s name) (env'.owner? t name)) :
    C.Couples (fun owner owner' => isName name = true ∧ C.owner owner owner') (locate env name)
      (locate env' name) := by
  intro s t hst
  rw [locate_apply, locate_apply]
  refine ⟨?_, hst, .nil⟩
  split
  next hname =>
    have howner := h s t hname hst
    generalize env.owner? s name = found at howner ⊢
    generalize env'.owner? t name = found' at howner ⊢
    cases howner with
    | some howner => exact .ok ⟨hname, howner⟩
    | none => exact .error trivial
  · exact .error trivial

theorem couples_enterClosure {scope scope' : Environment} (hscope : C.chain scope scope')
    {params body : String} {names : List String} {args : List (Value β)} {args' : List (Value γ)}
    (hargs : List.Forall₂ C.value args args')
    (hentry : C.entry (.apply params args.length body) (.apply params args.length body))
    (hextend : C.Couples C.chain (extend scope (names.zip args))
      (extend scope' (names.zip args'))) :
    C.Couples C.chain (enterClosure scope params body names args)
      (enterClosure scope' params body names args') := by
  unfold enterClosure bindParameters
  rw [← hargs.length_eq]
  apply (couples_same _).bind_eq
  intro _
  apply (couples_record hentry).bind_eq
  intro _
  split
  · exact couples_pure hscope
  · exact hextend

section

variable (hR : Procedure.Indiscernible C.procedure)
include hR

/-- Binding forms announce coupled values in the same words. -/
theorem couples_write {u : Store β → Except Error (Store β)}
    {u' : Store γ → Except Error (Store γ)} (keyword : Keyword) {announce : String → Record}
    (hentry : ∀ shown, C.entry (announce shown) (announce shown))
    {value : Value β} {value' : Value γ} (hvalue : C.value value value')
    (hu : ∀ s t, C.store s t → Agree (fun _ => True) C.store (u s) (u' t)) :
    C.Couples C.value
      (do
        ofExcept (requireBindable keyword value)
        record (announce value.render)
        update u
        return .unspecified)
      (do
        ofExcept (requireBindable keyword value')
        record (announce value'.render)
        update u'
        return .unspecified) := by
  have hbindable : requireBindable keyword value = requireBindable keyword value' := by
    unfold requireBindable
    rw [hvalue.isUnspecified]
  rw [hbindable, hvalue.render hR]
  apply (couples_same _).bind_eq
  intro _
  apply (couples_record (hentry _)).bind_eq
  intro _
  apply (couples_update hu).bind_eq
  intro _
  exact couples_pure .unspecified

end

/-- Procedures are coupled, so both are the same primitive, or both are closures. -/
theorem couples_applyProcedure (hR : Procedure.Indiscernible C.procedure) {host : Host β}
    {host' : Host γ}
    (hprimitive : ∀ p args args', C.procedure (.primitive p) (.primitive p) →
      List.Forall₂ C.value args args' →
        Agree (fun _ => True) C.value (p.operation.apply host args) (p.operation.apply host' args'))
    {call : Closure β → List (Value β) → RunOver β (Value β)}
    {call' : Closure γ → List (Value γ) → RunOver γ (Value γ)}
    (hcall : ∀ c c' args args', C.procedure (.closure c) (.closure c') →
      List.Forall₂ C.value args args' → C.Couples C.value (call c args) (call' c' args'))
    {p : Procedure β} {q : Procedure γ} (hpq : C.procedure p q) {args : List (Value β)}
    {args' : List (Value γ)} (hargs : List.Forall₂ C.value args args') :
    C.Couples C.value (applyProcedure host call args p) (applyProcedure host' call' args' q) := by
  cases p with
  | primitive p =>
    obtain rfl := hR.primitive hpq
    unfold applyProcedure
    rw [hargs.length_eq]
    apply (couples_same _).bind_eq
    intro _
    exact couples_ofExcept (hprimitive p args args' hpq hargs)
  | closure c =>
    obtain ⟨c', rfl⟩ := hR.closure hpq
    exact hcall c c' args args' hpq hargs

section

variable {descend : Descent ε β} {descend' : Descent ε' γ} {env env' : Environment}
  {same : ε → ε' → Prop}
  (hd : ∀ expr expr', same expr expr' → C.Couples C.value (descend env expr) (descend' env' expr'))
include hd

theorem couples_evaluateConditional {operands : List ε} {operands' : List ε'}
    (h : List.Forall₂ same operands operands') :
    C.Couples C.value (evaluateConditional descend env operands)
      (evaluateConditional descend' env' operands') := by
  have hlength := h.length_eq
  rcases h with _ | ⟨htest, _ | ⟨hfirst, _ | ⟨hsecond, _ | _⟩⟩⟩
  case cons.cons.cons.nil =>
    apply (hd _ _ htest).bind
    intro value value' hvalue
    rw [hvalue.isTrue]
    split
    · exact hd _ _ hfirst
    · exact hd _ _ hsecond
  all_goals exact couples_refuseCount .conditional 3 hlength

theorem couples_evaluateOperands {operands : List ε} {operands' : List ε'}
    (h : List.Forall₂ same operands operands') :
    C.Couples (List.Forall₂ C.value) (evaluateOperands descend env operands)
      (evaluateOperands descend' env' operands') := by
  induction h with
  | nil => exact couples_pure .nil
  | cons hhead _ ih =>
    apply (hd _ _ hhead).bind
    intro value value' hvalue
    apply ih.bind
    intro values values' hvalues
    exact couples_pure (.cons hvalue hvalues)

/-- What coupled heads stand for is applied on both sides, or refused on both. -/
theorem couples_applyHead (hR : Procedure.Indiscernible C.procedure) {host : Host β}
    {host' : Host γ}
    (hprimitive : ∀ p args args', C.procedure (.primitive p) (.primitive p) →
      List.Forall₂ C.value args args' →
        Agree (fun _ => True) C.value (p.operation.apply host args) (p.operation.apply host' args'))
    {call : Closure β → List (Value β) → RunOver β (Value β)}
    {call' : Closure γ → List (Value γ) → RunOver γ (Value γ)}
    (hcall : ∀ c c' args args', C.procedure (.closure c) (.closure c') →
      List.Forall₂ C.value args args' → C.Couples C.value (call c args) (call' c' args'))
    {value : Value β} {value' : Value γ} (hvalue : C.value value value') {operands : List ε}
    {operands' : List ε'} (h : List.Forall₂ same operands operands') :
    C.Couples C.value (applyHead host call descend env operands value)
      (applyHead host' call' descend' env' operands' value') := by
  have hkind := hvalue.kind
  have hrender := hvalue.render hR
  cases hvalue with
  | @procedure p q hpq =>
    apply (couples_evaluateOperands hd h).bind
    intro args args' hargs
    exact couples_applyProcedure hR hprimitive hcall hpq hargs
  | _ =>
    apply couples_fail
    rw [hkind, hrender]

/-- An application only compares how its parts are evaluated and how procedures are applied. -/
theorem couples_evaluateApplication (hR : Procedure.Indiscernible C.procedure) {host : Host β}
    {host' : Host γ}
    (hprimitive : ∀ p args args', C.procedure (.primitive p) (.primitive p) →
      List.Forall₂ C.value args args' →
        Agree (fun _ => True) C.value (p.operation.apply host args) (p.operation.apply host' args'))
    {call : Closure β → List (Value β) → RunOver β (Value β)}
    {call' : Closure γ → List (Value γ) → RunOver γ (Value γ)}
    (hcall : ∀ c c' args args', C.procedure (.closure c) (.closure c') →
      List.Forall₂ C.value args args' → C.Couples C.value (call c args) (call' c' args'))
    {head : ε} {head' : ε'} (hhead : same head head') {operands : List ε} {operands' : List ε'}
    (h : List.Forall₂ same operands operands') :
    C.Couples C.value (evaluateApplication host call descend env head operands)
      (evaluateApplication host' call' descend' env' head' operands') := by
  apply (hd head head' hhead).bind
  intro value value' hvalue
  exact couples_applyHead hd hR hprimitive hcall hvalue h

end

/-- What keeps runs of accepted texts side by side: what a text is taken apart into is accepted, and
the steps that look into the store or write to it are coupled. Only atoms are looked for, and
binding forms matter only if their keywords are accepted. -/
structure IsKept (C : Coupling String String) (accepts : String → Prop) (host : Host) : Prop where
  indiscernible : Procedure.Indiscernible C.procedure
  trimmed : ∀ text, accepts text → accepts (Text.trim text)
  sibling : ∀ text siblings, accepts text → Text.splitForm text = .ok siblings →
    ∀ sibling ∈ siblings, accepts sibling
  closure : ∀ c c', C.procedure (.closure c) (.closure c') →
    c'.params = c.params ∧ c'.body = c.body ∧ accepts c.body ∧
      ∀ env env', C.chain env env' → C.chain (env.splice c.env) (env'.splice c'.env)
  primitive : ∀ p args args', C.procedure (.primitive p) (.primitive p) →
    List.Forall₂ C.value args args' →
      Agree (fun _ => True) C.value (p.operation.apply host args) (p.operation.apply host args')
  evaluate : ∀ depth text, C.entry (.evaluate depth text) (.evaluate depth text)
  apply : ∀ params count body, C.entry (.apply params count body) (.apply params count body)
  make : ∀ params body env env', accepts params → accepts body → C.chain env env' →
    C.Couples C.value (makeClosure params body env) (makeClosure params body env')
  extend : ∀ (names : List String) scope scope' args args', C.chain scope scope' →
    List.Forall₂ C.value args args' →
      C.Couples C.chain (extend scope (names.zip args)) (extend scope' (names.zip args'))
  resolve : ∀ name env env' s t, Text.isAtom name = true → accepts name → C.chain env env' →
    C.store s t → Agree (fun _ => True) C.value (env.resolve s name) (env'.resolve t name)
  announceDefine : accepts Keyword.define.text → ∀ name shown,
    C.entry (.define name shown) (.define name shown)
  global : accepts Keyword.define.text → ∀ name s t, Text.isAtom name = true → accepts name →
    C.store s t → s.globals.contains name = t.globals.contains name
  define : accepts Keyword.define.text → ∀ name value value' s t, Text.isAtom name = true →
    accepts name → C.value value value' → C.store s t →
      Agree (fun _ => True) C.store (s.define name value) (t.define name value')
  announceAssign : accepts Keyword.assign.text → ∀ name shown,
    C.entry (.assign name shown) (.assign name shown)
  owner : accepts Keyword.assign.text → ∀ name env env' s t, Text.isAtom name = true →
    accepts name → C.chain env env' → C.store s t →
      Option.Rel C.owner (env.owner? s name) (env'.owner? t name)
  assign : accepts Keyword.assign.text → ∀ name owner owner' value value' s t,
    Text.isAtom name = true → accepts name → C.owner owner owner' → C.value value value' →
      C.store s t →
        Agree (fun _ => True) C.store (s.assign owner name value) (t.assign owner' name value')

section

variable {C : Coupling String String} {accepts : String → Prop} {host : Host}
  (hC : C.IsKept accepts host)

theorem couples_evaluateQuote (operands : List String) :
    C.Couples C.value (evaluateQuote operands) (evaluateQuote operands) := by
  unfold evaluateQuote
  split
  next expr =>
    apply couples_ofExcept
    cases hdatum : datum expr with
    | error e => exact .error trivial
    | ok value => exact .ok (alike_of_datum hdatum)
  · exact couples_refuseCount .quote 1 rfl

include hC

theorem couples_evaluateLambda {env env' : Environment} (henv : C.chain env env')
    {operands : List String} (h : ∀ expr ∈ operands, accepts expr) :
    C.Couples C.value (evaluateLambda env operands) (evaluateLambda env' operands) := by
  unfold evaluateLambda
  split
  next params body =>
    have hparams : accepts params := h params (by simp)
    have hbody : accepts body := h body (by simp)
    apply (couples_same _).bind_eq
    intro _
    exact hC.make params body env env' hparams hbody henv
  · exact couples_refuseCount .lambda 2 rfl

variable {descend descend' : Descent}
  (hd : ∀ env env' text, C.chain env env' → accepts text →
    C.Couples C.value (descend env text) (descend' env' text))
include hd

/-- Of the two chains that a body is evaluated in, it matters only what they are together. -/
theorem couples_applyClosure_of_scope {env env' : Environment} {c c' : Closure}
    (hparams : c'.params = c.params) (hbody : c'.body = c.body) (haccepts : accepts c.body)
    (hscope : C.chain (env.splice c.env) (env'.splice c'.env)) {args args' : List Value}
    (hargs : List.Forall₂ C.value args args') :
    C.Couples C.value (applyClosure descend env c args) (applyClosure descend' env' c' args') := by
  unfold applyClosure
  rw [hparams, hbody]
  apply (couples_same _).bind_eq
  intro names
  apply (couples_enterClosure hscope hargs (hC.apply _ _ _)
    (hC.extend names _ _ args args' hscope hargs)).bind
  intro inner inner' hinner
  exact hd inner inner' c.body hinner haccepts

/-- Closures that stand for each other are entered with arguments that do, and have one body. -/
theorem couples_applyClosure {env env' : Environment} (henv : C.chain env env') {c c' : Closure}
    (hc : C.procedure (.closure c) (.closure c')) {args args' : List Value}
    (hargs : List.Forall₂ C.value args args') :
    C.Couples C.value (applyClosure descend env c args) (applyClosure descend' env' c' args') := by
  obtain ⟨hparams, hbody, haccepts, hsplice⟩ := hC.closure c c' hc
  exact couples_applyClosure_of_scope hC hd hparams hbody haccepts (hsplice env env' henv) hargs

theorem couples_evaluateDefine (hdefine : accepts Keyword.define.text) {env env' : Environment}
    (henv : C.chain env env') {operands : List String} (h : ∀ expr ∈ operands, accepts expr) :
    C.Couples C.value (evaluateDefine descend env operands)
      (evaluateDefine descend' env' operands) := by
  unfold evaluateDefine
  split
  next name expr =>
    have hname : accepts name := h name (by simp)
    have hexpr : accepts expr := h expr (by simp)
    apply (couples_requireNew fun s t hisName =>
      hC.global hdefine name s t (isName_iff.mp hisName).1 hname).bind
    intro _ _ hisName
    have hatom := (isName_iff.mp hisName).1
    apply (hd env env' expr henv hexpr).bind
    intro value value' hvalue
    exact couples_write hC.indiscernible .define (hC.announceDefine hdefine name) hvalue
      fun s t => hC.define hdefine name value value' s t hatom hname hvalue
  · exact couples_refuseCount .define 2 rfl

theorem couples_evaluateAssign (hassign : accepts Keyword.assign.text) {env env' : Environment}
    (henv : C.chain env env') {operands : List String} (h : ∀ expr ∈ operands, accepts expr) :
    C.Couples C.value (evaluateAssign descend env operands)
      (evaluateAssign descend' env' operands) := by
  unfold evaluateAssign
  split
  next name expr =>
    have hname : accepts name := h name (by simp)
    have hexpr : accepts expr := h expr (by simp)
    apply (couples_locate fun s t hisName =>
      hC.owner hassign name env env' s t (isName_iff.mp hisName).1 hname henv).bind
    rintro owner owner' ⟨hisName, howner⟩
    have hatom := (isName_iff.mp hisName).1
    apply (hd env env' expr henv hexpr).bind
    intro value value' hvalue
    exact couples_write hC.indiscernible .assign (hC.announceAssign hassign name) hvalue
      fun s t => hC.assign hassign name owner owner' value value' s t hatom hname howner hvalue
  · exact couples_refuseCount .assign 2 rfl

/-- A form goes side by side with itself in chains that are coupled, whatever kind of form it is. -/
theorem couples_evaluateSiblings {env env' : Environment} (henv : C.chain env env')
    (text : String) {siblings : List String} (h : ∀ sibling ∈ siblings, accepts sibling) :
    C.Couples C.value (evaluateSiblings host descend env text siblings)
      (evaluateSiblings host descend' env' text siblings) := by
  unfold evaluateSiblings
  split
  · exact couples_fail rfl
  next head operands =>
    have hhead := h head List.mem_cons_self
    have hoperands : ∀ expr ∈ operands, accepts expr :=
      fun expr hmem => h expr (List.mem_cons_of_mem head hmem)
    have hsame : List.Forall₂ (fun expr expr' => expr = expr' ∧ accepts expr) operands operands :=
      List.forall₂_same.mpr fun expr hmem => ⟨rfl, hoperands expr hmem⟩
    have hdescend : ∀ expr expr', expr = expr' ∧ accepts expr →
        C.Couples C.value (descend env expr) (descend' env' expr') := by
      rintro expr _ ⟨rfl, hexpr⟩
      exact hd env env' expr henv hexpr
    -- The head of a binding form is its keyword, which is accepted as a part of the text.
    split
    next hkeyword =>
      rw [Keyword.eq_text_of_ofText? hkeyword] at hhead
      exact couples_evaluateDefine hC hd hhead henv hoperands
    · exact couples_evaluateConditional hdescend hsame
    · exact couples_evaluateQuote operands
    · exact couples_evaluateLambda hC henv hoperands
    next hkeyword =>
      rw [Keyword.eq_text_of_ofText? hkeyword] at hhead
      exact couples_evaluateAssign hC hd hhead henv hoperands
    · exact couples_evaluateApplication hdescend hC.indiscernible hC.primitive
        (fun c c' args args' hc hargs => couples_applyClosure hC hd henv hc hargs)
        ⟨rfl, hhead⟩ hsame

theorem couples_evaluateText (depth : Nat) {env env' : Environment} (henv : C.chain env env')
    {text : String} (htext : accepts text) :
    C.Couples C.value (evaluateText host descend depth env text)
      (evaluateText host descend' depth env' text) := by
  have htrim := hC.trimmed text htext
  apply (couples_record (hC.evaluate depth _)).bind_eq
  intro _
  split
  · unfold evaluateForm
    cases hsplit : Text.splitForm (Text.trim text) with
    | error e => exact couples_fail rfl
    | ok siblings =>
      exact couples_evaluateSiblings hC hd henv _ (hC.sibling _ siblings htrim hsplit)
  · exact couples_evaluateAtom fun s t hatom hst =>
      hC.resolve _ env env' s t hatom htrim henv hst

end

/-- An accepted text is evaluated the same way on both sides. -/
theorem couples_evaluate {C : Coupling String String} {accepts : String → Prop} {host : Host}
    (hC : C.IsKept accepts host) (remaining depth : Nat) {env env' : Environment}
    (henv : C.chain env env') {text : String} (htext : accepts text) :
    C.Couples C.value (evaluate host remaining depth env text)
      (evaluate host remaining depth env' text) := by
  -- What is evaluated on the next level is a part of this text or the body of a closure, and is
  -- accepted as such.
  induction remaining generalizing depth env env' text with
  | zero => exact couples_fail rfl
  | succ remaining ih =>
    have hnext : ∀ env env' text, C.chain env env' → accepts text →
        C.Couples C.value (evaluate host remaining (depth + 1) env text)
          (evaluate host remaining (depth + 1) env' text) :=
      fun _ _ _ henv htext => ih (depth + 1) henv htext
    exact couples_evaluateText hC hnext depth henv htext

end Coupling

end TextLisp
