import TextLisp.Proofs.Evaluator.Coupling
import TextLisp.Proofs.Store.Alike

namespace TextLisp

variable {α α' β γ δ δ' ε ε' : Type} {R : Procedure β → Procedure γ → Prop}

structure Outcome.Alike (R : Procedure β → Procedure γ → Prop) (P : α → α' → Prop)
    (o : Outcome α β) (o' : Outcome α' γ) : Prop where
  result : Agree (fun _ => True) P o.result o'.result
  store : o.store.Alike R o'.store
  log : o.log = o'.log

def Host.Alike (R : Procedure β → Procedure γ → Prop) (host : Host β) (host' : Host γ) : Prop :=
  ∀ name args args', List.Forall₂ (Value.Alike R) args args' →
    Agree (fun _ => True) (Value.Alike R) (host name args) (host' name args')

def Run.Alike (R : Procedure β → Procedure γ → Prop) (P : α → α' → Prop) (x : RunOver β α)
    (y : RunOver γ α') : Prop :=
  ∀ s t, s.Alike R t → (x s).Alike R P (y t)

/-- Only procedures stand for others here. Chains, owners and records stand for themselves. -/
def Coupling.alike (R : Procedure β → Procedure γ → Prop) : Coupling β γ where
  procedure := R
  target _ := True
  chain := Eq
  owner := Eq
  entry := Eq
  store := Store.Alike R

namespace Run

open Coupling

variable {P : α → α' → Prop} {Q : δ → δ' → Prop}

theorem Alike.couples {x : RunOver β α} {y : RunOver γ α'} (h : Run.Alike R P x y) :
    (Coupling.alike R).Couples P x y := by
  intro s t hst
  obtain ⟨hresult, hstore, hlog⟩ := h s t hst
  refine ⟨hresult, hstore, ?_⟩
  rw [hlog]
  exact List.forall₂_same.mpr fun _ _ => rfl

/-- What is shown of couplings holds of runs that are alike. -/
theorem alike_of_couples {x : RunOver β α} {y : RunOver γ α'}
    (h : (Coupling.alike R).Couples P x y) : Run.Alike R P x y := by
  intro s t hst
  obtain ⟨hresult, hstore, hlog⟩ := h s t hst
  exact ⟨hresult, hstore, (log_eq_of_forall₂ (fun _ _ hr => hr.symm) hlog).symm⟩

theorem alike_pure {a : α} {a' : α'} (h : P a a') :
    Run.Alike R P (pure a) (pure a') :=
  alike_of_couples (couples_pure h)

theorem alike_fail {e e' : Error} (h : e = e') :
    Run.Alike R P (fail e) (fail e') :=
  alike_of_couples (couples_fail h)

theorem alike_record (r : Record) : Run.Alike R Eq (record r) (record r) :=
  alike_of_couples (couples_record rfl)

/-- Two computations go side by side if their parts do. -/
theorem Alike.bind {x : RunOver β α} {y : RunOver γ α'} {f : α → RunOver β δ}
    {g : α' → RunOver γ δ'} (h : Run.Alike R P x y)
    (hfg : ∀ a a', P a a' → Run.Alike R Q (f a) (g a')) : Run.Alike R Q (x >>= f) (y >>= g) :=
  alike_of_couples (h.couples.bind fun a a' ha => (hfg a a' ha).couples)

theorem Alike.bind_eq {x : RunOver β α} {y : RunOver γ α} {f : α → RunOver β δ}
    {g : α → RunOver γ δ'} (h : Run.Alike R Eq x y)
    (hfg : ∀ a, Run.Alike R Q (f a) (g a)) : Run.Alike R Q (x >>= f) (y >>= g) :=
  alike_of_couples (h.couples.bind_eq fun a => (hfg a).couples)

end Run

open Run Coupling

theorem alike_refuseCount {P : α → α' → Prop} (keyword : Keyword) (expected : Nat) {got got' : Nat}
    (h : got = got') :
    Run.Alike R P (ofExcept (keyword.refuse (.operandCount expected got)))
      (ofExcept (keyword.refuse (.operandCount expected got'))) :=
  alike_of_couples (couples_refuseCount keyword expected h)

theorem alike_evaluateAtom (env : Environment) (text : String) :
    Run.Alike R (Value.Alike R) (evaluateAtom env text) (evaluateAtom env text) :=
  alike_of_couples (couples_evaluateAtom fun _ _ _ hst => Store.Alike.resolve hst env text)

theorem alike_requireNew (name : String) :
    Run.Alike R Eq (requireNew name) (requireNew name) :=
  alike_of_couples ((couples_requireNew
    fun _ _ _ hst => (Store.Alike.table hst .globals).contains name).mono fun _ _ _ => rfl)

theorem alike_locate (env : Environment) (name : String) :
    Run.Alike R Eq (locate env name) (locate env name) := by
  apply alike_of_couples
  refine (couples_locate ?_).mono fun _ _ h => h.2
  intro s t _ hst
  rw [Store.Alike.owner? hst env name]
  exact rel_self fun _ _ => rfl

/-- Frames of stores that are alike are added under the same index. -/
theorem alike_extend (scope : Environment) (names : List String) {args : List (Value β)}
    {args' : List (Value γ)} (h : List.Forall₂ (Value.Alike R) args args') :
    Run.Alike R Eq (extend scope (names.zip args)) (extend scope (names.zip args')) := by
  intro s t hst
  have htable := Table.alike_ofList (bindingsAlike_zip names h)
  unfold extend
  rw [hst.size]
  exact ⟨.ok rfl, hst.addFrame htable, rfl⟩

theorem alike_enterClosure (scope : Environment) (params body : String) (names : List String)
    {args : List (Value β)} {args' : List (Value γ)} (h : List.Forall₂ (Value.Alike R) args args') :
    Run.Alike R Eq (enterClosure scope params body names args)
      (enterClosure scope params body names args') :=
  alike_of_couples (couples_enterClosure rfl h rfl (alike_extend scope names h).couples)

section

variable (hR : Procedure.Indiscernible R)
include hR

theorem alike_bindGlobal (name : String) {value : Value β} {value' : Value γ}
    (hvalue : Value.Alike R value value') :
    Run.Alike R (Value.Alike R) (bindGlobal name value) (bindGlobal name value') :=
  alike_of_couples (couples_write hR .define (fun _ => rfl) hvalue
    fun _ _ hst => Store.Alike.define hst name hvalue)

theorem alike_overwrite (owner : Owner) (name : String) {value : Value β} {value' : Value γ}
    (hvalue : Value.Alike R value value') :
    Run.Alike R (Value.Alike R) (overwrite owner name value) (overwrite owner name value') :=
  alike_of_couples (couples_write hR .assign (fun _ => rfl) hvalue
    fun _ _ hst => Store.Alike.assign hst owner name hvalue)

end

section

variable {descend : Descent ε β} {descend' : Descent ε' γ} {Q : ε → ε' → Prop}
  (hd : ∀ env expr expr', Q expr expr' →
    Run.Alike R (Value.Alike R) (descend env expr) (descend' env expr'))
include hd

theorem alike_evaluateConditional (env : Environment) {operands : List ε} {operands' : List ε'}
    (h : List.Forall₂ Q operands operands') :
    Run.Alike R (Value.Alike R) (evaluateConditional descend env operands)
      (evaluateConditional descend' env operands') :=
  alike_of_couples (couples_evaluateConditional
    (fun expr expr' hexpr => (hd env expr expr' hexpr).couples) h)

/-- Heads are alike, so both apply the same primitive, or both apply a closure. -/
theorem alike_evaluateApplication (hR : Procedure.Indiscernible R) {host : Host β} {host' : Host γ}
    (hhost : host.Alike R host')
    {call : Closure β → List (Value β) → RunOver β (Value β)}
    {call' : Closure γ → List (Value γ) → RunOver γ (Value γ)}
    (hcall : ∀ c c' args args', R (.closure c) (.closure c') →
      List.Forall₂ (Value.Alike R) args args' →
        Run.Alike R (Value.Alike R) (call c args) (call' c' args'))
    (env : Environment) {head : ε} {head' : ε'} (hhead : Q head head') {operands : List ε}
    {operands' : List ε'} (h : List.Forall₂ Q operands operands') :
    Run.Alike R (Value.Alike R) (evaluateApplication host call descend env head operands)
      (evaluateApplication host' call' descend' env head' operands') := by
  apply alike_of_couples
  refine couples_evaluateApplication (fun expr expr' hexpr => (hd env expr expr' hexpr).couples) hR
    ?_ (fun c c' args args' hc hargs => (hcall c c' args args' hc hargs).couples) hhead h
  exact fun p args args' _ hargs =>
    p.operation.apply_agree hR hargs fun name _ => hhost name args args' hargs

end

end TextLisp
