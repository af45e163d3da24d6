import TextLisp.Proofs.Evaluator.Causes
import TextLisp.Proofs.Evaluator.Coupling
import TextLisp.Proofs.Evaluator.Resumed
import TextLisp.Proofs.Store.Holding
import TextLisp.Proofs.Store.Slotwise
import TextLisp.Proofs.Tree.Parse
import TextLisp.Proofs.Value.Alike

/-! Aliases. They are values of globals, and an evaluation never gets hold of one: what it reads is
what they lead to. So it neither moves nor makes any, and what it overwrites is no alias after. -/
namespace TextLisp

def Value.HoldsNoAlias (v : Value) : Prop :=
  ∀ target, ¬ IsPartOf (.aliasTo target) v

def Value.StandsIn (allowed : String → String → Prop) (owner : Owner) (name : String) (v : Value) :
    Prop :=
  v.HoldsNoAlias ∨ ∃ target, owner = .globals ∧ v = .aliasTo target ∧ allowed name target

abbrev Store.AliasesAmong (allowed : String → String → Prop) (s : Store) : Prop :=
  s.Holds (Value.StandsIn allowed)

theorem Store.AliasesAmong.mono_allowed {allowed allowed' : String → String → Prop} {s : Store}
    (h : s.AliasesAmong allowed)
    (hall : ∀ name target, allowed name target → allowed' name target) :
    s.AliasesAmong allowed' := by
  refine Holds.mono h ?_
  rintro owner name value (hplain | ⟨target, howner, rfl, hallowed⟩)
  · exact Or.inl hplain
  · exact Or.inr ⟨target, howner, rfl, hall name target hallowed⟩

/-- The embedding program gives aliases to nobody who had none. -/
def Host.AddsNoAlias (host : Host) : Prop :=
  ∀ name args value, (∀ arg ∈ args, Value.HoldsNoAlias arg) → host name args = .ok value →
    value.HoldsNoAlias

abbrev Value.SameUnaliased : Value → Value → Prop :=
  AlikeWhere Eq fun _ => False

namespace Value

theorem HoldsNoAlias.sameUnaliased {v : Value} (h : v.HoldsNoAlias) : SameUnaliased v v :=
  alikeWhere_of_isPartOf v (fun _ _ => rfl) h

theorem SameUnaliased.holdsNoAlias {v : Value} (h : SameUnaliased v v) : v.HoldsNoAlias := by
  intro target hpart
  cases hpart.alikeWhere h with
  | aliasTo h => exact h

theorem SameUnaliased.eq {v w : Value} (h : SameUnaliased v w) : w = v :=
  AlikeWhere.eq (fun _ _ hpq => hpq.symm) h

theorem SameUnaliased.eq_args {args args' : List Value}
    (h : List.Forall₂ SameUnaliased args args') : args' = args :=
  AlikeWhere.eq_items (fun _ _ hpq => hpq.symm) h

theorem indiscernible_eq : Procedure.Indiscernible (Eq : Procedure → Procedure → Prop) where
  primitive h := h.symm
  closure h := ⟨_, h.symm⟩
  render h := by rw [h]
  equal h h' := by rw [h, h']

end Value

theorem Host.AddsNoAlias.agree {host : Host} (hhost : host.AddsNoAlias) (name : String)
    {args args' : List Value} (hargs : List.Forall₂ Value.SameUnaliased args args') :
    Agree (fun _ => True) Value.SameUnaliased (host name args) (host name args') := by
  obtain rfl := Value.SameUnaliased.eq_args hargs
  have hself : ∀ arg ∈ args', Value.SameUnaliased arg arg := List.forall₂_same.mp hargs
  cases hresult : host name args' with
  | error e => exact .error trivial
  | ok value =>
    exact .ok (hhost name args' value (fun arg hmem => (hself arg hmem).holdsNoAlias)
      hresult).sameUnaliased

section

variable {allowed : String → String → Prop}

/-- Where aliases lead, no alias stands. -/
theorem Table.holdsNoAlias_of_follow {globals : Table Value}
    (h : ∀ name value, globals.get? name = some value → value.StandsIn allowed .globals name)
    {start : String} {visited : List String} {owner : Owner} {name : String} {value result : Value}
    (hvalue : value.StandsIn allowed owner name)
    (hresult : globals.follow start visited value = .ok result) : result.HoldsNoAlias := by
  have hne := ne_aliasTo_of_follow hresult
  fun_induction Table.follow globals start visited value generalizing owner name with
  | case1 => cases hresult
  | case2 => cases hresult
  | case3 visited target _ next hnext ih => exact ih (h target next hnext) hresult
  | case4 visited value =>
    obtain rfl := Except.ok.inj hresult
    obtain hplain | ⟨target, -, rfl, -⟩ := hvalue
    · exact hplain
    · exact absurd rfl (hne target)

/-- What a name is resolved to holds no alias, since only globals have aliases for values. -/
theorem Store.AliasesAmong.resolve {s : Store} (h : s.AliasesAmong allowed) {env : Environment}
    {name : String} {value : Value} (hvalue : env.resolve s name = .ok value) :
    value.HoldsNoAlias := by
  unfold Environment.resolve at hvalue
  split at hvalue
  · cases hvalue
  next found hfound =>
    rw [Environment.lookup_eq_owner?] at hfound
    obtain ⟨owner, -, hslot⟩ := Option.bind_eq_some_iff.mp hfound
    exact Table.holdsNoAlias_of_follow (h .globals) (h owner name found hslot) hvalue

end

namespace Coupling

def unaliased (allowed : String → String → Prop) : Coupling String String where
  procedure := Eq
  target _ := False
  chain := Eq
  owner := Eq
  entry := Eq
  store s t := s = t ∧ s.AliasesAmong allowed

variable {allowed : String → String → Prop}

theorem agree_define_unaliased (name : String) {value : Value} (hvalue : value.HoldsNoAlias)
    {s t : Store} (hst : (unaliased allowed).store s t) :
    Agree (fun _ => True) (unaliased allowed).store (s.define name value)
      (t.define name value) := by
  obtain ⟨rfl, hs⟩ := hst
  exact Store.agree_define rfl ⟨rfl, hs.put (Or.inl hvalue)⟩

theorem agree_assign_unaliased (owner : Owner) (name : String) {value : Value}
    (hvalue : value.HoldsNoAlias) {s t : Store} (hst : (unaliased allowed).store s t) :
    Agree (fun _ => True) (unaliased allowed).store (s.assign owner name value)
      (t.assign owner name value) := by
  obtain ⟨rfl, hs⟩ := hst
  exact Store.agree_assign rfl ⟨rfl, hs.put (Or.inl hvalue)⟩

/-- Every step of an evaluation keeps aliases where they are. -/
theorem isKept_unaliased {host : Host} (hhost : host.AddsNoAlias)
    (allowed : String → String → Prop) : (unaliased allowed).IsKept (fun _ => True) host := by
  constructor
  case indiscernible => exact Value.indiscernible_eq
  case trimmed => exact fun _ _ => trivial
  case sibling => exact fun _ _ _ _ _ _ => trivial
  case closure =>
    rintro c c' hsame
    obtain rfl := Procedure.closure.inj hsame
    refine ⟨rfl, rfl, trivial, ?_⟩
    rintro env env' rfl
    rfl
  case primitive =>
    exact fun p args args' _ hargs =>
      p.operation.apply_agree Value.indiscernible_eq hargs fun name _ => hhost.agree name hargs
  case evaluate => exact fun _ _ => rfl
  case apply => exact fun _ _ _ => rfl
  case make =>
    rintro params body env env' - - rfl s t ⟨rfl, hs⟩
    rw [makeClosure_apply]
    exact ⟨.ok (.procedure rfl), ⟨rfl, hs.nextClosure _⟩, .cons rfl .nil⟩
  case extend =>
    rintro names scope scope' args args' rfl hargs s t ⟨rfl, hs⟩
    obtain rfl := Value.SameUnaliased.eq_args hargs
    refine ⟨.ok rfl, ⟨rfl, hs.addFrame ?_⟩, .nil⟩
    intro index binding hmem
    have hself : Value.SameUnaliased binding.2 binding.2 :=
      List.forall₂_same.mp hargs binding.2 (List.of_mem_zip hmem).2
    exact Or.inl hself.holdsNoAlias
  case resolve =>
    rintro name env env' s t - - rfl ⟨rfl, hs⟩
    cases hresolve : env.resolve s name with
    | error e => exact .error trivial
    | ok value => exact .ok (hs.resolve hresolve).sameUnaliased
  case announceDefine => exact fun _ _ _ => rfl
  case global =>
    rintro - name s t - - ⟨rfl, -⟩
    rfl
  case define =>
    intro _ name v w s t _ _ hvalue hst
    obtain rfl := Value.SameUnaliased.eq hvalue
    exact agree_define_unaliased name (Value.SameUnaliased.holdsNoAlias hvalue) hst
  case announceAssign => exact fun _ _ _ => rfl
  case owner =>
    rintro - name env env' s t - - rfl ⟨rfl, -⟩
    exact rel_self fun _ _ => rfl
  case assign =>
    rintro - name owner owner' v w s t - - rfl hvalue hst
    obtain rfl := Value.SameUnaliased.eq hvalue
    exact agree_assign_unaliased owner name (Value.SameUnaliased.holdsNoAlias hvalue) hst

/-- What a run beside itself says of the run alone. -/
theorem Couples.unaliased {α : Type} {P : α → α → Prop} {x : Run α}
    (h : (unaliased allowed).Couples P x x) {s s₁ : Store} {r : Except Error α} {log : List Record}
    (hx : x s = ⟨r, s₁, log⟩) (hs : s.AliasesAmong allowed) :
    s₁.AliasesAmong allowed ∧ ∀ a, r = .ok a → P a a := by
  obtain ⟨hresult, hstore, -⟩ := h s s ⟨rfl, hs⟩
  rw [hx] at hresult hstore
  refine ⟨hstore.2, ?_⟩
  rintro a rfl
  cases hresult with
  | ok h => exact h

variable {host : Host} (hhost : host.AddsNoAlias) (allowed)
include hhost

/-- An evaluation beside itself: what it computes holds no alias, and the aliases of the store stay
among the allowed ones. -/
theorem couples_evaluate_unaliased (remaining depth : Nat) (env : Environment) (text : String) :
    (unaliased allowed).Couples Value.SameUnaliased (evaluate host remaining depth env text)
      (evaluate host remaining depth env text) :=
  couples_evaluate (isKept_unaliased hhost allowed) remaining depth rfl trivial

theorem couples_evaluateOperands_unaliased (remaining depth : Nat) (env : Environment)
    (operands : List String) :
    (unaliased allowed).Couples (List.Forall₂ Value.SameUnaliased)
      (evaluateOperands (evaluate host remaining depth) env operands)
      (evaluateOperands (evaluate host remaining depth) env operands) := by
  have hsame : List.Forall₂ Eq operands operands := List.forall₂_refl operands
  apply couples_evaluateOperands _ hsame
  rintro expr _ rfl
  exact couples_evaluate_unaliased allowed hhost remaining depth env expr

theorem couples_applyClosure_unaliased (remaining depth : Nat) (env : Environment) {c c' : Closure}
    (hc : Procedure.closure c = .closure c') {args args' : List Value}
    (hargs : List.Forall₂ Value.SameUnaliased args args') :
    (unaliased allowed).Couples Value.SameUnaliased
      (applyClosure (evaluate host remaining depth) env c args)
      (applyClosure (evaluate host remaining depth) env c' args') := by
  have hC := isKept_unaliased hhost allowed
  apply couples_applyClosure hC _ rfl hc hargs
  exact fun _ _ _ henv htext => couples_evaluate hC remaining depth henv htext

theorem couples_applyProcedure_unaliased (remaining depth : Nat) (env : Environment)
    (p : Procedure) {args args' : List Value}
    (hargs : List.Forall₂ Value.SameUnaliased args args') :
    (unaliased allowed).Couples Value.SameUnaliased
      (applyProcedure host (applyClosure (evaluate host remaining depth) env) args p)
      (applyProcedure host (applyClosure (evaluate host remaining depth) env) args' p) := by
  have hC := isKept_unaliased hhost allowed
  refine couples_applyProcedure hC.indiscernible hC.primitive ?_ rfl hargs
  exact fun c c' args args' hc hargs => couples_applyClosure_unaliased allowed hhost _ _ _ hc hargs

end Coupling

section

variable {host : Host} (hhost : host.AddsNoAlias)
include hhost

open Coupling

/-- However a form goes on with a value that holds no alias, it leaves aliases where they are. -/
theorem Resumes.couples {remaining depth : Nat} {env : Environment} {s : Store}
    {rest : Value → Run Value} (h : Resumes host (evaluate host remaining depth) env s rest)
    {earlier : String → String → Prop} (hs : s.AliasesAmong earlier) {value : Value}
    (hvalue : value.HoldsNoAlias) (allowed : String → String → Prop) :
    (unaliased allowed).Couples Value.SameUnaliased (rest value) (rest value) := by
  have hC := isKept_unaliased hhost allowed
  have hself : Value.SameUnaliased value value := hvalue.sameUnaliased
  cases h with
  | definition name =>
    exact couples_write hC.indiscernible .define (fun _ => rfl) hself
      fun s t hst => agree_define_unaliased name hvalue hst
  | test first second => exact couples_evaluate_unaliased allowed hhost remaining depth env _
  | assignment owner name =>
    exact couples_write hC.indiscernible .assign (fun _ => rfl) hself
      fun s t hst => agree_assign_unaliased owner name hvalue hst
  | head operands =>
    have hsame : List.Forall₂ Eq operands operands := List.forall₂_refl operands
    refine couples_applyHead ?_ hC.indiscernible hC.primitive ?_ hself hsame
    · rintro expr _ rfl
      exact couples_evaluate_unaliased allowed hhost remaining depth env expr
    · exact fun c c' args args' hc hargs => couples_applyClosure_unaliased allowed hhost _ _ _ hc hargs
  | @operand head before after p values s₁ s₂ log log' hprocedure hbefore =>
    have hhead := couples_evaluate_unaliased earlier hhost remaining depth env head
    have hs₁ := (hhead.unaliased hprocedure hs).1
    have hoperands := couples_evaluateOperands_unaliased earlier hhost remaining depth env before
    have hvalues := (hoperands.unaliased hbefore hs₁).2 values rfl
    apply (couples_evaluateOperands_unaliased allowed hhost remaining depth env after).bind
    intro more more' hmore
    apply couples_applyProcedure_unaliased allowed hhost
    exact List.rel_append hvalues (.cons hself hmore)
  | tail => exact couples_pure hself

/-- What a form does before it asks for an evaluation leaves aliases where they are. -/
theorem Asks.aliasesAmong {remaining depth : Nat} {env env' : Environment} {s s' : Store}
    {siblings : List String} {log : List Record} {text : String}
    (h : Asks (evaluate host remaining depth) env s siblings log env' text s')
    {allowed : String → String → Prop} (hs : s.AliasesAmong allowed) : s'.AliasesAmong allowed := by
  have hd (expr : String) := couples_evaluate_unaliased allowed hhost remaining depth env expr
  have hoperands (operands : List String) :=
    couples_evaluateOperands_unaliased allowed hhost remaining depth env operands
  cases h with
  | definition | test | assignment | head => exact hs
  | branch htest => exact ((hd _).unaliased htest hs).1
  | operand _ hprocedure hbefore =>
    have hs₁ := ((hd _).unaliased hprocedure hs).1
    exact ((hoperands _).unaliased hbefore hs₁).1
  | @body head operands names c args inner s₁ s₂ s₃ log log' log'' _ hclosure hargs _ henter =>
    have hs₁ := ((hd head).unaliased hclosure hs).1
    obtain ⟨hs₂, hvalues⟩ := (hoperands operands).unaliased hargs hs₁
    have hC := isKept_unaliased hhost allowed
    have hscope : (unaliased allowed).chain (env.splice c.env) (env.splice c.env) := rfl
    have hframe := couples_enterClosure hscope (hvalues args rfl) (hC.apply c.params _ c.body)
      (hC.extend names _ _ args args hscope (hvalues args rfl))
    exact (hframe.unaliased henter hs₂).1

/-- Wherever an evaluation begins inside another one, the aliases are where they were. -/
theorem Evaluation.Begins.aliasesAmong {v w : Evaluation} {log : List Record}
    (h : v.Begins host log w) {allowed : String → String → Prop}
    (hs : v.store.AliasesAmong allowed) : w.store.AliasesAmong allowed := by
  induction h with
  | itself => exact hs
  | inside _ hasks _ ih => exact ih (hasks.aliasesAmong hhost hs)

/-- An evaluation leaves aliases where they are, and its value holds none. -/
theorem Evaluation.aliasesAmong_outcome (v : Evaluation) {allowed : String → String → Prop}
    (hs : v.store.AliasesAmong allowed) :
    (v.outcome host).store.AliasesAmong allowed ∧
      ∀ value, (v.outcome host).result = .ok value → value.HoldsNoAlias := by
  have hcouples := couples_evaluate_unaliased allowed hhost v.remaining v.depth v.env v.text
  obtain ⟨hstore, hvalue⟩ := hcouples.unaliased (s := v.store) rfl hs
  exact ⟨hstore, fun value hresult => (hvalue value hresult).holdsNoAlias⟩

/-- Aliases that are gone when an inner evaluation ends are gone when the outer one does. -/
theorem Evaluation.Begins.aliasesAmong_outcome {v w : Evaluation} {log : List Record}
    (h : v.Begins host log w) {earlier allowed : String → String → Prop}
    (hs : v.store.AliasesAmong earlier) (hw : (w.outcome host).store.AliasesAmong allowed) :
    (v.outcome host).store.AliasesAmong allowed := by
  induction h with
  | itself => exact hw
  | @inside remaining depth env env' text text' s s' siblings log log' w hform hasks _ ih =>
    have hs' := hasks.aliasesAmong hhost hs
    have hinner := ih hs' hw
    -- What the outer evaluation does after the inner one moves no alias either.
    obtain ⟨rest, hrest, hrun⟩ := hasks.exists_resumes host (Text.trim text)
    have hvalue := (Evaluation.aliasesAmong_outcome hhost
      ⟨remaining, depth + 1, env', text', s'⟩ hs').2
    unfold Evaluation.outcome at hinner hvalue ⊢
    rw [evaluate_of_splitForm hform, hrun]
    change ((evaluate host remaining (depth + 1) env' text' >>= rest) s').store.AliasesAmong allowed
    cases hresult : (evaluate host remaining (depth + 1) env' text' s').result with
    | error e =>
      rw [Run.bind_of_result_error hresult]
      exact hinner
    | ok value =>
      rw [Run.bind_of_result_ok hresult]
      exact ((hrest.couples hhost hs (hvalue value hresult) allowed).unaliased rfl hinner).1

/-- What a `set!` writes holds no alias. -/
theorem Evaluation.Overwrites.holdsNoAlias {w : Evaluation} {owner : Owner} {name : String}
    {value : Value} (h : w.Overwrites host owner name value) {allowed : String → String → Prop}
    (hs : w.store.AliasesAmong allowed) : value.HoldsNoAlias := by
  obtain ⟨-, v, hv, hvalue, -, -⟩ := h.exists_put
  rw [← hv] at hs
  exact (v.aliasesAmong_outcome hhost hs).2 value hvalue

/-- A global that has been overwritten is no alias. -/
theorem Evaluation.Overwrites.aliasesAmong {w : Evaluation} {name : String} {value : Value}
    (h : w.Overwrites host .globals name value) {allowed : String → String → Prop}
    (hs : w.store.AliasesAmong allowed) :
    (w.outcome host).store.AliasesAmong fun other _ => other ≠ name := by
  have hplain := h.holdsNoAlias hhost hs
  obtain ⟨-, v, hv, -, hbound, hput⟩ := h.exists_put
  rw [← hv] at hs
  have hstore := (v.aliasesAmong_outcome hhost hs).1
  rw [hput]
  refine hstore.put_of_ne (Store.hasTable_of_contains hbound) (Or.inl hplain) ?_
  rintro owner other slot hother (hslot | ⟨target, rfl, rfl, -⟩)
  · exact Or.inl hslot
  · exact Or.inr ⟨target, rfl, rfl, fun he => hother ⟨rfl, he⟩⟩

end

end TextLisp
