import TextLisp.Proofs.Evaluator.Coupling
import TextLisp.Proofs.Store.History
import TextLisp.Proofs.Store.Matching

namespace TextLisp.Matching

variable {m : Matching} {s₀ t₀ : Store}

/-- Runs over matching stores make the same records. What they announce is due to a binding form. -/
def coupling (m : Matching) (s₀ t₀ : Store) : Coupling String String where
  procedure := m.Procedures
  target _ := True
  chain env env' := List.Forall₂ m.frame env.frames env'.frames
  owner := m.Owners
  entry r r' := r = r' ∧
    (r.announces = true → m.accepts Keyword.define.text ∨ m.accepts Keyword.assign.text)
  store := m.Stores s₀ t₀

theorem entry_of_quiet {r : Record} (h : r.announces = false) : (m.coupling s₀ t₀).entry r r := by
  refine ⟨rfl, ?_⟩
  intro hr
  rw [h] at hr
  cases hr

theorem log_eq {log log' : List Record}
    (h : List.Forall₂ (m.coupling s₀ t₀).entry log log') : log' = log :=
  Coupling.log_eq_of_forall₂ (fun _ _ hr => hr.1.symm) h

/-- Where binding forms are not accepted, nothing is announced. -/
theorem not_announces_of_log {log log' : List Record}
    (h : List.Forall₂ (m.coupling s₀ t₀).entry log log') (hdefine : ¬ m.accepts Keyword.define.text)
    (hassign : ¬ m.accepts Keyword.assign.text) : ∀ r ∈ log, r.announces = false := by
  intro r hmem
  obtain rfl := log_eq h
  rw [← Bool.not_eq_true]
  intro hr
  exact ((List.forall₂_same.mp h r hmem).2 hr).elim hdefine hassign

theorem couples_makeClosure {params body : String} {env env' : Environment}
    (hbody : m.accepts body) (henv : List.Forall₂ m.frame env.frames env'.frames) :
    (m.coupling s₀ t₀).Couples (Value.Alike m.Procedures) (makeClosure params body env)
      (makeClosure params body env') := by
  intro s t hst
  have hst : m.Stores s₀ t₀ s t := hst
  have hdepth : env.depth = env'.depth := henv.length_eq
  rw [makeClosure_apply, makeClosure_apply, hdepth]
  exact ⟨.ok (.procedure (.closure (hst.newClosures 0) hbody henv)), hst.closure,
    .cons (entry_of_quiet rfl) .nil⟩

theorem couples_extend {scope scope' : Environment}
    (hscope : List.Forall₂ m.frame scope.frames scope'.frames) (names : List String)
    {args args' : List Value} (hargs : List.Forall₂ (Value.Alike m.Procedures) args args') :
    (m.coupling s₀ t₀).Couples (m.coupling s₀ t₀).chain (Run.extend scope (names.zip args))
      (Run.extend scope' (names.zip args')) := by
  intro s t hst
  have hst : m.Stores s₀ t₀ s t := hst
  have htable := Table.alike_ofList (bindingsAlike_zip names hargs)
  exact ⟨.ok (.cons (hst.newFrames 0) hscope), hst.addFrame htable, .nil⟩

/-- Every step of an evaluation keeps matching stores matching. -/
theorem isKept_coupling (m : Matching) (s₀ t₀ : Store) (host : Host) :
    (m.coupling s₀ t₀).IsKept m.accepts host where
  indiscernible := m.indiscernible_procedures
  trimmed := m.trimmed
  sibling := m.sibling
  closure c c' hc := by
    cases hc with
    | closure _ hbody hframes =>
      exact ⟨rfl, rfl, hbody, fun env env' henv => List.rel_append henv hframes⟩
  primitive p args args' hp hargs := by
    cases hp with
    | primitive hbuiltin =>
      apply p.operation.apply_agree m.indiscernible_procedures hargs
      intro name hhost
      obtain ⟨operation, hoperation⟩ := hbuiltin
      rw [hhost] at hoperation
      cases hoperation
  evaluate _ _ := entry_of_quiet rfl
  apply _ _ _ := entry_of_quiet rfl
  make _ _ _ _ _ hbody henv := couples_makeClosure hbody henv
  extend names _ _ _ _ hscope hargs := couples_extend hscope names hargs
  resolve name _ _ _ _ _ _ henv hst := hst.resolve henv name
  announceDefine hdefine _ _ := ⟨rfl, fun _ => Or.inl hdefine⟩
  global _ name _ _ _ _ hst := hst.globals.contains name
  define _ name _ _ _ _ _ _ hvalue hst := hst.define name hvalue
  announceAssign hassign _ _ := ⟨rfl, fun _ => Or.inr hassign⟩
  owner _ name _ _ _ _ _ _ henv hst := hst.owner? henv name
  assign _ name _ _ _ _ _ _ _ _ howner hvalue hst := hst.assign howner name hvalue

/-- Evaluations of an accepted text in matching chains over matching stores. -/
theorem ends_evaluate (host : Host) {s t : Store} (hst : m.Stores s t s t) {env env' : Environment}
    (henv : List.Forall₂ m.frame env.frames env'.frames) {text : String} (htext : m.accepts text)
    (remaining depth : Nat) :
    (m.coupling s t).Ends (Value.Alike m.Procedures) (evaluate host remaining depth env text s)
      (evaluate host remaining depth env' text t) :=
  Coupling.couples_evaluate (m.isKept_coupling s t host) remaining depth henv htext s t hst

end TextLisp.Matching
