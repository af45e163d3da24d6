import Mathlib
import TextLisp.Proofs.Evaluator.Alike

/-! Chains that hold a table more than once. Calls put the captured chain behind the caller's, which
may have the same tables in it. Nothing but the number of frames in the log tells such a chain from
the one without repetitions. -/
namespace TextLisp

inductive Procedure.SameTables : Procedure → Procedure → Prop
  | primitive (p : Primitive) : SameTables (.primitive p) (.primitive p)
  | closure (identity : Nat) (params body : String) {env env' : Environment}
      (henv : env.dedup = env'.dedup) :
      SameTables (.closure ⟨identity, params, body, env⟩) (.closure ⟨identity, params, body, env'⟩)

abbrev Store.SameTables (s t : Store) : Prop :=
  s.Slotwise (Value.Alike Procedure.SameTables) (fun _ _ => True) t

/-- The record without the number of frames that a closure is made over. -/
def Record.uncounted : Record → Record
  | .lambda params _ => .lambda params 0
  | r => r

/-- The same error or the same value, the same store and the same log, but for repetitions in the
chains of closures and the numbers of their frames. -/
structure Outcome.SameTables (o o' : Outcome Value) : Prop where
  result : Agree (fun _ => True) (Value.Alike Procedure.SameTables) o.result o'.result
  store : o.store.SameTables o'.store
  log : o.log.map Record.uncounted = o'.log.map Record.uncounted

theorem Procedure.SameTables.refl (p : Procedure) : p.SameTables p := by
  cases p with
  | primitive p => exact .primitive p
  | closure c => exact .closure c.identity c.params c.body rfl

theorem Value.sameTables_refl (v : Value) : Value.Alike Procedure.SameTables v v := by
  have hall : v.Within fun _ => True := within_of_occurs v fun _ _ => trivial
  exact hall.alike_self fun p _ => .refl p

theorem Store.SameTables.refl (s : Store) : s.SameTables s := by
  refine ⟨?_, rfl, rfl⟩
  exact fun owner name _ => rel_self fun v _ => v.sameTables_refl

theorem indiscernible_sameTables : Procedure.Indiscernible Procedure.SameTables where
  primitive h := by cases h; rfl
  closure h := by
    cases h
    exact ⟨_, rfl⟩
  render h := by
    cases h
    · rfl
    · rw [Value.render, Value.render]
  equal h h' := by
    cases h <;> cases h' <;> rfl

namespace Coupling

/-- Chains with the same tables. Records are the same but for the numbers of frames. -/
def sameTables : Coupling String String where
  procedure := Procedure.SameTables
  target _ := True
  chain env env' := env.dedup = env'.dedup
  owner := Eq
  entry r r' := r.uncounted = r'.uncounted
  store := Store.SameTables

theorem Ends.sameTables {o o' : Outcome Value}
    (h : Coupling.sameTables.Ends Coupling.sameTables.value o o') : o.SameTables o' := by
  refine ⟨h.result, h.store, ?_⟩
  rw [← List.forall₂_eq_eq_eq, List.forall₂_map_left_iff, List.forall₂_map_right_iff]
  exact h.log

theorem isKept_sameTables {host : Host} (hhost : host.Alike Procedure.SameTables host) :
    Coupling.sameTables.IsKept (fun _ => True) host where
  indiscernible := indiscernible_sameTables
  trimmed _ _ := trivial
  sibling _ _ _ _ _ _ := trivial
  closure c c' hc := by
    cases hc with
    | closure _ _ _ hchain =>
      exact ⟨rfl, rfl, trivial, fun env env' henv => Environment.dedup_splice henv hchain⟩
  primitive p args args' _ hargs :=
    p.operation.apply_agree indiscernible_sameTables hargs
      fun name _ => hhost name args args' hargs
  evaluate _ _ := rfl
  apply _ _ _ := rfl
  make params body env env' _ _ henv s t hst := by
    rw [makeClosure_apply, makeClosure_apply]
    refine ⟨.ok (.procedure ?_), Store.Slotwise.closure hst, .cons rfl .nil⟩
    rw [hst.nextClosure]
    exact .closure t.nextClosure params body henv
  extend names scope scope' args args' hscope hargs s t hst := by
    refine ⟨.ok ?_, Store.Slotwise.addFrame hst (Table.rel_get?_ofList_zip names hargs), .nil⟩
    rw [hst.size]
    exact Environment.dedup_push hscope t.frames.size
  resolve _ _ _ _ _ _ _ henv hst := hst.resolve henv (fun _ => trivial) fun _ _ => trivial
  announceDefine _ _ _ := rfl
  global _ name _ _ _ _ hst := hst.contains .globals name trivial
  define _ name _ _ _ _ _ _ hvalue hst :=
    Store.agree_define (hst.contains .globals name trivial) (hst.put .globals name hvalue)
  announceAssign _ _ _ := rfl
  owner _ name env env' s t _ _ henv hst := by
    rw [hst.owner? henv fun _ => trivial]
    exact rel_self fun _ _ => rfl
  assign _ name owner owner' value value' s t _ _ howner hvalue hst := by
    subst howner
    exact Store.agree_assign (hst.contains .globals name trivial) (hst.put owner name hvalue)

end Coupling

/-- Chains with the same tables are not told apart, if the embedding program does not do it. A call
in particular goes on as if its scope had no table twice. -/
theorem repeated_tables_are_unobservable {host : Host}
    (hhost : host.Alike Procedure.SameTables host) (remaining depth : Nat) :
    (∀ {s t : Store} {env env' : Environment}, s.SameTables t → env.dedup = env'.dedup →
      ∀ text, Outcome.SameTables (evaluate host remaining depth env text s)
        (evaluate host remaining depth env' text t)) ∧
    ∀ (s : Store) (env : Environment) (c : Closure) (args : List Value),
      Outcome.SameTables (applyClosure (evaluate host remaining depth) env c args s)
        (applyClosure (evaluate host remaining depth) (env.splice c.env).dedup
          { c with env := .empty } args s) := by
  have hkept := Coupling.isKept_sameTables hhost
  constructor
  · intro s t env env' hst henv text
    exact (Coupling.couples_evaluate hkept remaining depth henv trivial s t hst).sameTables
  · intro s env c args
    let scope := (env.splice c.env).dedup
    have hscope : scope = (scope.splice .empty).dedup := by
      rw [Environment.splice_empty]
      exact (Environment.dedup_dedup _).symm
    have hargs : List.Forall₂ (Value.Alike Procedure.SameTables) args args :=
      List.forall₂_same.mpr fun v _ => v.sameTables_refl
    have hcall : Coupling.sameTables.Couples Coupling.sameTables.value
        (applyClosure (evaluate host remaining depth) env c args)
        (applyClosure (evaluate host remaining depth) scope { c with env := .empty } args) := by
      apply Coupling.couples_applyClosure_of_scope hkept
      · exact fun _ _ _ henv htext => Coupling.couples_evaluate hkept remaining depth henv htext
      · rfl
      · rfl
      · trivial
      · exact hscope
      · exact hargs
    exact (hcall s s (.refl s)).sameTables

/-- The frame of `x` is twice in the chain. The log counts it twice. -/
theorem doubled_frame_is_counted_only :
    let host : Host := fun _ _ => .ok .nil
    let s : Store := ⟨Table.empty, #[Table.ofList [("x", .bool true)]], 1⟩
    let o := evaluate host 1 0 ⟨[0, 0]⟩ "(lambda (z) x)" s
    let o' := evaluate host 1 0 ⟨[0]⟩ "(lambda (z) x)" s
    let c : Closure := ⟨0, "(y)", "(lambda (z) x)", ⟨[0]⟩⟩
    o.SameTables o' ∧ .lambda "(z)" 2 ∈ o.log ∧ .lambda "(z)" 1 ∈ o'.log ∧
      (applyClosure (evaluate host 1 0) ⟨[0]⟩ c [.nil] s).SameTables
        (applyClosure (evaluate host 1 0) ⟨[0]⟩ { c with env := .empty } [.nil] s) := by
  intro host s o o' c
  have hhost : host.Alike Procedure.SameTables host := fun _ _ _ _ => .ok .nil
  obtain ⟨hevaluation, hcall⟩ := repeated_tables_are_unobservable hhost 1 0
  have hlog (env : Environment) (s : Store) : (evaluate host 1 0 env "(lambda (z) x)" s).log =
      [.evaluate 0 "(lambda (z) x)", .lambda "(z)" env.frames.length] := by cbv
  have hscope : (Environment.splice ⟨[0]⟩ c.env).dedup = ⟨[0]⟩ := rfl
  have hcalled := hcall s ⟨[0]⟩ c [.nil]
  rw [hscope] at hcalled
  have hchain : Environment.dedup ⟨[0, 0]⟩ = Environment.dedup ⟨[0]⟩ := rfl
  refine ⟨hevaluation (.refl s) hchain "(lambda (z) x)", ?_, ?_, hcalled⟩
  · rw [hlog]
    exact List.mem_cons_of_mem _ List.mem_cons_self
  · rw [hlog]
    exact List.mem_cons_of_mem _ List.mem_cons_self

end TextLisp
