import Mathlib
import TextLisp.Proofs.Evaluator.Recorded

namespace TextLisp

/-- An evaluation removes no table and no name. -/
theorem keepsNames_evaluate (host : Host) (remaining depth : Nat) (env : Environment)
    (text : String) (s : Store) : s.KeepsNames (evaluate host remaining depth env text s).store :=
  (recordedAt_evaluate host remaining depth env text s).keepsNames

/-- Once the target is found, an assignment is the evaluation of its expression and the write. -/
theorem evaluate_assignment (host : Host) (remaining depth : Nat) {env : Environment} {s : Store}
    {text name expr : String} {owner : Owner}
    (hform : Text.splitForm text = .ok ["set!", name, expr]) (hname : isName name = true)
    (howner : env.owner? s name = some owner) :
    evaluate host (remaining + 1) depth env text s =
      (let body := (evaluate host remaining (depth + 1) env expr >>= overwrite owner name) s
      ⟨body.result, body.store, .evaluate depth (Text.trim text) :: body.log⟩) := by
  have hlocate : locate env name s = ⟨.ok owner, s, []⟩ := by
    simp [hname, howner]
  have hassign : evaluateAssign (evaluate host remaining (depth + 1)) env [name, expr] s =
      (evaluate host remaining (depth + 1) env expr >>= overwrite owner name) s :=
    Run.bind_of_ok hlocate
  rw [evaluate_of_splitForm hform, evaluateSiblings_assign, hassign]

theorem lookup_put_owner {env : Environment} {s : Store} (henv : env.IsValid s) {name : String}
    {owner : Owner} (howner : env.owner? s name = some owner) (value : Value) :
    env.lookup (s.put owner name value) name = some value := by
  have hbound := Environment.contains_of_owner? howner
  have hkeeps := Store.keepsNames_put (Or.inr hbound) value
  rw [Environment.lookup_eq_owner?, hkeeps.owner? henv howner, Option.bind_some,
    Store.get?_put hbound, if_pos ⟨rfl, rfl⟩]

theorem read_of_lookup {env : Environment} {s : Store} {name : String} {value : Value}
    (h : env.lookup s name = some value) (hvalue : ∀ target, value ≠ .aliasTo target) :
    env.read s name = .ok value := by
  simp [Environment.read, Environment.resolve, h, hvalue, Except.mapError]

/-- No evaluation adds a name to a frame that exists, or removes a name. So an assignment whose
target is found fails with the error of its expression, or because the expression has no value to
bind. Else it changes the slot that was found, and no other. -/
theorem assignment_writes_where_it_looked (host : Host) (remaining depth : Nat)
    (env : Environment) (s : Store) :
    (∀ text, s.KeepsNames (evaluate host remaining depth env text s).store) ∧
    ∀ text name expr owner, env.IsValid s → Text.splitForm text = .ok ["set!", name, expr] →
      isName name = true → env.owner? s name = some owner →
      let inner := evaluate host remaining (depth + 1) env expr s
      let outer := evaluate host (remaining + 1) depth env text s
      env.owner? inner.store name = some owner ∧
      (∀ e, inner.result = .error e → outer.result = .error e ∧ outer.store = inner.store) ∧
      ∀ value, inner.result = .ok value →
        (value.isUnspecified = true →
          outer.result = .error (.malformedForm "set!" .noValue) ∧ outer.store = inner.store) ∧
        (value.isUnspecified = false →
          outer.result = .ok .unspecified ∧
          inner.store.assign owner name value = .ok outer.store ∧
          (∀ other name', (outer.store.table other).get? name' =
            if other = owner ∧ name' = name then some value
            else (inner.store.table other).get? name') ∧
          env.lookup outer.store name = some value ∧
          ((∀ target, value ≠ .aliasTo target) → env.read outer.store name = .ok value)) := by
  refine ⟨fun text => keepsNames_evaluate host remaining depth env text s, ?_⟩
  intro text name expr owner henv hform hname howner inner outer
  -- The expression may bind globals, write the same slot or call anything that shares the tables,
  -- but the first table of the chain that has the name is the same afterwards.
  have hkeeps : s.KeepsNames inner.store :=
    keepsNames_evaluate host remaining (depth + 1) env expr s
  have howner' : env.owner? inner.store name = some owner := hkeeps.owner? henv howner
  have hbound := Environment.contains_of_owner? howner'
  have houter := evaluate_assignment host remaining depth hform hname howner
  change outer = _ at houter
  refine ⟨howner', ?_, ?_⟩
  · intro e he
    rw [houter, Run.bind_of_result_error he]
    exact ⟨rfl, rfl⟩
  · intro value hvalue
    rw [Run.bind_of_result_ok hvalue, overwrite_apply hbound] at houter
    constructor
    · intro hnone
      rw [houter, if_pos hnone]
      exact ⟨rfl, rfl⟩
    · intro hsome
      have hbindable : ¬ value.isUnspecified = true := Bool.eq_false_iff.mp hsome
      rw [if_neg hbindable] at houter
      have hresult : outer.result = .ok .unspecified := by rw [houter]
      have hstore : outer.store = inner.store.put owner name value := by rw [houter]
      have hlookup : env.lookup outer.store name = some value := by
        rw [hstore]
        exact lookup_put_owner (hkeeps.isValid henv) howner' value
      refine ⟨hresult, ?_, ?_, hlookup, read_of_lookup hlookup⟩
      · rw [hstore, Store.assign_of_contains hbound]
      · intro other name'
        rw [hstore]
        exact Store.get?_put hbound value other name'

/-- The expression assigns the same name, and the assignment around it is the last one. -/
theorem outer_assignment_is_last :
    let host : Host := fun _ _ => .ok .nil
    let s : Store := ⟨Table.empty, #[Table.ofList [("n", .nil)]], 0⟩
    let env : Environment := ⟨[0]⟩
    let o := evaluate host 5 0 env "(set! n (if (set! n (quote a)) (quote b) nil))" s
    o.result = .ok .unspecified ∧ env.lookup o.store "n" = some (.symbol "b") := by
  intro host s env o
  have hvalid : env.IsValid s := by
    intro index hmem
    obtain rfl := List.mem_singleton.mp hmem
    decide
  have hform : Text.splitForm "(set! n (if (set! n (quote a)) (quote b) nil))" =
      .ok ["set!", "n", "(if (set! n (quote a)) (quote b) nil)"] := by cbv
  have hname : isName "n" = true := by cbv
  have howner : env.owner? s "n" = some (.frame 0) := by cbv
  obtain ⟨-, hassign⟩ := assignment_writes_where_it_looked host 4 0 env s
  obtain ⟨-, -, hwrite⟩ := hassign _ _ _ _ hvalid hform hname howner
  obtain ⟨-, hwritten⟩ := hwrite (.symbol "b") (by cbv)
  obtain ⟨hresult, -, -, hlookup, -⟩ := hwritten rfl
  exact ⟨hresult, hlookup⟩

end TextLisp
