import Mathlib
import TextLisp.Proofs.Evaluator.Alike
import TextLisp.Proofs.Tree.Parse
import TextLisp.Proofs.Tree.Spelling

namespace TextLisp

open Run Text

def Procedure.IsReadable : Procedure → Prop
  | .primitive _ => True
  | .closure c => c.IsReadable

abbrev Procedure.Parses : Procedure → Procedure Code → Prop :=
  Procedure.Via Procedure.IsReadable Procedure.parse

abbrev Run.Parses : Run Value → RunOver Code (Value Code) → Prop :=
  Run.Alike Procedure.Parses (Value.Alike Procedure.Parses)

theorem indiscernible_parses : Procedure.Indiscernible Procedure.Parses where
  primitive h := h.2
  closure h := ⟨_, h.2⟩
  render {p q} h := by
    rw [h.2]
    cases p <;> rw [Procedure.parse, Value.render, Value.render]
  equal {p p' q q'} h h' := by
    rw [h.2, h'.2]
    cases p <;> cases p' <;> rfl

theorem parses_closure {c : Closure} (h : c.IsReadable) :
    ∃ names tree, parameterNames c.params = .ok names ∧ Tree.read c.body = .ok tree ∧
      Procedure.parse (.closure c) =
        .closure ⟨c.identity, c.params, ⟨names, c.body, tree⟩, c.env⟩ := by
  obtain ⟨hbody, names, hnames⟩ := h
  obtain ⟨tree, htree⟩ := Tree.exists_read hbody
  refine ⟨names, tree, hnames, htree, ?_⟩
  rw [Procedure.parse, Code.read_eq hnames htree]

theorem alike_evaluateQuote {operands : List String} {trees : List Tree}
    (h : List.Forall₂ Spells operands trees) :
    Run.Parses (evaluateQuote operands)
      (Tree.evaluateQuote trees) := by
  have hlength := h.length_eq
  rcases h with _ | ⟨hexpr, _ | _⟩
  case cons.nil =>
    rw [evaluateQuote, Tree.evaluateQuote, Tree.datum_eq_map_read, hexpr.2]
    exact alike_pure (Tree.alike_datum _)
  all_goals exact alike_refuseCount .quote 1 hlength

/-- The closure that is made of text can be read, and is the one that is made of trees. -/
theorem alike_makeClosure {params body : String} {paramsTree bodyTree : Tree} {names : List String}
    (hparams : Spells params paramsTree) (hbody : Spells body bodyTree)
    (hnames : parameterNames params = .ok names) (env : Environment) :
    Run.Parses (makeClosure params body env)
      (makeClosure paramsTree.text ⟨names, bodyTree.text, bodyTree⟩ env) := by
  intro s t hst
  rw [makeClosure_apply, makeClosure_apply, hparams.text_eq, hbody.text_eq, ← hst.nextClosure]
  have hreadable : Closure.IsReadable ⟨s.nextClosure, params, body, env⟩ :=
    ⟨Tree.isExpression_of_read hbody.2, names, hnames⟩
  have hparse : Procedure.parse (.closure ⟨s.nextClosure, params, body, env⟩) =
      .closure ⟨s.nextClosure, params, ⟨names, body, bodyTree⟩, env⟩ := by
    rw [Procedure.parse, Code.read_eq hnames hbody.2]
  refine ⟨.ok (.procedure ⟨hreadable, hparse.symm⟩), ?_, rfl⟩
  have hclosure := hst.closure
  rwa [← hst.nextClosure] at hclosure

theorem alike_evaluateLambda (env : Environment) {operands : List String} {trees : List Tree}
    (h : List.Forall₂ Spells operands trees) :
    Run.Parses (evaluateLambda env operands)
      (Tree.evaluateLambda env trees) := by
  have hlength := h.length_eq
  rcases h with _ | ⟨hparams, _ | ⟨hbody, _ | _⟩⟩
  -- Splitting the parameters again gives their names, or refuses them with the same error.
  case cons.cons.nil params paramsTree body bodyTree =>
    rw [evaluateLambda, Tree.evaluateLambda, parameterNames_of_spells hparams]
    cases hnames : paramsTree.parameterNames with
    | error e => exact alike_fail rfl
    | ok names =>
      rw [← parameterNames_of_spells hparams] at hnames
      exact alike_makeClosure hparams hbody hnames env
  all_goals exact alike_refuseCount .lambda 2 hlength

section

variable {descend : Descent} {descend' : Tree.TreeDescent}
  (hd : ∀ env text tree, Tree.read text = .ok tree →
    Run.Parses (descend env text)
      (descend' env tree))
include hd

theorem alike_evaluateDefine (env : Environment) {operands : List String} {trees : List Tree}
    (h : List.Forall₂ Spells operands trees) :
    Run.Parses
      (evaluateDefine descend env operands) (Tree.evaluateDefine descend' env trees) := by
  have hlength := h.length_eq
  rcases h with _ | ⟨hname, _ | ⟨hexpr, _ | _⟩⟩
  case cons.cons.nil =>
    rw [evaluateDefine, Tree.evaluateDefine, hname.text_eq]
    apply (alike_requireNew _).bind_eq
    intro _
    apply (hd env _ _ hexpr.2).bind
    intro value value' hvalue
    exact alike_bindGlobal indiscernible_parses _ hvalue
  all_goals exact alike_refuseCount .define 2 hlength

theorem alike_evaluateAssign (env : Environment) {operands : List String} {trees : List Tree}
    (h : List.Forall₂ Spells operands trees) :
    Run.Parses
      (evaluateAssign descend env operands) (Tree.evaluateAssign descend' env trees) := by
  have hlength := h.length_eq
  rcases h with _ | ⟨hname, _ | ⟨hexpr, _ | _⟩⟩
  case cons.cons.nil =>
    rw [evaluateAssign, Tree.evaluateAssign, hname.text_eq]
    apply (alike_locate env _).bind_eq
    intro owner
    apply (hd env _ _ hexpr.2).bind
    intro value value' hvalue
    exact alike_overwrite indiscernible_parses owner _ hvalue
  all_goals exact alike_refuseCount .assign 2 hlength

/-- Reading the parameters and the body again gives what was read when the closure was made. -/
theorem alike_applyClosure (env : Environment) {c : Closure} {c' : Closure Code}
    (hc : Procedure.Parses (.closure c) (.closure c')) {args : List Value}
    {args' : List (Value Code)} (h : List.Forall₂ (Value.Alike Procedure.Parses) args args') :
    Run.Parses (applyClosure descend env c args)
      (Tree.applyClosure descend' env c' args') := by
  obtain ⟨hreadable, hparse⟩ := hc
  obtain ⟨names, tree, hnames, htree, hclosure⟩ := parses_closure hreadable
  rw [hclosure] at hparse
  obtain rfl := Procedure.closure.inj hparse
  -- What the call of the text splits now is what the tree has held all along.
  unfold applyClosure Tree.applyClosure
  rw [hnames]
  apply (alike_enterClosure (env.splice c.env) c.params c.body names h).bind_eq
  intro inner
  exact hd inner c.body tree htree

theorem alike_evaluateSiblings {host : Host} {host' : Host Code}
    (hhost : host.Alike Procedure.Parses host')
    (env : Environment) (text : String) {siblings : List String} {trees : List Tree}
    (h : List.Forall₂ Spells siblings trees) :
    Run.Parses
      (evaluateSiblings host descend env text siblings)
      (Tree.evaluateSiblings host' descend' env text trees) := by
  have hd' (env : Environment) (text : String) (tree : Tree) (hspells : Spells text tree) :
      Run.Parses (descend env text)
        (descend' env tree) :=
    hd env text tree hspells.2
  cases h with
  | nil => exact alike_fail rfl
  | cons hhead hoperands =>
    -- Keywords are told by the text of the head, and its tree has the same text.
    rw [evaluateSiblings, Tree.evaluateSiblings, hhead.text_eq]
    generalize Keyword.ofText? _ = keyword
    cases keyword with
    | some keyword =>
      cases keyword with
      | define => exact alike_evaluateDefine hd env hoperands
      | conditional => exact alike_evaluateConditional hd' env hoperands
      | quote => exact alike_evaluateQuote hoperands
      | lambda => exact alike_evaluateLambda env hoperands
      | assign => exact alike_evaluateAssign hd env hoperands
    | none =>
      exact alike_evaluateApplication hd' indiscernible_parses hhost
        (fun _ _ _ _ hc hargs => alike_applyClosure hd env hc hargs) env hhead hoperands

theorem alike_evaluateText {host : Host} {host' : Host Code}
    (hhost : host.Alike Procedure.Parses host')
    (depth : Nat) (env : Environment) {text : String} {tree : Tree}
    (h : Tree.read text = .ok tree) :
    Run.Parses
      (evaluateText host descend depth env text)
      (Tree.evaluateTree host' descend' depth env tree) := by
  unfold evaluateText Tree.evaluateTree
  rw [Tree.text_of_read h]
  apply (alike_record _).bind_eq
  intro _
  cases hbracketed : isBracketed (trim text) with
  | true =>
    obtain ⟨siblings, children, hsiblings, rfl, hchildren⟩ := Tree.eq_node_of_read h hbracketed
    rw [if_pos rfl, evaluateForm, splitForm_trim, hsiblings]
    exact alike_evaluateSiblings hd hhost env _ hchildren
  | false =>
    obtain ⟨rfl, -⟩ := Tree.eq_atom_of_read h hbracketed
    exact alike_evaluateAtom env (trim text)

end

theorem alike_evaluate {host : Host} {host' : Host Code}
    (hhost : host.Alike Procedure.Parses host')
    (remaining depth : Nat) (env : Environment) {text : String} {tree : Tree}
    (h : Tree.read text = .ok tree) :
    Run.Parses
      (evaluate host remaining depth env text)
      (Tree.evaluate host' remaining depth env tree) := by
  -- What is evaluated on the next level has been read before, as a part of this tree or as the
  -- tree of a closure.
  induction remaining generalizing depth env text tree with
  | zero => exact alike_fail rfl
  | succ remaining ih =>
    exact alike_evaluateText (fun env _ _ hread => ih (depth + 1) env hread) hhost depth env h

theorem unparse_parse (p : Procedure) : p.parse.unparse = p := by
  cases p with
  | primitive p => rfl
  | closure c =>
    rw [Procedure.parse, Procedure.unparse, Code.text_read]

/-- The procedures of the embedding program make no closures but readable ones. -/
def Host.IsReadable (host : Host) : Prop :=
  ∀ name args, (∀ v ∈ args, v.Within Procedure.IsReadable) →
    Yields (fun _ => True) (Value.Within Procedure.IsReadable) (host name args)

theorem Host.IsReadable.alike_parse {host : Host} (h : host.IsReadable) :
    host.Alike Procedure.Parses host.parse := by
  intro name args args' hargs
  -- The host is given the very arguments that it is given by the evaluator of text.
  have hsame : args'.map (Value.mapProcedures Procedure.unparse) = args := by
    rw [Value.AlikeWhere.eq_mapItems (fun _ _ hp => hp.2) hargs, ← Value.mapItems_eq_map,
      Value.mapItems_mapItems unparse_parse]
  have hresult := h name args (Value.AlikeWhere.within_items (fun _ _ hp => hp.1) hargs)
  unfold Host.parse
  rw [hsame]
  generalize host name args = r at hresult ⊢
  cases hresult with
  | ok hvalue => exact .ok hvalue.alike_mapProcedures
  | error _ => exact .error trivial

/-- Splitting text again and again does what reading it once and evaluating trees does. From a store
of which the closures can be read, an expression has the same value or error, leaves the same store
and makes the same log, and the closures that it leaves can be read as well. -/
theorem splitting_again_is_reading_once {host : Host} (hhost : host.IsReadable) {s : Store}
    (hs : s.Within Procedure.IsReadable) {text : String} (htext : IsExpression text)
    (env : Environment) (remaining depth : Nat) :
    ∃ tree, Tree.read text = .ok tree ∧
      let o := evaluate host remaining depth env text s
      let o' := Tree.evaluate host.parse remaining depth env tree s.parse
      o'.result = o.result.map Value.parse ∧ o'.store = o.store.parse ∧ o'.log = o.log ∧
        o.store.Within Procedure.IsReadable := by
  obtain ⟨tree, htree⟩ := Tree.exists_read htext
  have hrun := alike_evaluate hhost.alike_parse remaining depth env htree
  obtain ⟨hresult, hstore, hlog⟩ := hrun s s.parse hs.alike_mapProcedures
  -- Alike is equal here: a store, or a value, is alike to its own reading and to no other.
  refine ⟨tree, htree, ?_, hstore.eq_mapProcedures, hlog.symm,
    hstore.within fun _ _ hp => hp.1⟩
  generalize (evaluate host remaining depth env text s).result = r at hresult ⊢
  generalize (Tree.evaluate host.parse remaining depth env tree s.parse).result = r' at hresult ⊢
  cases hresult with
  | ok hvalue => exact congrArg Except.ok (hvalue.eq_mapProcedures fun _ _ hp => hp.2)
  | error _ => rfl

/-- A call, from a store that holds a closure. -/
theorem reading_once_evaluates_call :
    let host : Host := fun _ _ => .ok .nil
    let s := Store.ofGlobals (Table.ofList [("f", .procedure (.closure ⟨0, "(x)", "x", ⟨[]⟩⟩))])
    let text := "((lambda (x) (quote b)) (quote a))"
    ∃ tree, Tree.read text = .ok tree ∧
      (Tree.evaluate host.parse 3 0 .empty tree s.parse).result = .ok (.symbol "b") := by
  intro host s text
  have hhost : host.IsReadable := fun _ _ _ => .ok .nil
  have hclosure : Closure.IsReadable ⟨0, "(x)", "x", ⟨[]⟩⟩ := ⟨Or.inl (by cbv), ["x"], by cbv⟩
  have hs : s.Within Procedure.IsReadable := by
    apply Store.within_ofGlobals
    apply Table.within_ofList
    intro binding hmem
    obtain rfl := List.mem_singleton.mp hmem
    exact .procedure hclosure
  have htext : IsExpression text := Or.inr ⟨["(lambda (x) (quote b))", "(quote a)"], by cbv⟩
  obtain ⟨tree, htree, hresult, -⟩ := splitting_again_is_reading_once hhost hs htext .empty 3 0
  have hvalue : (evaluate host 3 0 .empty text s).result = .ok (.symbol "b") := by cbv
  refine ⟨tree, htree, ?_⟩
  rw [hresult, hvalue]
  rfl

end TextLisp
