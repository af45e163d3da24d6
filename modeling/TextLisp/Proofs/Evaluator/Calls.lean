import TextLisp.Proofs.Evaluator.Recorded
import TextLisp.Proofs.Evaluator.Causes
import TextLisp.Proofs.Evaluator.Counts
import TextLisp.Proofs.Evaluator.Resumed
import TextLisp.Proofs.Store.Scope
import TextLisp.Proofs.Store.Sharing

namespace TextLisp

def Closure.IsMade (c : Closure) : Prop :=
  ∃ env operands s, (evaluateLambda env operands s).result = .ok (.procedure (.closure c))

/-- A list of parameters that `lambda` has accepted is one. -/
theorem Closure.IsMade.exists_names {c : Closure} (h : c.IsMade) :
    ∃ names, parameterNames c.params = .ok names := by
  obtain ⟨env, operands, s, hmade⟩ := h
  unfold evaluateLambda at hmade
  split at hmade
  next params body =>
    rw [Run.bind_ofExcept] at hmade
    cases hnames : parameterNames params with
    | error e =>
      rw [hnames] at hmade
      cases hmade
    | ok names =>
      rw [hnames] at hmade
      cases hmade
      exact ⟨names, hnames⟩
  · cases hmade

section

variable {β : Type}

/-- The chain that the body of a call is evaluated in. Without parameters there is no table for
them. -/
def Environment.forCall (env captured : Environment) (names : List String) (s : Store β) :
    Environment :=
  if names = [] then env.splice captured else (env.splice captured).push s.frames.size

def Store.forCall (s : Store β) (names : List String) (args : List (Value β)) : Store β :=
  if names = [] then s else s.addFrame (Table.ofList (names.zip args))

/-- How a call puts its scope together: the tables of the caller and of the closure are in it as they
are, with the one for the parameters in front, and this is what names mean there. -/
structure IsCallScope (env captured : Environment) (names : List String) (args : List (Value β))
    (s : Store β) (inner : Environment) (s₁ : Store β) : Prop where
  frames : inner.frames =
    (if names = [] then [] else [s.frames.size]) ++ (env.frames ++ captured.frames)
  size : s₁.frames.size = s.frames.size + if names = [] then 0 else 1
  kept : ∀ owner, s.HasTable owner → s₁.table owner = s.table owner
  parameter : ∀ (i : Nat) name arg, names[i]? = some name → args[i]? = some arg →
    inner.lookup s₁ name = some arg
  other : ∀ name ∉ names, inner.lookup s₁ name =
    (env.callOwner? captured s name).bind fun owner => (s.table owner).get? name
  /-- Chains from before the call do not have the parameters in them. -/
  outside : ∀ chain : Environment, chain.IsValid s → ∀ name,
    chain.owner? s₁ name = chain.owner? s name ∧ chain.lookup s₁ name = chain.lookup s name

/-- What owns a name in the course of a call, in a store that the body has come to. -/
structure IsCallOwned (env captured : Environment) (names : List String) (s : Store β)
    (inner : Environment) (s₂ : Store β) : Prop where
  parameter : ∀ name ∈ names, inner.owner? s₂ name = some (.frame s.frames.size)
  other : ∀ name ∉ names, inner.owner? s₂ name = env.callOwner? captured s₂ name
  kept : ∀ name owner, env.callOwner? captured s name = some owner →
    env.callOwner? captured s₂ name = some owner

variable {env captured : Environment} {names : List String} {args : List (Value β)}
  {s s₂ : Store β} {name : String}

/-- Entering a closure leaves the chain and the store of the call, and records the call. -/
theorem enterClosure_forCall (hlength : args.length = names.length) (env captured : Environment)
    (params body : String) (s : Store β) :
    enterClosure (env.splice captured) params body names args s =
      ⟨.ok (env.forCall captured names s), s.forCall names args,
        [.apply params args.length body]⟩ := by
  rw [enterClosure_apply, if_pos hlength, Environment.forCall, Store.forCall]
  split <;> rfl

theorem keepsNames_forCall (s : Store β) (names : List String) (args : List (Value β)) :
    s.KeepsNames (s.forCall names args) := by
  unfold Store.forCall
  split
  · exact .refl s
  · exact Store.keepsNames_addFrame s _

theorem table_forCall {owner : Owner} (h : s.HasTable owner) (names : List String)
    (args : List (Value β)) : (s.forCall names args).table owner = s.table owner := by
  unfold Store.forCall
  split
  · rfl
  · exact Store.table_addFrame h _

theorem owner?_forCall {chain : Environment} (hchain : chain.IsValid s) (names : List String)
    (args : List (Value β)) (name : String) :
    chain.owner? (s.forCall names args) name = chain.owner? s name := by
  have hglobals : s.HasTable .globals := trivial
  have hsame : (s.forCall names args).globals = s.globals := table_forCall hglobals names args
  unfold Environment.owner?
  rw [(keepsNames_forCall s names args).frame? hchain, hsame]

theorem lookup_forCall {chain : Environment} (hchain : chain.IsValid s) (names : List String)
    (args : List (Value β)) (name : String) :
    chain.lookup (s.forCall names args) name = chain.lookup s name := by
  rw [Environment.lookup_eq_owner?, Environment.lookup_eq_owner?, owner?_forCall hchain]
  cases hfound : chain.owner? s name with
  | none => rfl
  | some owner =>
    have htable : s.HasTable owner :=
      Store.hasTable_of_contains (Environment.contains_of_owner? hfound)
    rw [Option.bind_some, Option.bind_some, table_forCall htable]

section

variable (hnodup : names.Nodup) (hlength : args.length = names.length)
include hnodup hlength

/-- However far the body has come, the table of the parameters has their names and no others. -/
theorem contains_forCall (hne : names ≠ []) (hkeeps : (s.forCall names args).KeepsNames s₂)
    (name : String) : (s₂.frame s.frames.size).contains name = true ↔ name ∈ names := by
  have hstore : s.forCall names args = s.addFrame (Table.ofList (names.zip args)) := if_neg hne
  rw [hstore] at hkeeps
  have hlt : s.frames.size < (s.addFrame (Table.ofList (names.zip args))).frames.size := by
    simp [Store.addFrame]
  rw [hkeeps.contains_frame hlt]
  simpa using Table.contains_ofList_zip_iff hnodup hlength

/-- However far the body has come, the new table owns the parameters. -/
theorem owner?_forCall_of_mem (hkeeps : (s.forCall names args).KeepsNames s₂)
    (hmem : name ∈ names) (env captured : Environment) :
    (env.forCall captured names s).owner? s₂ name = some (.frame s.frames.size) := by
  have hne : names ≠ [] := List.ne_nil_of_mem hmem
  rw [Environment.forCall, if_neg hne]
  apply Environment.owner?_push_of_contains
  exact (contains_forCall hnodup hlength hne hkeeps name).mpr hmem

/-- What is no parameter is owned as if there were no call: by a table of the caller, else by a
captured one. -/
theorem owner?_forCall_of_notMem (hkeeps : (s.forCall names args).KeepsNames s₂)
    (hnotMem : name ∉ names) (env captured : Environment) :
    (env.forCall captured names s).owner? s₂ name = env.callOwner? captured s₂ name := by
  rw [Environment.forCall, ← Environment.owner?_splice]
  by_cases hne : names = []
  · rw [if_pos hne]
  · rw [if_neg hne]
    apply Environment.owner?_push_of_not_contains
    rw [← Bool.not_eq_true, contains_forCall hnodup hlength hne hkeeps]
    exact hnotMem

theorem isCallOwned (henv : env.IsValid s) (hcaptured : captured.IsValid s)
    (hkeeps : (s.forCall names args).KeepsNames s₂) :
    IsCallOwned env captured names s (env.forCall captured names s) s₂ where
  parameter _ hmem := owner?_forCall_of_mem hnodup hlength hkeeps hmem env captured
  other _ hnotMem := owner?_forCall_of_notMem hnodup hlength hkeeps hnotMem env captured
  kept name owner howner := by
    rw [← Environment.owner?_splice] at howner ⊢
    have hvalid := Environment.isValid_splice henv hcaptured
    exact ((keepsNames_forCall s names args).trans hkeeps).owner? hvalid howner

theorem isCallScope (henv : env.IsValid s) (hcaptured : captured.IsValid s) :
    IsCallScope env captured names args s (env.forCall captured names s)
      (s.forCall names args) where
  frames := by
    unfold Environment.forCall
    split <;> rfl
  size := by
    unfold Store.forCall
    split
    · rfl
    · exact Array.size_push _
  kept _ howner := table_forCall howner names args
  parameter i name arg hname harg := by
    have hmem : name ∈ names := List.mem_of_getElem? hname
    have hstore : s.forCall names args = s.addFrame (Table.ofList (names.zip args)) :=
      if_neg (List.ne_nil_of_mem hmem)
    rw [Environment.lookup_eq_owner?, owner?_forCall_of_mem hnodup hlength (.refl _) hmem,
      Option.bind_some, hstore]
    change ((s.addFrame _).frame s.frames.size).get? name = some arg
    simpa using Table.get?_ofList_zip hnodup hlength hname harg
  other name hnotMem := by
    have hvalid := Environment.isValid_splice henv hcaptured
    have howner : (env.forCall captured names s).owner? (s.forCall names args) name =
        (env.splice captured).owner? (s.forCall names args) name := by
      rw [owner?_forCall_of_notMem hnodup hlength (.refl _) hnotMem, Environment.owner?_splice]
    calc
      (env.forCall captured names s).lookup (s.forCall names args) name
        = (env.splice captured).lookup (s.forCall names args) name := by
          rw [Environment.lookup_eq_owner?, howner, ← Environment.lookup_eq_owner?]
      _ = (env.splice captured).lookup s name := lookup_forCall hvalid names args name
      _ = (env.callOwner? captured s name).bind fun owner => (s.table owner).get? name := by
          rw [Environment.lookup_eq_owner?, Environment.owner?_splice]
  outside chain hchain name :=
    ⟨owner?_forCall hchain names args name, lookup_forCall hchain names args name⟩

end

end

/-- Through every chain that has the name in the slot that is written, the new value shows. -/
theorem Evaluation.Overwrites.lookup {host : Host} {w : Evaluation} {owner : Owner} {name : String}
    {value : Value} (h : w.Overwrites host owner name value) {chain : Environment}
    (hchain : chain.IsValid w.store) (howner : chain.owner? w.store name = some owner) :
    chain.lookup (w.outcome host).store name = some value := by
  obtain ⟨-, v, hstore, -, hbound, hput⟩ := h.exists_put
  rw [← hstore] at hchain howner
  have hkeeps : v.store.KeepsNames (v.outcome host).store :=
    keepsNames_evaluate host v.remaining v.depth v.env v.text v.store
  rw [hput, Environment.lookup_put hbound, if_pos ⟨rfl, hkeeps.owner? hchain howner⟩]

/-- A call with the right number of arguments is the evaluation of the body in the scope of the
call. -/
theorem applyClosure_of_length_eq {c : Closure} {names : List String}
    (hnames : parameterNames c.params = .ok names) {args : List Value}
    (hlength : args.length = names.length) (descend : Descent) (env : Environment) (s : Store) :
    applyClosure descend env c args s =
      (descend (env.forCall c.env names s) c.body (s.forCall names args)).behind
        [.apply c.params args.length c.body] := by
  rw [applyClosure, Run.bind_ofExcept, hnames]
  exact Run.bind_eq_behind (enterClosure_forCall hlength env c.env c.params c.body s)

/-- A closure that a `lambda` has made takes as many arguments as it has parameters. With any other
number a call fails at once. It fails with this arity and count in no other case, if the procedures
of the embedding program report arities truly. Else the body is evaluated in a scope that has the
parameters first, then what the caller has, then what the closure has captured, and then the globals.
A `set!` in that scope writes the table of this call if its name is a parameter. If not, it writes
the table that the order of the scope finds. The value shows through all chains that share the table.
Chains are handles to tables that exist, as all are in the stores that are reached. -/
theorem call_scope_is_parameters_caller_captured (c : Closure) (hmade : c.IsMade) :
    ∃ names, parameterNames c.params = .ok names ∧
      ∀ (env : Environment) (args : List Value) (s : Store),
        (∀ descend, applyClosure descend env c args s =
            ⟨.error (.arityMismatch (.exact names.length) args.length), s, []⟩ ↔
          args.length ≠ names.length) ∧
        (∀ host remaining depth, host.CountsTruly →
          ((applyClosure (evaluate host remaining depth) env c args s).result =
              .error (.arityMismatch (.exact names.length) args.length) ↔
            args.length ≠ names.length)) ∧
        (env.IsValid s → c.env.IsValid s → args.length = names.length →
          let inner := env.forCall c.env names s
          let s₁ := s.forCall names args
          (∀ descend, applyClosure descend env c args s =
            (descend inner c.body s₁).behind [.apply c.params args.length c.body]) ∧
          IsCallScope env c.env names args s inner s₁ ∧
          ∀ host remaining depth log w,
            Evaluation.Begins host ⟨remaining, depth, inner, c.body, s₁⟩ log w →
            IsCallOwned env c.env names s inner w.store ∧
            ∀ owner name value, w.env = inner → w.Overwrites host owner name value →
              (name ∈ names → owner = .frame s.frames.size) ∧
              (name ∉ names → env.callOwner? c.env w.store name = some owner) ∧
              ∀ chain : Environment, chain.IsValid w.store →
                chain.owner? w.store name = some owner →
                chain.lookup (w.outcome host).store name = some value) := by
  obtain ⟨names, hnames⟩ := hmade.exists_names
  have hnodup : names.Nodup := (distinct_of_parameterNames hnames).1
  refine ⟨names, hnames, ?_⟩
  intro env args s
  refine ⟨?_, ?_, ?_⟩
  · intro descend
    constructor
    · -- A call that goes on to the body leaves a record of it.
      intro hrefused hlength
      rw [applyClosure_of_length_eq hnames hlength] at hrefused
      cases congrArg Outcome.log hrefused
    · exact fun hlength => applyClosure_of_length_ne hnames hlength descend env s
  · intro host remaining depth hhost
    constructor
    · intro hrefused hlength
      exact not_accepts_of_applyClosure hhost hrefused hlength
    · intro hlength
      rw [applyClosure_of_length_ne hnames hlength]
  · intro henv hcaptured hlength inner s₁
    refine ⟨?_, isCallScope hnodup hlength henv hcaptured, ?_⟩
    · exact fun descend => applyClosure_of_length_eq hnames hlength descend env s
    · intro host remaining depth log w hbegins
      have howned : IsCallOwned env c.env names s inner w.store :=
        isCallOwned hnodup hlength henv hcaptured hbegins.history.keepsNames
      refine ⟨howned, ?_⟩
      intro owner name value hinner hwrites
      have htarget : inner.owner? w.store name = some owner := hinner ▸ hwrites.target
      refine ⟨?_, ?_, ?_⟩
      · intro hmem
        exact Option.some.inj (htarget.symm.trans (howned.parameter name hmem))
      · intro hnotMem
        rw [← howned.other name hnotMem, htarget]
      · exact fun chain hchain howner => hwrites.lookup hchain howner

/-- The caller and the closure both have `y`, and the body assigns what the caller has. -/
theorem call_assigns_what_its_caller_has :
    let host : Host := fun _ _ => .ok .nil
    let c : Closure := ⟨0, "(x)", "(set! y x)", ⟨[1, 0]⟩⟩
    let s : Store :=
      ⟨Table.empty, #[Table.ofList [("y", .symbol "a")], Table.ofList [("y", .symbol "b")]], 1⟩
    let o := applyClosure (evaluate host 2 1) ⟨[0]⟩ c [.symbol "new"] s
    c.IsMade ∧ Environment.IsValid ⟨[0]⟩ s ∧ c.env.IsValid s ∧
      (applyClosure (evaluate host 2 1) ⟨[0]⟩ c [] s).result = .error (.arityMismatch (.exact 1) 0) ∧
      o.result = .ok .unspecified ∧
      Environment.lookup ⟨[0]⟩ o.store "y" = some (.symbol "new") ∧
      Environment.lookup ⟨[2, 0, 1, 0]⟩ (s.addFrame (Table.ofList [("x", .symbol "new")])) "y" =
        some (.symbol "a") := by
  intro host c s o
  have hmade : c.IsMade := ⟨⟨[1, 0]⟩, ["(x)", "(set! y x)"], ⟨Table.empty, #[], 0⟩, by cbv⟩
  have hcaller : Environment.IsValid ⟨[0]⟩ s := by decide
  have hcaptured : c.env.IsValid s := by decide
  have hhost : host.CountsTruly := by
    intro name args e herror
    cases herror
  obtain ⟨names, hnames, hcalls⟩ := call_scope_is_parameters_caller_captured c hmade
  have hx : parameterNames c.params = .ok ["x"] := by cbv
  obtain rfl : names = ["x"] := Except.ok.inj (hnames.symm.trans hx)
  obtain ⟨-, hrefused, -⟩ := hcalls ⟨[0]⟩ [] s
  obtain ⟨-, -, hscope⟩ := hcalls ⟨[0]⟩ [.symbol "new"] s
  obtain ⟨hcall, hcallScope, hbody⟩ := hscope hcaller hcaptured rfl
  -- The body is a `set!` of a name that is no parameter.
  let s₁ := s.forCall ["x"] [.symbol "new"]
  let w : Evaluation := ⟨2, 1, Environment.forCall ⟨[0]⟩ c.env ["x"] s, c.body, s₁⟩
  have hform : Text.splitForm c.body = .ok ["set!", "y", "x"] := by cbv
  have howner : w.env.owner? s₁ "y" = some (.frame 0) := by cbv
  have hnew : w.env.lookup s₁ "x" = some (.symbol "new") := hcallScope.parameter 0 "x" _ rfl rfl
  have htrim : Text.trim "x" = "x" := by cbv
  have hatom : Text.isAtom (Text.trim "x") = true := by cbv
  have hvalue : evaluate host 1 2 w.env "x" s₁ =
      ⟨.ok (.symbol "new"), s₁, [.evaluate 2 "x"]⟩ := by
    rw [evaluate_atom hatom, htrim, atomValue_of_lookup (htrim ▸ hatom) hnew (by simp)]
  have hwrites : w.Overwrites host (.frame 0) "y" (.symbol "new") :=
    (overwrites_of_evaluate hform (by cbv) howner hvalue rfl).1
  obtain ⟨-, hassigned⟩ := hbody host 2 1 [] w (.itself w)
  obtain ⟨-, -, hshows⟩ := hassigned _ _ _ rfl hwrites
  have hlast : o = (w.outcome host).behind [.apply c.params 1 c.body] := hcall _
  refine ⟨hmade, hcaller, hcaptured, ?_, ?_, ?_, ?_⟩
  · exact (hrefused host 2 1 hhost).mpr (by decide)
  · rw [hlast, Outcome.behind]
    dsimp only
    exact hwrites.result
  · rw [hlast, Outcome.behind]
    dsimp only
    exact hshows ⟨[0]⟩ (by decide) (by cbv)
  · exact (hcallScope.other "y" (by decide)).trans (by cbv)

end TextLisp
