import Mathlib
import TextLisp.Proofs.Evaluator.Discipline
import TextLisp.Proofs.Evaluator.Recorded

namespace TextLisp

variable {α β γ ε : Type}

namespace Outcome

/-- Ended because no level was left. -/
def IsCut (o : Outcome α β) : Prop :=
  ∃ limit, o.result = .error (.depthExceeded limit)

/-- The second outcome is the first one, or it is what comes of going on where the first one was
cut off. -/
def Deepens (o o' : Outcome α β) : Prop :=
  o' = o ∨ o.IsCut ∧ ∃ rest, o'.log = o.log ++ rest ∧ o.store.History rest o'.store

/-- What is not cut off ends the same way at the higher limit. -/
theorem Deepens.eq_of_not_isCut {o o' : Outcome α β} (h : o.Deepens o') (hcut : ¬ o.IsCut) :
    o' = o :=
  h.resolve_right fun hright => hcut hright.1

/-- The higher limit adds records behind those that are there, and the store goes on from where it
was. -/
theorem Deepens.exists_rest {o o' : Outcome α β} (h : o.Deepens o') :
    ∃ rest, o'.log = o.log ++ rest ∧ o.store.History rest o'.store := by
  obtain rfl | ⟨-, hrest⟩ := h
  · exact ⟨[], (List.append_nil _).symm, .start⟩
  · exact hrest

end Outcome

namespace Run

def DeepensAt (x y : RunOver β α) (s : Store β) : Prop :=
  (x s).Deepens (y s)

theorem DeepensAt.refl (x : RunOver β α) (s : Store β) : DeepensAt x x s :=
  Or.inl rfl

/-- A computation without levels is cut off at once. -/
theorem deepensAt_fail_depthExceeded {limit : Nat} {y : RunOver β α} {s : Store β}
    (hy : RecordedAt y s) : DeepensAt (fail (.depthExceeded limit)) y s :=
  Or.inr ⟨⟨limit, rfl⟩, (y s).log, rfl, hy⟩

/-- One first part for both: only what follows it has to be compared. -/
theorem DeepensAt.bind_same {x : RunOver β α} {f g : α → RunOver β γ} {s : Store β}
    (hfg : ∀ a s₁ log, x s = ⟨.ok a, s₁, log⟩ → DeepensAt (f a) (g a) s₁) :
    DeepensAt (x >>= f) (x >>= g) s := by
  unfold DeepensAt
  -- The shared first part contributes the same records, so a prefix behind it stays a prefix.
  rcases hx : x s with ⟨e | a, s₁, log⟩
  · rw [bind_of_error hx, bind_of_error hx]
    exact Or.inl rfl
  · rw [bind_of_ok hx, bind_of_ok hx]
    obtain heq | ⟨hcut, rest, hlog, hhistory⟩ := hfg a s₁ log hx
    · rw [heq]
      exact Or.inl rfl
    · refine Or.inr ⟨hcut, rest, ?_, hhistory⟩
      rw [hlog, List.append_assoc]

/-- No error on the way up is swallowed: when the first part is cut off, so is the whole. -/
theorem DeepensAt.bind {x y : RunOver β α} {f g : α → RunOver β γ} {s : Store β}
    (hxy : DeepensAt x y s)
    (hg : ∀ a s₁ log, y s = ⟨.ok a, s₁, log⟩ → RecordedAt (g a) s₁)
    (hfg : ∀ a s₁ log, x s = ⟨.ok a, s₁, log⟩ → DeepensAt (f a) (g a) s₁) :
    DeepensAt (x >>= f) (y >>= g) s := by
  obtain heq | ⟨⟨limit, hcut⟩, rest, hlog, hhistory⟩ := hxy
  · have hsame : (y >>= g) s = (x >>= g) s := by
      change Run.bind y g s = Run.bind x g s
      rw [Run.bind, Run.bind, heq]
    unfold DeepensAt
    rw [hsame]
    exact DeepensAt.bind_same hfg
  · have hshallow := bind_of_result_error (f := f) hcut
    have hcut' : ((x >>= f) s).IsCut := ⟨limit, by rw [hshallow]⟩
    refine Or.inr ⟨hcut', ?_⟩
    rw [hshallow]
    rcases hy : y s with ⟨e | a, s₁, log⟩
    · rw [hy] at hlog hhistory
      rw [bind_of_error hy]
      exact ⟨rest, hlog, hhistory⟩
    · have hlast := hg a s₁ log hy
      rw [hy] at hlog hhistory
      rw [bind_of_ok hy]
      refine ⟨rest ++ (g a s₁).log, ?_, hhistory.trans hlast⟩
      rw [← List.append_assoc, ← hlog]

end Run

open Run

section

variable {descend descend' : Descent ε β}
  (hd : ∀ env expr s, DeepensAt (descend env expr) (descend' env expr) s)
  (hr : ∀ env expr s, RecordedAt (descend' env expr) s)
include hd hr

theorem deepensAt_evaluateConditional (env : Environment) (operands : List ε) (s : Store β) :
    DeepensAt (evaluateConditional descend env operands) (evaluateConditional descend' env operands)
      s := by
  unfold evaluateConditional
  split
  · apply (hd env _ s).bind
    · intro value s₁ _ _
      exact hr env _ s₁
    · intro value s₁ _ _
      exact hd env _ s₁
  · exact DeepensAt.refl _ s

theorem deepensAt_evaluateOperands (env : Environment) (operands : List ε) (s : Store β) :
    DeepensAt (evaluateOperands descend env operands) (evaluateOperands descend' env operands)
      s := by
  induction operands generalizing s with
  | nil => exact DeepensAt.refl _ s
  | cons operand operands ih =>
    apply (hd env operand s).bind
    · intro value s₁ _ _
      apply (recordedAt_evaluateOperands hr env operands s₁).bind
      intro values s₂ _ _
      exact recordedAt_of_apply (pure_apply (value :: values) s₂)
    · intro value s₁ _ _
      apply (ih s₁).bind
      · intro values s₂ _ _
        exact recordedAt_of_apply (pure_apply (value :: values) s₂)
      · intro values s₂ _ _
        exact DeepensAt.refl _ s₂

theorem deepensAt_evaluateApplication (host : Host β)
    {call call' : Closure β → List (Value β) → RunOver β (Value β)}
    (hcall : ∀ c args s, DeepensAt (call c args) (call' c args) s)
    (hcall' : ∀ c args s, RecordedAt (call' c args) s) (env : Environment) (head : ε)
    (operands : List ε) (s : Store β) :
    DeepensAt (evaluateApplication host call descend env head operands)
      (evaluateApplication host call' descend' env head operands) s := by
  apply (hd env head s).bind
  · intro value s₁ _ _
    exact recordedAt_applyHead hr host hcall' env operands value s₁
  · intro value s₁ _ _
    cases value with
    | procedure p =>
      -- Operands come before the call, so either may be what is cut off.
      apply (deepensAt_evaluateOperands hd hr env operands s₁).bind
      · intro args s₂ _ _
        exact recordedAt_applyProcedure host hcall' args p s₂
      · intro args s₂ _ _
        cases p with
        | primitive p => exact DeepensAt.refl _ s₂
        | closure c => exact hcall c args s₂
    | _ => exact DeepensAt.refl _ s₁

end

section

variable {descend descend' : Descent}
  (hd : ∀ env text s, DeepensAt (descend env text) (descend' env text) s)
  (hr : ∀ env text s, RecordedAt (descend' env text) s)
include hd

theorem deepensAt_applyClosure (env : Environment) (c : Closure) (args : List Value) (s : Store) :
    DeepensAt (applyClosure descend env c args) (applyClosure descend' env c args) s := by
  apply DeepensAt.bind_same
  intro names s₁ _ _
  apply DeepensAt.bind_same
  intro inner s₂ _ _
  exact hd inner c.body s₂

theorem deepensAt_evaluateDefine (env : Environment) (operands : List String) (s : Store) :
    DeepensAt (evaluateDefine descend env operands) (evaluateDefine descend' env operands) s := by
  unfold evaluateDefine
  split
  next name expr =>
    apply DeepensAt.bind_same
    intro _ s₁ _ hnew
    obtain ⟨hname, -, rfl⟩ := requireNew_eq_ok hnew
    apply (hd env expr s).bind
    · intro value s₂ _ _
      exact recordedAt_bindGlobal hname value s₂
    · intro value s₂ _ _
      exact DeepensAt.refl _ s₂
  · exact DeepensAt.refl _ s

include hr

theorem deepensAt_evaluateAssign (env : Environment) (operands : List String) (s : Store) :
    DeepensAt (evaluateAssign descend env operands) (evaluateAssign descend' env operands) s := by
  unfold evaluateAssign
  split
  next name expr =>
    apply DeepensAt.bind_same
    intro owner s₁ _ hlocate
    obtain ⟨hname, howner, rfl⟩ := locate_eq_ok hlocate
    apply (hd env expr s).bind
    · intro value s₂ log hvalue
      exact recordedAt_overwrite_of_descend hr hname howner hvalue
    · intro value s₂ _ _
      exact DeepensAt.refl _ s₂
  · exact DeepensAt.refl _ s

theorem deepensAt_evaluateForm (host : Host) (env : Environment) (text : String) (s : Store) :
    DeepensAt (evaluateForm host descend env text) (evaluateForm host descend' env text) s := by
  apply DeepensAt.bind_same
  intro siblings s₁ _ _
  unfold evaluateSiblings
  split
  · exact DeepensAt.refl _ s₁
  · split
    · exact deepensAt_evaluateDefine hd env _ s₁
    · exact deepensAt_evaluateConditional hd hr env _ s₁
    · exact DeepensAt.refl _ s₁
    · exact DeepensAt.refl _ s₁
    · exact deepensAt_evaluateAssign hd hr env _ s₁
    · exact deepensAt_evaluateApplication hd hr host (deepensAt_applyClosure hd env)
        (recordedAt_applyClosure hr env) env _ _ s₁

/-- If evaluation goes further on the next level, it does so on this one. -/
theorem deepensAt_evaluateText (host : Host) (depth : Nat) (env : Environment) (text : String)
    (s : Store) :
    DeepensAt (evaluateText host descend depth env text) (evaluateText host descend' depth env text)
      s := by
  apply DeepensAt.bind_same
  intro _ s₁ _ _
  split
  · exact deepensAt_evaluateForm hd hr host env _ s₁
  · exact DeepensAt.refl _ s₁

end

/-- The same evaluation with more levels left goes at least as far. -/
theorem deepensAt_evaluate (host : Host) {remaining remaining' : Nat} (h : remaining ≤ remaining')
    (depth : Nat) (env : Environment) (text : String) (s : Store) :
    DeepensAt (evaluate host remaining depth env text) (evaluate host remaining' depth env text)
      s := by
  -- On the levels of the shallower one: where it has none left it is cut off, and whatever the
  -- deeper one does from there is the rest.
  induction remaining generalizing remaining' depth env text s with
  | zero =>
    have hrecorded := recordedAt_evaluate host remaining' depth env text s
    exact deepensAt_fail_depthExceeded hrecorded
  | succ remaining ih =>
    cases remaining' with
    | zero => omega
    | succ remaining' =>
      have hle : remaining ≤ remaining' := by omega
      exact deepensAt_evaluateText (ih hle (depth + 1))
        (recordedAt_evaluate host remaining' (depth + 1)) host depth env text s

/-- Applying it runs nothing of the embedding program. -/
def Procedure.IsHostFree : Procedure → Prop
  | .primitive p => ∃ operation, p.operation = .builtin operation
  | .closure _ => True

def reporting (limit : Nat) : Discipline where
  accepts _ := True
  admits := Procedure.IsHostFree
  allows e := ∀ reported, e = .depthExceeded reported → reported = limit

/-- Stores without host procedures stay so, whatever the texts are, when all errors are allowed but
an exhausted depth. -/
theorem isKept_hostFree (host : Host) {allows : Error → Prop}
    (hordinary : ∀ e : Error, e.IsOrdinary → allows e)
    (hfault : ∀ fault, allows (.invalidSubform fault)) :
    Discipline.IsKept ⟨fun _ => True, Procedure.IsHostFree, allows⟩ host := by
  have hfault' (e : Error) (he : ∃ fault, e = .invalidSubform fault) : allows e := by
    obtain ⟨fault, rfl⟩ := he
    exact hfault fault
  have hsplit (text : String) : Yields allows (fun _ => True) (Text.splitForm text) :=
    (yields_splitForm text).mono hfault' fun _ _ => trivial
  constructor
  case ordinary => exact hordinary
  case word =>
    intro text _ _ _ _
    exact hfault _
  case form =>
    intro text _ _
    exact (hsplit _).mono (fun _ he => he) fun _ _ _ _ => trivial
  case quoted =>
    intro text _
    exact (yields_datum text).mono hfault' fun _ _ => trivial
  case parameters =>
    intro params body _ _
    exact (yields_parameterNames_of_isOrdinary hordinary fun _ => hsplit params).mono (fun _ he => he)
      fun _ _ _ _ => trivial
  case closure =>
    intro c _
    refine ⟨trivial, ?_⟩
    exact (yields_parameterNames_of_isOrdinary hordinary fun _ => hsplit c.params).mono (fun _ he => he)
      fun _ _ => trivial
  case primitive =>
    intro p args hbuiltin hargs
    exact (yields_apply_of_builtin host hbuiltin hargs).mono hordinary fun _ hv => hv

theorem isKept_reporting (host : Host) (limit : Nat) : (reporting limit).IsKept host := by
  apply isKept_hostFree
  · rintro e he reported rfl
    exact he.elim
  · intro fault reported he
    cases he

/-- A line that the limit does not cut off ends the same way under every higher limit. If it is cut
off, all that it did and recorded is a first part of what it does under the higher limit, and the
rest goes on from where it stopped. Unless the embedding program supplies procedures, the limit that
is reported is the one that was given. -/
theorem higher_limit_goes_on (host : Host) (s : Store) (line : String) {limit limit' : Nat}
    (h : limit ≤ limit') :
    let shallow := evaluateLine host limit line s
    let deep := evaluateLine host limit' line s
    (¬ shallow.IsCut → deep.result = shallow.result ∧ deep.store = shallow.store ∧
      deep.log = shallow.log) ∧
    (shallow.IsCut → ∃ rest, deep.log = shallow.log ++ rest ∧
      shallow.store.History rest deep.store) ∧
    (s.Within Procedure.IsHostFree → ∀ reported,
      shallow.result = .error (.depthExceeded reported) → reported = limit) := by
  intro shallow deep
  -- The first two parts are one fact about the two runs, the third is about the shallow one alone.
  have hdeepens : shallow.Deepens deep := deepensAt_evaluate host h 0 Environment.empty line s
  refine ⟨?_, fun _ => hdeepens.exists_rest, ?_⟩
  · intro hcut
    rw [hdeepens.eq_of_not_isCut hcut]
    exact ⟨rfl, rfl, rfl⟩
  · intro hs reported hresult
    have hlimit : 0 + limit = limit := by omega
    have hexhausted : (reporting limit).allows (.depthExceeded limit) := by
      intro reported he
      cases he
      rfl
    have hline : (reporting limit).accepts line := trivial
    have hobeys := Discipline.obeys_evaluate (isKept_reporting host limit) hlimit hexhausted
      Environment.empty hline
    have hyields : Yields (reporting limit).allows _ shallow.result := (hobeys s hs).2
    rw [hresult] at hyields
    cases hyields with
    | error he => exact he reported rfl

/-- The limit cuts the test of a conditional off, and the higher limit goes on from there. -/
theorem cut_conditional_goes_on :
    let host : Host := fun _ _ => .ok .nil
    let s := Store.ofGlobals (Table.ofList [("nil", .nil), ("#t", .bool true)])
    let o := evaluateLine host 1 "(if nil #f #t)" s
    let o' := evaluateLine host 2 "(if nil #f #t)" s
    o.IsCut ∧ ∃ rest, o'.log = o.log ++ rest := by
  intro host s o o'
  have hresult : (evaluateLine host 1 "(if nil #f #t)" s).result = .error (.depthExceeded 1) := by
    cbv
  have hcut : o.IsCut := ⟨1, hresult⟩
  have hlimit : 1 ≤ 2 := by decide
  obtain ⟨-, hprefix, -⟩ := higher_limit_goes_on host s "(if nil #f #t)" hlimit
  obtain ⟨rest, hlog, -⟩ := hprefix hcut
  exact ⟨hcut, rest, hlog⟩

end TextLisp
