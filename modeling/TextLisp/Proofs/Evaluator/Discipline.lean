import TextLisp.Proofs.Evaluator.Invariant
import TextLisp.Proofs.Store.Within

/-! Disciplines are invariants that have a say in procedures and in a few errors only. A discipline
says which texts are evaluated, which procedures a store may hold and which errors may come up. If
the parts of a text live by it, so does every run. -/
namespace TextLisp

/-- Errors that no discipline has a say in. Running out of levels, and faults of the reader, are
the others. -/
def Error.IsOrdinary : Error → Prop
  | .depthExceeded _ | .invalidSubform _ => False
  | _ => True

theorem Error.isOrdinary_of_isArgumentFault {e : Error} (h : e.IsArgumentFault) : e.IsOrdinary := by
  cases e with
  | arityMismatch => exact trivial
  | typeMismatch => exact trivial
  | _ => exact h.elim

/-- Splitting a text fails with faults of the reader only. -/
theorem yields_splitForm (text : String) :
    Yields (fun e => ∃ fault, e = .invalidSubform fault) (fun _ => True) (Text.splitForm text) := by
  unfold Text.splitForm
  split
  · exact .ok trivial
  next fault _ => exact .error ⟨fault, rfl⟩

theorem yields_datum (text : String) :
    Yields (fun e => ∃ fault, e = .invalidSubform fault) (fun _ => True) (datum text) := by
  unfold datum
  cases readDatum text.toList with
  | ok value => exact .ok trivial
  | error fault => exact .error ⟨fault, rfl⟩

/-- A list of parameters is refused as a special form is, unless it cannot be split. -/
theorem yields_parameterNames_of_isOrdinary {allows : Error → Prop}
    (hordinary : ∀ e, e.IsOrdinary → allows e) {text : String}
    (hsplit : isBracketed text = true → Yields allows (fun _ => True) (Text.splitForm text)) :
    Yields allows (fun names => parameterNames text = .ok names) (parameterNames text) := by
  apply yields_parameterNames (hordinary _ trivial)
  intro hbracketed
  apply (hsplit hbracketed).mono (fun _ he => he)
  exact fun _ _ _ _ => ⟨hordinary _ trivial, hordinary _ trivial⟩

/-- The operations of the language are refused as any call is, and they make no procedures. -/
theorem yields_apply_of_builtin {admits : Procedure → Prop} (host : Host) {p : Primitive}
    (hbuiltin : ∃ operation, p.operation = .builtin operation) {args : List Value}
    (hargs : ∀ v ∈ args, v.Within admits) :
    Yields Error.IsOrdinary (Value.Within admits) (p.operation.apply host args) := by
  obtain ⟨operation, hoperation⟩ := hbuiltin
  have hyields := operation.apply_yields hargs
  rw [hoperation]
  exact hyields.mono (fun _ he => Error.isOrdinary_of_isArgumentFault he) fun _ hv => hv

structure Discipline where
  accepts : String → Prop
  admits : Procedure → Prop
  allows : Error → Prop

namespace Discipline

structure IsKept (D : Discipline) (host : Host) : Prop where
  ordinary : ∀ e, e.IsOrdinary → D.allows e
  word : ∀ text, D.accepts text → isBracketed (Text.trim text) = false →
    Text.isAtom (Text.trim text) = false → Text.trim text ≠ "" →
      D.allows (.invalidSubform (.notSingle (Text.trim text)))
  form : ∀ text, D.accepts text → isBracketed (Text.trim text) = true →
    Yields D.allows (fun siblings => ∀ sibling ∈ siblings, D.accepts sibling)
      (Text.splitForm (Text.trim text))
  quoted : ∀ text, D.accepts text → Yields D.allows (fun _ => True) (datum text)
  parameters : ∀ params body, D.accepts params → D.accepts body →
    Yields D.allows (fun _ => ∀ identity env, D.admits (.closure ⟨identity, params, body, env⟩))
      (parameterNames params)
  closure : ∀ c, D.admits (.closure c) →
    D.accepts c.body ∧ Yields D.allows (fun _ => True) (parameterNames c.params)
  primitive : ∀ p args, D.admits (.primitive p) → (∀ v ∈ args, v.Within D.admits) →
    Yields D.allows (Value.Within D.admits) (p.operation.apply host args)

variable {α : Type} {D : Discipline}

/-- From an admitted store on, the computation keeps the store admitted, and its result lives by
the discipline. -/
def Obeys (D : Discipline) (post : α → Prop) (x : Run α) : Prop :=
  ∀ s, s.Within D.admits → (x s).store.Within D.admits ∧ Yields D.allows post (x s).result

def invariant (D : Discipline) : Invariant where
  text := D.accepts
  value := Value.Within D.admits
  error := D.allows

/-- A discipline that the parts of a text live by is an invariant. -/
theorem IsKept.isInductive {host : Host} (hD : D.IsKept host) : D.invariant.IsInductive host where
  form := hD.form
  empty _ _ := hD.ordinary _ trivial
  atom env s text hs htext hbracketed :=
    yields_atomValue hs env .number (hD.ordinary _ trivial) (hD.word text htext hbracketed)
      fun _ _ => hD.ordinary _ trivial
  operandCount _ _ _ := hD.ordinary _ trivial
  notAName _ _ _ := hD.ordinary _ trivial
  noValue _ := hD.ordinary _ trivial
  redefinition _ _ := hD.ordinary _ trivial
  unbound _ _ := hD.ordinary _ trivial
  unspecified := .unspecified
  quoted text htext :=
    (hD.quoted text htext).eq_ok.mono (fun _ he => he) fun _ hdatum => within_of_datum hdatum
  parameters params body hparams hbody :=
    (hD.parameters params body hparams hbody).mono (fun _ he => he)
      fun _ hclosure identity env => .procedure (hclosure identity env)
  notProcedure _ _ := hD.ordinary _ trivial
  arityMismatch _ _ _ := hD.ordinary _ trivial
  primitive p args hp hargs := by
    cases hp with
    | procedure hp => exact hD.primitive p args hp hargs
  closure c hc := by
    cases hc with
    | procedure hc => exact hD.closure c hc

/-- Runs live by the discipline, whatever they are a part of. -/
theorem obeys_evaluate {host : Host} (hD : D.IsKept host) {remaining depth limit : Nat}
    (hlimit : depth + remaining = limit) (hexhausted : D.allows (.depthExceeded limit))
    (env : Environment) {text : String} (htext : D.accepts text) :
    D.Obeys (Value.Within D.admits) (evaluate host remaining depth env text) :=
  Invariant.keeps_evaluate hD.isInductive hlimit hexhausted env htext

end Discipline

end TextLisp
