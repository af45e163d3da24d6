import TextLisp.Proofs.Store.Within

namespace TextLisp.Store

/-- Frames that can be got at from a chain. -/
inductive Reaches (s : Store) (env : Environment) : Nat → Prop
  | chain {index : Nat} (h : index ∈ env.frames) : Reaches s env index
  | global {name : String} {value : Value} {c : Closure} {index : Nat}
      (hvalue : s.globals.get? name = some value) (hc : Value.Occurs (.closure c) value)
      (h : index ∈ c.env.frames) : Reaches s env index
  | frame {holder : Nat} {name : String} {value : Value} {c : Closure} {index : Nat}
      (hholder : Reaches s env holder) (hvalue : (s.frame holder).get? name = some value)
      (hc : Value.Occurs (.closure c) value) (h : index ∈ c.env.frames) : Reaches s env index

def InPlay (s : Store) (env : Environment) (index : Nat) : Prop :=
  s.Reaches env index ∨ s.frames.size ≤ index

theorem not_inPlay {s : Store} {env : Environment} {index : Nat} (hlt : index < s.frames.size)
    (hreach : ¬ s.Reaches env index) : ¬ s.InPlay env index :=
  not_or.mpr ⟨hreach, Nat.not_le.mpr hlt⟩

/-- The stores differ at most in frames that are not among these. -/
structure AgreesOn (among : Nat → Prop) (s t : Store) : Prop where
  globals : t.globals = s.globals
  frames : ∀ index, among index → t.frame index = s.frame index
  size : t.frames.size = s.frames.size
  nextClosure : t.nextClosure = s.nextClosure

theorem AgreesOn.refl (among : Nat → Prop) (s : Store) : AgreesOn among s s :=
  ⟨rfl, fun _ _ => rfl, rfl, rfl⟩

/-- What is out of reach has no say in what can be reached. -/
theorem AgreesOn.reaches {s t : Store} {env : Environment} (h : AgreesOn (s.Reaches env) s t)
    {index : Nat} : t.Reaches env index ↔ s.Reaches env index := by
  constructor
  · intro hindex
    induction hindex with
    | chain h => exact .chain h
    | global hvalue hc hmem =>
      rw [h.globals] at hvalue
      exact .global hvalue hc hmem
    | frame _ hvalue hc hmem ih =>
      rw [h.frames _ ih] at hvalue
      exact .frame ih hvalue hc hmem
  · intro hindex
    induction hindex with
    | chain h => exact .chain h
    | global hvalue hc hmem =>
      rw [← h.globals] at hvalue
      exact .global hvalue hc hmem
    | frame hholder hvalue hc hmem ih =>
      rw [← h.frames _ hholder] at hvalue
      exact .frame ih hvalue hc hmem

end TextLisp.Store
