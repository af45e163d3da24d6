import Mathlib.Data.List.Forall2
import TextLisp.Builtin

namespace TextLisp

variable {ε α β γ α' γ' : Type} {R : Procedure β → Procedure γ → Prop} {T : String → Prop}

inductive Value.AlikeWhere (R : Procedure β → Procedure γ → Prop) (T : String → Prop) :
    Value β → Value γ → Prop
  | number (x : Float) : AlikeWhere R T (.number x) (.number x)
  | symbol (text : String) : AlikeWhere R T (.symbol text) (.symbol text)
  | list {vs : List (Value β)} {ws : List (Value γ)} (h : List.Forall₂ (AlikeWhere R T) vs ws) :
      AlikeWhere R T (.list vs) (.list ws)
  | bool (b : Bool) : AlikeWhere R T (.bool b) (.bool b)
  | nil : AlikeWhere R T .nil .nil
  | procedure {p : Procedure β} {q : Procedure γ} (h : R p q) :
      AlikeWhere R T (.procedure p) (.procedure q)
  | aliasTo {target : String} (h : T target) : AlikeWhere R T (.aliasTo target) (.aliasTo target)
  | unspecified : AlikeWhere R T .unspecified .unspecified

abbrev Value.Alike (R : Procedure β → Procedure γ → Prop) : Value β → Value γ → Prop :=
  AlikeWhere R fun _ => True

/-- A relation between procedures that no program can see, as long as it does not apply closures:
they print alike, and are equal to the same ones. -/
structure Procedure.Indiscernible (R : Procedure β → Procedure γ → Prop) : Prop where
  primitive {p : Primitive} {q : Procedure γ} (h : R (.primitive p) q) : q = .primitive p
  closure {c : Closure β} {q : Procedure γ} (h : R (.closure c) q) : ∃ c', q = .closure c'
  render {p : Procedure β} {q : Procedure γ} (h : R p q) :
    (Value.procedure p).render = (Value.procedure q).render
  equal {p p' : Procedure β} {q q' : Procedure γ} (h : R p q) (h' : R p' q') :
    p.equal p' = q.equal q'

def Error.IsArgumentFault : Error → Prop
  | .arityMismatch _ _ | .typeMismatch _ => True
  | _ => False

inductive Agree (allows : ε → Prop) (P : α → γ → Prop) : Except ε α → Except ε γ → Prop
  | ok {a : α} {c : γ} (h : P a c) : Agree allows P (.ok a) (.ok c)
  | error {e : ε} (h : allows e) : Agree allows P (.error e) (.error e)

theorem Agree.bind {allows : ε → Prop} {P : α → γ → Prop} {Q : α' → γ' → Prop}
    {x : Except ε α} {y : Except ε γ} {f : α → Except ε α'} {g : γ → Except ε γ'}
    (h : Agree allows P x y) (hfg : ∀ a c, P a c → Agree allows Q (f a) (g c)) :
    Agree allows Q (x >>= f) (y >>= g) := by
  cases h with
  | ok h => exact hfg _ _ h
  | error h => exact .error h

/-- Computations that agree on the very result go on with it. -/
theorem Agree.bind_eq {allows : ε → Prop} {Q : α' → γ' → Prop} {x y : Except ε α}
    {f : α → Except ε α'} {g : α → Except ε γ'} (h : Agree allows Eq x y)
    (hfg : ∀ a, Agree allows Q (f a) (g a)) : Agree allows Q (x >>= f) (y >>= g) := by
  apply h.bind
  intro a c hac
  subst hac
  exact hfg a

theorem Agree.mono {allows allows' : ε → Prop} {P Q : α → γ → Prop} {x : Except ε α}
    {y : Except ε γ} (h : Agree allows P x y) (hallows : ∀ e, allows e → allows' e)
    (hPQ : ∀ a c, P a c → Q a c) : Agree allows' Q x y := by
  cases h with
  | ok h => exact .ok (hPQ _ _ h)
  | error h => exact .error (hallows _ h)

theorem Agree.eq {allows : ε → Prop} {P : α → α → Prop} {x y : Except ε α} (h : Agree allows P x y)
    (hP : ∀ a b, P a b → b = a) : y = x := by
  cases h with
  | ok h => rw [hP _ _ h]
  | error => rfl

/-- The same result, whatever it is. -/
theorem agree_refl (x : Except ε α) : Agree (fun _ => True) Eq x x := by
  cases x with
  | ok a => exact .ok rfl
  | error e => exact .error trivial

/-- The same option, if what is in it is related to itself. -/
theorem rel_self {P : α → α → Prop} {x : Option α} (h : ∀ a, x = some a → P a a) :
    Option.Rel P x x := by
  cases x with
  | none => exact .none
  | some a => exact .some (h a rfl)

namespace Value.AlikeWhere

theorem bool_of_eq {a b : Bool} (h : a = b) : AlikeWhere R T (.bool a) (.bool b) := by
  subst h
  exact .bool a

theorem kind {v : Value β} {w : Value γ} (h : AlikeWhere R T v w) : v.kind = w.kind := by
  cases h <;> rfl

theorem isTrue {v : Value β} {w : Value γ} (h : AlikeWhere R T v w) : v.isTrue = w.isTrue := by
  cases h with
  | bool b => cases b <;> rfl
  | _ => rfl

theorem isUnspecified {v : Value β} {w : Value γ} (h : AlikeWhere R T v w) :
    v.isUnspecified = w.isUnspecified := by
  cases h <;> rfl

mutual

/-- Alike values have the same text, if their procedures print alike. -/
theorem render (hR : Procedure.Indiscernible R) :
    ∀ {v : Value β} {w : Value γ}, AlikeWhere R T v w → v.render = w.render
  | _, _, .number x => by rw [Value.render, Value.render]
  | _, _, .symbol text => by rw [Value.render, Value.render]
  | .list vs, .list ws, .list h => by rw [Value.render, Value.render, renderItems hR h]
  | _, _, .bool b => by cases b <;> rw [Value.render, Value.render]
  | _, _, .nil => by rw [Value.render, Value.render]
  | _, _, .procedure h => hR.render h
  | _, _, .aliasTo target => by rw [Value.render, Value.render]
  | _, _, .unspecified => by rw [Value.render, Value.render]

theorem renderItems (hR : Procedure.Indiscernible R) :
    ∀ {vs : List (Value β)} {ws : List (Value γ)}, List.Forall₂ (AlikeWhere R T) vs ws →
      Value.renderItems vs = Value.renderItems ws
  | [], [], .nil => by rw [Value.renderItems, Value.renderItems]
  | [v], [w], .cons h .nil => by
    rw [Value.renderItems, Value.renderItems, render hR h]
  | v :: v' :: vs, w :: w' :: ws, .cons h hs => by
    rw [Value.renderItems, Value.renderItems, render hR h, renderItems hR hs]

end

mutual

/-- Alike values are equal to alike values, if their procedures are. -/
theorem equal (hR : Procedure.Indiscernible R) {v v' : Value β} {w w' : Value γ}
    (h : AlikeWhere R T v w) (h' : AlikeWhere R T v' w') : v.equal v' = w.equal w' := by
  cases h with
  | list h =>
    cases h' with
    | list h' =>
      rw [Value.equal, Value.equal]
      exact equalItems hR h h'
    | _ => simp only [Value.equal]
  | procedure h =>
    cases h' with
    | procedure h' =>
      rw [Value.equal, Value.equal]
      exact hR.equal h h'
    | _ => simp only [Value.equal]
  | _ => cases h' <;> simp only [Value.equal]

theorem equalItems (hR : Procedure.Indiscernible R) {vs vs' : List (Value β)}
    {ws ws' : List (Value γ)} (h : List.Forall₂ (AlikeWhere R T) vs ws)
    (h' : List.Forall₂ (AlikeWhere R T) vs' ws') :
    Value.equalItems vs vs' = Value.equalItems ws ws' := by
  cases h with
  | nil => cases h' <;> simp only [Value.equalItems]
  | cons h hs =>
    cases h' with
    | nil => simp only [Value.equalItems]
    | cons h' hs' =>
      rw [Value.equalItems, Value.equalItems, equal hR h h', equalItems hR hs hs']

end

theorem isEmpty {v : Value β} {w : Value γ} (h : AlikeWhere R T v w) : v.isEmpty = w.isEmpty := by
  cases h with
  | list h => cases h <;> rfl
  | _ => rfl

/-- A value of the wrong kind is refused in the same words. -/
theorem refusal (hR : Procedure.Indiscernible R) {v : Value β} {w : Value γ}
    (h : AlikeWhere R T v w) (operation : String) (expected : Expectation) {P : α → γ' → Prop} :
    Agree Error.IsArgumentFault P
      (.error (.typeMismatch (.argument operation expected v.kind v.render)))
      (.error (.typeMismatch (.argument operation expected w.kind w.render))) := by
  rw [h.kind, h.render hR]
  exact .error trivial

theorem toNumber (hR : Procedure.Indiscernible R) {v : Value β} {w : Value γ}
    (h : AlikeWhere R T v w) (operation : String) (expected : Expectation) :
    Agree Error.IsArgumentFault Eq (v.toNumber operation expected)
      (w.toNumber operation expected) := by
  have hrefusal {P : Float → Float → Prop} := h.refusal hR operation expected (P := P)
  cases h with
  | number x => exact .ok rfl
  | _ => exact hrefusal

theorem toNumbers (hR : Procedure.Indiscernible R) {vs : List (Value β)} {ws : List (Value γ)}
    (h : List.Forall₂ (AlikeWhere R T) vs ws) (operation : String) :
    Agree Error.IsArgumentFault Eq (Value.toNumbers operation vs)
      (Value.toNumbers operation ws) := by
  induction h with
  | nil => exact .ok rfl
  | cons h _ ih =>
    apply (h.toNumber hR operation .numbers).bind_eq
    intro x
    apply ih.bind_eq
    intro xs
    exact .ok rfl

theorem toNonEmpty (hR : Procedure.Indiscernible R) {v : Value β} {w : Value γ}
    (h : AlikeWhere R T v w) (operation : String) :
    Agree Error.IsArgumentFault
      (fun parts parts' => AlikeWhere R T parts.1 parts'.1 ∧
        List.Forall₂ (AlikeWhere R T) parts.2 parts'.2)
      (v.toNonEmpty operation) (w.toNonEmpty operation) := by
  have hrefusal {P : Value β × List (Value β) → Value γ × List (Value γ) → Prop} :=
    h.refusal hR operation .nonEmptyList (P := P)
  cases h with
  | list h =>
    cases h with
    | nil => exact hrefusal
    | cons h hs => exact .ok ⟨h, hs⟩
  | _ => exact hrefusal

end Value.AlikeWhere

namespace Value

variable {R : Procedure β → Procedure β → Prop}

inductive IsPartOf (part : Value β) : Value β → Prop
  | self : IsPartOf part part
  | item {items : List (Value β)} {v : Value β} (hmem : v ∈ items) (h : IsPartOf part v) :
      IsPartOf part (.list items)

theorem IsPartOf.alikeWhere {part v : Value β} (hpart : IsPartOf part v)
    (h : AlikeWhere R T v v) : AlikeWhere R T part part := by
  induction hpart with
  | self => exact h
  | item hmem _ ih =>
    cases h with
    | list h => exact ih (List.forall₂_same.mp h _ hmem)

mutual

theorem alikeWhere_of_isPartOf : ∀ v : Value β,
    (∀ p, IsPartOf (.procedure p) v → R p p) → (∀ target, IsPartOf (.aliasTo target) v → T target) →
      AlikeWhere R T v v
  | .number x, _, _ => .number x
  | .symbol text, _, _ => .symbol text
  | .list items, hp, ht =>
    .list (alikeWhere_items_of_isPartOf items (fun _ hmem p h => hp p (.item hmem h))
      fun _ hmem target h => ht target (.item hmem h))
  | .bool b, _, _ => .bool b
  | .nil, _, _ => .nil
  | .procedure p, hp, _ => .procedure (hp p .self)
  | .aliasTo target, _, ht => .aliasTo (ht target .self)
  | .unspecified, _, _ => .unspecified

theorem alikeWhere_items_of_isPartOf : ∀ items : List (Value β),
    (∀ v ∈ items, ∀ p, IsPartOf (.procedure p) v → R p p) →
      (∀ v ∈ items, ∀ target, IsPartOf (.aliasTo target) v → T target) →
        List.Forall₂ (AlikeWhere R T) items items
  | [], _, _ => .nil
  | item :: items, hp, ht =>
    .cons (alikeWhere_of_isPartOf item (hp item List.mem_cons_self) (ht item List.mem_cons_self))
      (alikeWhere_items_of_isPartOf items (fun v hmem => hp v (List.mem_cons_of_mem item hmem))
        fun v hmem => ht v (List.mem_cons_of_mem item hmem))

end

end Value

namespace Builtin

theorem refuseCount_agree {args : List (Value β)} {args' : List (Value γ)}
    (h : List.Forall₂ (Value.AlikeWhere R T) args args') (arity : Arity) :
    Agree Error.IsArgumentFault (Value.AlikeWhere R T) (refuseCount arity args)
      (refuseCount arity args') := by
  unfold refuseCount
  rw [h.length_eq]
  exact .error trivial

section

variable {args : List (Value β)} {args' : List (Value γ)}
  (h : List.Forall₂ (Value.AlikeWhere R T) args args')
include h

/-- Alike arguments have the same numbers, or the same first one that is none. -/
theorem onNumbers_agree (hR : Procedure.Indiscernible R) (operation : String)
    {f : List Float → Option (Value β)} {f' : List Float → Option (Value γ)}
    (hf : ∀ xs, Option.Rel (Value.AlikeWhere R T) (f xs) (f' xs)) :
    Agree Error.IsArgumentFault (Value.AlikeWhere R T) (onNumbers operation f args)
      (onNumbers operation f' args') := by
  apply (Value.AlikeWhere.toNumbers hR h operation).bind_eq
  intro xs
  have hvalues := hf xs
  generalize f xs = v? at hvalues ⊢
  generalize f' xs = w? at hvalues ⊢
  cases hvalues with
  | some hv => exact .ok hv
  | none => exact refuseCount_agree h (.atLeast 1)

theorem onOne_agree {f : Value β → Except Error (Value β)} {f' : Value γ → Except Error (Value γ)}
    (hf : ∀ v w, Value.AlikeWhere R T v w →
      Agree Error.IsArgumentFault (Value.AlikeWhere R T) (f v) (f' w)) :
    Agree Error.IsArgumentFault (Value.AlikeWhere R T) (onOne f args) (onOne f' args') := by
  have hrefuse := refuseCount_agree h (.exact 1)
  rcases h with _ | ⟨hv, _ | ⟨hw, hs⟩⟩
  · exact hrefuse
  · exact hf _ _ hv
  · exact hrefuse

theorem onTwo_agree {f : Value β → Value β → Except Error (Value β)}
    {f' : Value γ → Value γ → Except Error (Value γ)}
    (hf : ∀ v v' w w', Value.AlikeWhere R T v v' → Value.AlikeWhere R T w w' →
      Agree Error.IsArgumentFault (Value.AlikeWhere R T) (f v w) (f' v' w')) :
    Agree Error.IsArgumentFault (Value.AlikeWhere R T) (onTwo f args) (onTwo f' args') := by
  have hrefuse := refuseCount_agree h (.exact 2)
  rcases h with _ | ⟨hv, _ | ⟨hw, _ | ⟨hu, hs⟩⟩⟩
  · exact hrefuse
  · exact hrefuse
  · exact hf _ _ _ _ hv hw
  · exact hrefuse

end

theorem attach_agree (hR : Procedure.Indiscernible R) {item v : Value β} {item' v' : Value γ}
    (hitem : Value.AlikeWhere R T item item') (hv : Value.AlikeWhere R T v v') :
    Agree Error.IsArgumentFault (Value.AlikeWhere R T) (attach item v) (attach item' v') := by
  have hrefusal {P : Value β → Value γ → Prop} := hv.refusal hR cons.id .listTail (P := P)
  cases hv with
  | list hs => exact .ok (.list (.cons hitem hs))
  | nil => exact .ok (.list (.cons hitem .nil))
  | _ => exact hrefusal

/-- Operations of the language take alike arguments to alike values, or refuse them with the same
error. -/
theorem apply_agree (hR : Procedure.Indiscernible R) (operation : Builtin)
    {args : List (Value β)} {args' : List (Value γ)}
    (h : List.Forall₂ (Value.AlikeWhere R T) args args') :
    Agree Error.IsArgumentFault (Value.AlikeWhere R T) (operation.apply args)
      (operation.apply args') := by
  have hnumber (x? : Option Float) :
      Option.Rel (Value.AlikeWhere R T) (x?.map Value.number) (x?.map Value.number) := by
    cases x? with
    | some x => exact .some (.number x)
    | none => exact .none
  cases operation with
  | add | mul | max | min => exact onNumbers_agree h hR _ fun xs => .some (.number _)
  | less | lessEq | greater | greaterEq => exact onNumbers_agree h hR _ fun xs => .some (.bool _)
  | sub => exact onNumbers_agree h hR _ fun xs => hnumber (difference xs)
  | div => exact onNumbers_agree h hR _ fun xs => hnumber (quotient xs)
  | abs =>
    apply onOne_agree h
    intro v w hv
    apply (hv.toNumber hR (id abs) .number).bind_eq
    exact fun x => .ok (.number _)
  | expt =>
    apply onTwo_agree h
    intro v v' w w' hv hw
    apply (hv.toNumber hR (id expt) .number).bind_eq
    intro x
    apply (hw.toNumber hR (id expt) .number).bind_eq
    exact fun y => .ok (.number _)
  | car =>
    apply onOne_agree h
    intro v w hv
    apply (hv.toNonEmpty hR (id car)).bind
    exact fun parts parts' hparts => .ok hparts.1
  | cdr =>
    apply onOne_agree h
    intro v w hv
    apply (hv.toNonEmpty hR (id cdr)).bind
    exact fun parts parts' hparts => .ok (.list hparts.2)
  | cons => exact onTwo_agree h fun v v' w w' => attach_agree hR
  | list => exact .ok (.list h)
  | isNull => exact onOne_agree h fun v w hv => .ok (.bool_of_eq hv.isEmpty)
  | equal => exact onTwo_agree h fun v v' w w' hv hw => .ok (.bool_of_eq (hv.equal hR hw))
  | not => exact onOne_agree h fun v w hv => .ok (.bool_of_eq (congrArg Bool.not hv.isTrue))

end Builtin

/-- Primitives agree if the embedding programs do. -/
theorem Operation.apply_agree (hR : Procedure.Indiscernible R) (operation : Operation)
    {host : Host β} {host' : Host γ} {args : List (Value β)} {args' : List (Value γ)}
    (h : List.Forall₂ (Value.AlikeWhere R T) args args')
    (hhost : ∀ name, operation = .host name →
      Agree (fun _ => True) (Value.AlikeWhere R T) (host name args) (host' name args')) :
    Agree (fun _ => True) (Value.AlikeWhere R T) (operation.apply host args)
      (operation.apply host' args') := by
  cases operation with
  | builtin operation =>
    exact (operation.apply_agree hR h).mono (fun _ _ => trivial) fun _ _ hv => hv
  | host name => exact hhost name rfl

end TextLisp
