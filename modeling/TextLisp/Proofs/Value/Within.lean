import TextLisp.Proofs.Text.Expression
import TextLisp.Proofs.Value.Alike

namespace TextLisp

variable {α α' γ β : Type} {admits : Procedure β → Prop}

inductive Yields (allows : Error → Prop) (post : α → Prop) : Except Error α → Prop
  | ok {a : α} (h : post a) : Yields allows post (.ok a)
  | error {e : Error} (h : allows e) : Yields allows post (.error e)

theorem Yields.mono {allows allows' : Error → Prop} {post post' : α → Prop} {x : Except Error α}
    (hx : Yields allows post x) (hallows : ∀ e, allows e → allows' e)
    (hpost : ∀ a, post a → post' a) : Yields allows' post' x := by
  cases hx with
  | ok h => exact .ok (hpost _ h)
  | error h => exact .error (hallows _ h)

/-- What follows a success that satisfies the condition may rely on it. -/
theorem Yields.bind {allows : Error → Prop} {post : α → Prop} {post' : α' → Prop}
    {x : Except Error α} {f : α → Except Error α'} (hx : Yields allows post x)
    (hf : ∀ a, post a → Yields allows post' (f a)) : Yields allows post' (x >>= f) := by
  cases hx with
  | ok h => exact hf _ h
  | error h => exact .error h

/-- Instead of a condition, a success can say what it is the success of. -/
theorem Yields.eq_ok {allows : Error → Prop} {post : α → Prop} {x : Except Error α}
    (hx : Yields allows post x) : Yields allows (fun a => x = .ok a) x := by
  cases hx with
  | ok _ => exact .ok rfl
  | error h => exact .error h

namespace Value

inductive Within (admits : Procedure β → Prop) : Value β → Prop
  | number (x : Float) : Within admits (.number x)
  | symbol (text : String) : Within admits (.symbol text)
  | list {items : List (Value β)} (h : ∀ v ∈ items, Within admits v) : Within admits (.list items)
  | bool (b : Bool) : Within admits (.bool b)
  | nil : Within admits .nil
  | procedure {p : Procedure β} (h : admits p) : Within admits (.procedure p)
  | aliasTo (target : String) : Within admits (.aliasTo target)
  | unspecified : Within admits .unspecified

inductive Occurs (p : Procedure β) : Value β → Prop
  | here : Occurs p (.procedure p)
  | inside {items : List (Value β)} {v : Value β} (hmem : v ∈ items) (h : Occurs p v) :
      Occurs p (.list items)

theorem Within.of_occurs {v : Value β} (h : v.Within admits) {p : Procedure β}
    (hp : Occurs p v) : admits p := by
  induction hp with
  | here =>
    cases h with
    | procedure h => exact h
  | inside hmem _ ih =>
    cases h with
    | list h => exact ih (h _ hmem)

mutual

theorem within_of_occurs : ∀ v : Value β, (∀ p, Occurs p v → admits p) → v.Within admits
  | .number x, _ => .number x
  | .symbol text, _ => .symbol text
  | .list items, h =>
    .list (within_items_of_occurs items fun _ hmem p hp => h p (.inside hmem hp))
  | .bool b, _ => .bool b
  | .nil, _ => .nil
  | .procedure p, h => .procedure (h p .here)
  | .aliasTo target, _ => .aliasTo target
  | .unspecified, _ => .unspecified

theorem within_items_of_occurs : ∀ items : List (Value β),
    (∀ v ∈ items, ∀ p, Occurs p v → admits p) → ∀ v ∈ items, v.Within admits
  | [], _, _, hmem => absurd hmem List.not_mem_nil
  | item :: items, h, v, hmem => by
    have hitem := within_of_occurs item (h item List.mem_cons_self)
    have hitems := within_items_of_occurs items fun w hw => h w (List.mem_cons_of_mem item hw)
    obtain rfl | hmem := List.mem_cons.mp hmem
    · exact hitem
    · exact hitems v hmem

end

theorem Within.mono {admits' : Procedure β → Prop} {v : Value β} (h : v.Within admits)
    (hadmits : ∀ p, admits p → admits' p) : v.Within admits' :=
  within_of_occurs v fun p hp => hadmits p (h.of_occurs hp)

theorem Within.and {admits' : Procedure β → Prop} {v : Value β} (h : v.Within admits)
    (h' : v.Within admits') : v.Within fun p => admits p ∧ admits' p :=
  within_of_occurs v fun _ hp => ⟨h.of_occurs hp, h'.of_occurs hp⟩

def Shares (admits : Procedure β → Prop) (p q : Procedure β) : Prop :=
  p = q ∧ admits p

theorem indiscernible_shares (admits : Procedure β → Prop) :
    Procedure.Indiscernible (Shares admits) where
  primitive h := h.1.symm
  closure h := ⟨_, h.1.symm⟩
  render h := by rw [h.1]
  equal h h' := by rw [h.1, h'.1]

theorem Within.alike_self {R : Procedure β → Procedure β → Prop} (hR : ∀ p, admits p → R p p)
    {v : Value β} (h : v.Within admits) : Alike R v v := by
  induction h with
  | list _ ih => exact .list (List.forall₂_same.mpr ih)
  | procedure h => exact .procedure (hR _ h)
  | aliasTo target => exact .aliasTo trivial
  | _ => constructor

mutual

theorem AlikeWhere.within {R : Procedure β → Procedure γ → Prop} {T : String → Prop}
    (hR : ∀ p q, R p q → admits p) {v : Value β} {w : Value γ} (h : AlikeWhere R T v w) :
    v.Within admits := by
  cases h with
  | list h => exact .list (AlikeWhere.within_items hR h)
  | procedure h => exact .procedure (hR _ _ h)
  | _ => constructor

theorem AlikeWhere.within_items {R : Procedure β → Procedure γ → Prop} {T : String → Prop}
    (hR : ∀ p q, R p q → admits p) {vs : List (Value β)} {ws : List (Value γ)}
    (h : List.Forall₂ (AlikeWhere R T) vs ws) : ∀ v ∈ vs, v.Within admits := by
  cases h with
  | nil =>
    intro v hmem
    cases hmem
  | cons h hs =>
    intro v hmem
    obtain rfl | hmem := List.mem_cons.mp hmem
    · exact AlikeWhere.within hR h
    · exact AlikeWhere.within_items hR hs v hmem

end

end Value

/-- Lists satisfy the condition as their items do, and errors may be made of arguments that satisfy
it, or of a count that an arity does not accept. -/
structure IsClosedUnderLists (P : Value β → Prop) (allows : Error → Prop) : Prop where
  number : ∀ x, P (.number x)
  bool : ∀ b, P (.bool b)
  list : ∀ items, P (.list items) ↔ ∀ v ∈ items, P v
  arityMismatch : ∀ (arity : Arity) got, ¬ arity.Accepts got → allows (.arityMismatch arity got)
  argument : ∀ (operation : Builtin) (expected : Expectation) (v : Value β), P v →
    allows (.typeMismatch (.argument operation.id expected v.kind v.render))

theorem length_of_toNumbers {operation : String} {vs : List (Value β)} {xs : List Float}
    (h : Value.toNumbers operation vs = .ok xs) : xs.length = vs.length := by
  induction vs generalizing xs with
  | nil =>
    obtain rfl := Except.ok.inj h
    rfl
  | cons v vs ih =>
    rw [Value.toNumbers] at h
    cases hv : v.toNumber operation .numbers with
    | error e =>
      rw [hv] at h
      cases h
    | ok x =>
      cases hvs : Value.toNumbers operation vs with
      | error e =>
        rw [hv, hvs] at h
        cases h
      | ok rest =>
        rw [hv, hvs] at h
        obtain rfl : x :: rest = xs := Except.ok.inj h
        rw [List.length_cons, List.length_cons, ih hvs]

theorem eq_nil_of_difference {xs : List Float} (h : difference xs = none) : xs = [] := by
  match xs with
  | [] => rfl
  | [_] | _ :: _ :: _ => cases h

theorem eq_nil_of_quotient {xs : List Float} (h : quotient xs = none) : xs = [] := by
  match xs with
  | [] => rfl
  | [_] | _ :: _ :: _ => cases h

section

variable {P : Value β → Prop} {allows : Error → Prop} (hP : IsClosedUnderLists P allows)
include hP

theorem yields_toNumber (operation : Builtin) (expected : Expectation) {v : Value β} (h : P v) :
    Yields allows (fun _ => True) (v.toNumber operation.id expected) := by
  unfold Value.toNumber
  split
  · exact .ok trivial
  · exact .error (hP.argument operation expected _ h)

theorem yields_toNumbers (operation : Builtin) {vs : List (Value β)} (h : ∀ v ∈ vs, P v) :
    Yields allows (fun _ => True) (Value.toNumbers operation.id vs) := by
  induction vs with
  | nil => exact .ok trivial
  | cons v vs ih =>
    obtain ⟨hv, hvs⟩ := List.forall_mem_cons.mp h
    apply (yields_toNumber hP operation .numbers hv).bind
    intro _ _
    apply (ih hvs).bind
    intro _ _
    exact .ok trivial

theorem yields_toNonEmpty (operation : Builtin) {v : Value β} (h : P v) :
    Yields allows (fun parts => P parts.1 ∧ ∀ w ∈ parts.2, P w) (v.toNonEmpty operation.id) := by
  unfold Value.toNonEmpty
  split
  next v vs => exact .ok (List.forall_mem_cons.mp ((hP.list _).mp h))
  · exact .error (hP.argument operation .nonEmptyList _ h)

namespace Builtin

section

variable {args : List (Value β)} (h : ∀ v ∈ args, P v)
include h

/-- Where there are no numbers to begin with, there are no arguments. -/
theorem yields_onNumbers (operation : Builtin) {f : List Float → Option (Value β)}
    (hvalue : ∀ xs v, f xs = some v → P v) (hempty : ∀ xs, f xs = none → xs = []) :
    Yields allows P (onNumbers operation.id f args) := by
  have hnumbers := yields_toNumbers hP operation h
  obtain ⟨e, he, hresult⟩ | ⟨xs, hxs, ⟨v, hv, hresult⟩ | ⟨hnone, hresult⟩⟩ :=
    onNumbers_cases operation.id f args
  · rw [he] at hnumbers
    rw [hresult]
    cases hnumbers with
    | error he => exact .error he
  · rw [hresult]
    exact .ok (hvalue xs v hv)
  · rw [hresult]
    apply Yields.error (hP.arityMismatch (.atLeast 1) args.length _)
    rw [← length_of_toNumbers hxs, hempty xs hnone, List.length_nil]
    decide

theorem yields_onOne {f : Value β → Except Error (Value β)}
    (hf : ∀ v, P v → Yields allows P (f v)) : Yields allows P (onOne f args) := by
  obtain ⟨v, rfl, hresult⟩ | ⟨hcount, hresult⟩ := onOne_cases f args
  · rw [hresult]
    exact hf v (h v List.mem_cons_self)
  · rw [hresult]
    exact .error (hP.arityMismatch (.exact 1) args.length hcount)

theorem yields_onTwo {f : Value β → Value β → Except Error (Value β)}
    (hf : ∀ v w, P v → P w → Yields allows P (f v w)) : Yields allows P (onTwo f args) := by
  obtain ⟨v, w, rfl, hresult⟩ | ⟨hcount, hresult⟩ := onTwo_cases f args
  · rw [hresult]
    obtain ⟨hv, hrest⟩ := List.forall_mem_cons.mp h
    exact hf v w hv (hrest w List.mem_cons_self)
  · rw [hresult]
    exact .error (hP.arityMismatch (.exact 2) args.length hcount)

end

theorem yields_attach {item v : Value β} (hitem : P item) (hv : P v) :
    Yields allows P (attach item v) := by
  unfold attach
  split
  next items => exact .ok ((hP.list _).mpr (List.forall_mem_cons.mpr ⟨hitem, (hP.list _).mp hv⟩))
  · exact .ok ((hP.list _).mpr (List.forall_mem_singleton.mpr hitem))
  · exact .error (hP.argument cons .listTail _ hv)

/-- The operations of the language make values that satisfy the condition of others that do. -/
theorem yields_apply (operation : Builtin) {args : List (Value β)} (h : ∀ v ∈ args, P v) :
    Yields allows P (operation.apply args) := by
  have hnumber (x? : Option Float) (v : Value β) (hv : x?.map .number = some v) : P v := by
    obtain ⟨x, -, rfl⟩ := Option.map_eq_some_iff.mp hv
    exact hP.number x
  cases operation with
  | add | mul | max | min =>
    rw [apply]
    apply yields_onNumbers hP h
    · rintro xs v ⟨⟩
      exact hP.number _
    · rintro xs ⟨⟩
  | less | lessEq | greater | greaterEq =>
    rw [apply]
    apply yields_onNumbers hP h
    · rintro xs v ⟨⟩
      exact hP.bool _
    · rintro xs ⟨⟩
  | sub =>
    rw [apply]
    apply yields_onNumbers hP h
    · exact fun xs => hnumber (difference xs)
    · exact fun xs hnone => eq_nil_of_difference (Option.map_eq_none_iff.mp hnone)
  | div =>
    rw [apply]
    apply yields_onNumbers hP h
    · exact fun xs => hnumber (quotient xs)
    · exact fun xs hnone => eq_nil_of_quotient (Option.map_eq_none_iff.mp hnone)
  | abs =>
    apply yields_onOne hP h
    intro v hv
    apply (yields_toNumber hP abs .number hv).bind
    exact fun x _ => .ok (hP.number _)
  | expt =>
    apply yields_onTwo hP h
    intro v w hv hw
    apply (yields_toNumber hP expt .number hv).bind
    intro x _
    apply (yields_toNumber hP expt .number hw).bind
    exact fun y _ => .ok (hP.number _)
  | car =>
    apply yields_onOne hP h
    intro v hv
    apply (yields_toNonEmpty hP car hv).bind
    exact fun parts hparts => .ok hparts.1
  | cdr =>
    apply yields_onOne hP h
    intro v hv
    apply (yields_toNonEmpty hP cdr hv).bind
    exact fun parts hparts => .ok ((hP.list _).mpr hparts.2)
  | cons => exact yields_onTwo hP h fun v w => yields_attach hP
  | list => exact .ok ((hP.list args).mpr h)
  | isNull | not => exact yields_onOne hP h fun v _ => .ok (hP.bool _)
  | equal => exact yields_onTwo hP h fun v w _ _ => .ok (hP.bool _)

end Builtin

end

/-- Primitives give back the procedures that they were given, and make none. -/
theorem Builtin.apply_yields (operation : Builtin) {args : List (Value β)}
    (h : ∀ v ∈ args, v.Within admits) :
    Yields Error.IsArgumentFault (Value.Within admits) (operation.apply args) := by
  have hitems (items : List (Value β)) (h : Value.Within admits (.list items)) :
      ∀ v ∈ items, v.Within admits := by
    cases h with
    | list h => exact h
  have hclosed : IsClosedUnderLists (Value.Within admits) Error.IsArgumentFault :=
    ⟨.number, .bool, fun items => ⟨hitems items, .list⟩, fun _ _ _ => trivial,
      fun _ _ _ _ => trivial⟩
  exact operation.yields_apply hclosed h

section

variable {R : Procedure β → Procedure γ → Prop} {T : String → Prop}

mutual

/-- Data are the same, whatever closures are kept as, and hold no procedures and no aliases. -/
theorem Tree.alike_datum : ∀ tree : Tree, Value.AlikeWhere R T tree.datum tree.datum
  | .atom text => by
    rw [Tree.datum, Tree.datum]
    split
    · exact .number _
    · exact .symbol _
  | .node text children => by
    rw [Tree.datum, Tree.datum]
    exact .list (Tree.alike_data children)

theorem Tree.alike_data : ∀ trees : List Tree,
    List.Forall₂ (Value.AlikeWhere R T) (Tree.data trees) (Tree.data trees)
  | [] => by
    rw [Tree.data, Tree.data]
    exact .nil
  | tree :: trees => by
    rw [Tree.data, Tree.data]
    exact .cons (Tree.alike_datum tree) (Tree.alike_data trees)

end

end

theorem alike_of_datum {R : Procedure → Procedure → Prop} {T : String → Prop} {text : String}
    {value : Value} (h : datum text = .ok value) : Value.AlikeWhere R T value value := by
  rw [Tree.datum_eq_map_read] at h
  cases hread : Tree.read text with
  | error fault =>
    rw [hread] at h
    cases h
  | ok tree =>
    rw [hread] at h
    obtain rfl := Except.ok.inj h
    exact Tree.alike_datum tree

/-- Quoted text holds no procedures. -/
theorem within_of_datum {admits : Procedure → Prop} {text : String} {value : Value}
    (h : datum text = .ok value) : value.Within admits := by
  have hnone : Value.Alike (fun (_ _ : Procedure) => False) value value := alike_of_datum h
  exact hnone.within fun _ _ hp => hp.elim

end TextLisp
