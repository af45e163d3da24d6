import Mathlib
import TextLisp.Builtin
import TextLisp.Proofs.Value.Alike

namespace TextLisp

variable {β : Type}

theorem float_beq_self_iff (x : Float) : (x == x) = true ↔ x.isNaN = false := by
  rw [Float.beq_self_iff, Float.isNaN_eq_decide_eq_nan, decide_eq_false_iff_not]

def Procedure.key : Procedure β → String ⊕ Nat
  | .primitive p => .inl p.id
  | .closure c => .inr c.identity

theorem Procedure.equal_iff {p q : Procedure β} : p.equal q = true ↔ p.key = q.key := by
  cases p <;> cases q <;> simp [Procedure.equal, Procedure.key]

namespace Value

/-- Lists are equal when they are equally long, with equal items in every place. -/
theorem equal_list_iff {vs ws : List (Value β)} :
    (list vs).equal (list ws) = true ↔ vs.length = ws.length ∧
      ∀ (i : Nat) (v w : Value β), vs[i]? = some v → ws[i]? = some w → v.equal w = true := by
  rw [equal]
  induction vs generalizing ws with
  | nil => cases ws <;> simp [equalItems]
  | cons v vs ih =>
    cases ws with
    | nil => simp [equalItems]
    | cons w ws =>
      rw [equalItems, Bool.and_eq_true, ih, List.length_cons, List.length_cons,
        Nat.add_right_cancel_iff]
      constructor
      · rintro ⟨hhead, hlength, htail⟩
        refine ⟨hlength, ?_⟩
        intro i v' w' hv hw
        cases i with
        | zero =>
          obtain rfl := Option.some.inj hv
          obtain rfl := Option.some.inj hw
          exact hhead
        | succ i => exact htail i v' w' hv hw
      · rintro ⟨hlength, hitems⟩
        exact ⟨hitems 0 v w rfl rfl, hlength, fun i => hitems (i + 1)⟩

inductive Matches : Value β → Value β → Prop
  | number {x y : Float} (h : (x == y) = true) : Matches (.number x) (.number y)
  | symbol (text : String) : Matches (.symbol text) (.symbol text)
  | list {vs ws : List (Value β)} (hlength : vs.length = ws.length)
      (hitems : ∀ (i : Nat) (v w : Value β), vs[i]? = some v → ws[i]? = some w →
        v.equal w = true) : Matches (.list vs) (.list ws)
  | bool (b : Bool) : Matches (.bool b) (.bool b)
  | nil : Matches .nil .nil
  | procedure {p q : Procedure β} (h : p.equal q = true) : Matches (.procedure p) (.procedure q)
  | aliasTo (target : String) : Matches (.aliasTo target) (.aliasTo target)

/-- Equality as it is computed is the relation between values of one kind with equal parts. -/
theorem equal_iff {v w : Value β} : v.equal w = true ↔ Matches v w := by
  constructor
  · intro h
    unfold equal at h
    split at h
    · exact .number h
    · exact beq_iff_eq.mp h ▸ .symbol _
    next vs ws =>
      obtain ⟨hlength, hitems⟩ := equal_list_iff.mp ((equal.eq_3 vs ws).trans h)
      exact .list hlength hitems
    · exact beq_iff_eq.mp h ▸ .bool _
    · exact .nil
    · exact .procedure h
    · exact beq_iff_eq.mp h ▸ .aliasTo _
    · cases h
  · intro h
    cases h with
    | list hlength hitems => exact equal_list_iff.mpr ⟨hlength, hitems⟩
    | number h | procedure h => exact h
    | symbol text | aliasTo text => exact beq_self_eq_true text
    | bool b => exact beq_self_eq_true b
    | nil => rfl

/-- What holds of a list when it holds of all its items, and of every other value, holds of all. -/
@[elab_as_elim]
theorem itemsInduction {P : Value β → Prop}
    (items : ∀ vs : List (Value β), (∀ v ∈ vs, P v) → P (.list vs))
    (other : ∀ v : Value β, (∀ vs, v ≠ .list vs) → P v) (v : Value β) : P v := by
  cases v with
  | list vs => exact items vs fun v hmem => itemsInduction items other v
  | _ =>
    apply other
    intro vs h
    cases h
termination_by sizeOf v
decreasing_by
  have hlt := List.sizeOf_lt_of_mem hmem
  rw [list.sizeOf_spec]
  omega

theorem equal_symm {v w : Value β} (h : v.equal w = true) : w.equal v = true := by
  induction v using itemsInduction generalizing w with
  | items vs ih =>
    cases equal_iff.mp h with
    | list hlength hitems =>
      refine equal_list_iff.mpr ⟨hlength.symm, ?_⟩
      intro i w v hw hv
      exact ih v (List.mem_of_getElem? hv) (hitems i v w hv hw)
  | other v hother =>
    cases equal_iff.mp h with
    | list => exact absurd rfl (hother _)
    | number h => exact PartialEquivBEq.symm h
    | procedure h => exact Procedure.equal_iff.mpr (Procedure.equal_iff.mp h).symm
    | symbol | bool | nil | aliasTo => exact h

theorem equal_trans {u v w : Value β} (h : u.equal v = true) (h' : v.equal w = true) :
    u.equal w = true := by
  induction u using itemsInduction generalizing v w with
  | items us ih =>
    cases equal_iff.mp h with
    | @list _ vs hlength hitems =>
      cases equal_iff.mp h' with
      | list hlength' hitems' =>
        refine equal_list_iff.mpr ⟨hlength.trans hlength', ?_⟩
        intro i u w hu hw
        have hlt : i < vs.length := hlength ▸ (List.getElem?_eq_some_iff.mp hu).1
        have hv : vs[i]? = some vs[i] := List.getElem?_eq_getElem hlt
        exact ih u (List.mem_of_getElem? hu) (hitems i u _ hu hv) (hitems' i _ w hv hw)
  | other u hother =>
    cases equal_iff.mp h with
    | list => exact absurd rfl (hother _)
    | number h =>
      cases equal_iff.mp h' with
      | number h' => exact PartialEquivBEq.trans h h'
    | procedure h =>
      cases equal_iff.mp h' with
      | procedure h' =>
        have hkey := (Procedure.equal_iff.mp h).trans (Procedure.equal_iff.mp h')
        exact Procedure.equal_iff.mpr hkey
    | symbol | bool | nil | aliasTo => exact h'

/-- Equal values are of one kind. -/
theorem kind_eq_of_equal {v w : Value β} (h : v.equal w = true) : v.kind = w.kind := by
  cases equal_iff.mp h <;> rfl

/-- A value that is equal to itself has no part that is not. -/
theorem equal_self_of_isPartOf {part v : Value β} (hpart : IsPartOf part v)
    (h : v.equal v = true) : part.equal part = true := by
  induction hpart with
  | self => exact h
  | item hmem _ ih =>
    obtain ⟨i, hi⟩ := List.mem_iff_getElem?.mp hmem
    exact ih ((equal_list_iff.mp h).2 i _ _ hi hi)

/-- Only what is no number and the unspecified mark are unequal to themselves, and what they are
in. -/
theorem equal_self_iff (v : Value β) : v.equal v = true ↔
    (∀ x, IsPartOf (.number x) v → x.isNaN = false) ∧ ¬ IsPartOf .unspecified v := by
  constructor
  · intro h
    refine ⟨fun x hpart => ?_, fun hpart => ?_⟩
    · exact (float_beq_self_iff x).mp (equal_self_of_isPartOf hpart h)
    · cases equal_self_of_isPartOf hpart h
  · rintro ⟨hnumbers, hmark⟩
    induction v using itemsInduction with
    | items vs ih =>
      refine equal_list_iff.mpr ⟨rfl, ?_⟩
      intro i v w hv hw
      rw [hv] at hw
      obtain rfl := Option.some.inj hw
      have hmem := List.mem_of_getElem? hv
      exact ih v hmem (fun x hpart => hnumbers x (.item hmem hpart))
        fun hpart => hmark (.item hmem hpart)
    | other v hother =>
      cases v with
      | list vs => exact absurd rfl (hother vs)
      | number x => exact (float_beq_self_iff x).mpr (hnumbers x .self)
      | unspecified => exact absurd .self hmark
      | procedure p => exact Procedure.equal_iff.mpr rfl
      | symbol text | aliasTo text => exact beq_self_eq_true text
      | bool b => exact beq_self_eq_true b
      | nil => rfl

end Value

/-- Equality of values, which is what the primitive for it gives, is symmetric and transitive. A
value is equal to itself exactly when there is, at any depth of its lists, no double in it that is
not a number and no unspecified mark. Values of different kinds are not equal, so nil is not equal
to the empty list. Lists are equal exactly when they are equally long and have equal items in every
place. -/
theorem equality_is_partial_equivalence :
    (∀ v w : Value β, Builtin.equal.apply [v, w] = .ok (.bool (v.equal w))) ∧
    (∀ v w : Value β, v.equal w = w.equal v) ∧
    (∀ u v w : Value β, u.equal v = true → v.equal w = true → u.equal w = true) ∧
    (∀ v : Value β, v.equal v = true ↔
      (∀ x, Value.IsPartOf (.number x) v → x.isNaN = false) ∧ ¬ Value.IsPartOf .unspecified v) ∧
    (∀ v w : Value β, v.kind ≠ w.kind → v.equal w = false) ∧
    (Value.nil : Value β).equal (.list []) = false ∧
    ∀ vs ws : List (Value β), (Value.list vs).equal (.list ws) = true ↔ vs.length = ws.length ∧
      ∀ (i : Nat) (v w : Value β), vs[i]? = some v → ws[i]? = some w → v.equal w = true := by
  have hkind (v w : Value β) (h : v.kind ≠ w.kind) : v.equal w = false :=
    Bool.eq_false_iff.mpr fun hequal => h (Value.kind_eq_of_equal hequal)
  refine ⟨fun _ _ => rfl, ?_, fun u v w => Value.equal_trans, Value.equal_self_iff, hkind, ?_,
    fun vs ws => Value.equal_list_iff⟩
  · intro v w
    exact Bool.eq_iff_iff.mpr ⟨Value.equal_symm, Value.equal_symm⟩
  · exact hkind _ _ fun h => by cases h

/-- A double that is not a number keeps the list around it from being equal to itself. The two zeros
are equal, in lists too. -/
theorem list_around_nan_is_not_itself :
    let nan : Value := .number (Float.ofBits 0x7ff8000000000000)
    let zero : Value := .list [.symbol "x", .number (Float.ofBits 0)]
    let negated : Value := .list [.symbol "x", .number (Float.ofBits 0x8000000000000000)]
    (Value.list [.nil, .list [nan]]).equal (.list [.nil, .list [nan]]) = false ∧
      zero.equal negated = true ∧ negated.equal zero = true ∧ zero.equal zero = true ∧
      zero.equal .nil = false := by
  intro nan zero negated
  obtain ⟨-, hsymm, htrans, hself, hkind, -⟩ := equality_is_partial_equivalence (β := String)
  have hzeros : zero.equal negated = true := by decide
  have hback : negated.equal zero = true := (hsymm negated zero).trans hzeros
  refine ⟨?_, hzeros, hback, htrans _ _ _ hzeros hback, hkind zero .nil (by decide)⟩
  apply Bool.eq_false_iff.mpr
  intro h
  have hpart : Value.IsPartOf nan (.list [.nil, .list [nan]]) :=
    .item (List.mem_cons_of_mem _ List.mem_cons_self) (.item List.mem_cons_self .self)
  exact absurd ((hself _).mp h |>.1 _ hpart) (by decide)

end TextLisp
