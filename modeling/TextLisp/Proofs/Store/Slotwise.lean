import TextLisp.Proofs.Store.Chain
import TextLisp.Proofs.Store.Slot
import TextLisp.Proofs.Value.Alike

/-! Stores that are compared slot by slot, where some slots may be left out. Chains with the same
tables find a name in the same place, however often they repeat a table. -/
namespace TextLisp

variable {β γ : Type} {R : Procedure β → Procedure γ → Prop} {T : String → Prop}

namespace Table

/-- Aliases lead the same way through tables that are alike in the names aliases stand for. -/
theorem agree_follow {t : Table (Value β)} {u : Table (Value γ)}
    (h : ∀ target, T target → Option.Rel (Value.AlikeWhere R T) (t.get? target) (u.get? target))
    (start : String) (visited : List String) {value : Value β} {value' : Value γ}
    (hvalue : Value.AlikeWhere R T value value') :
    Agree (fun _ => True) (Value.AlikeWhere R T) (t.follow start visited value)
      (u.follow start visited value') := by
  fun_induction Table.follow t start visited value generalizing value' with
  -- The alias leads back to a name that was met on the way.
  | case1 visited target hvisited =>
    cases hvalue
    simp only [hvisited, follow_of_visited]
    exact .error trivial
  -- The alias leads to a name that is not bound, in one table as in the other.
  | case2 visited target hvisited hnone =>
    cases hvalue with | aliasTo htarget
    have hget := h target htarget
    rw [hnone] at hget
    cases hfound : u.get? target with
    | none =>
      rw [follow_of_unbound hvisited hfound]
      exact .error trivial
    | some next' =>
      rw [hfound] at hget
      cases hget
  -- The alias leads on.
  | case3 visited target hvisited next hnext ih =>
    cases hvalue with | aliasTo htarget
    have hget := h target htarget
    rw [hnext] at hget
    cases hfound : u.get? target with
    | none =>
      rw [hfound] at hget
      cases hget
    | some next' =>
      rw [hfound] at hget
      rw [follow_of_bound hvisited hfound]
      cases hget with
      | some hnext' => exact ih hnext'
  -- The value is no alias, and then neither is the one that it is alike to.
  | case4 visited value hdata =>
    have hdata' : ∀ target, value' ≠ .aliasTo target := by
      rintro target rfl
      cases hvalue
      exact hdata target rfl
    rw [follow_of_value hdata']
    exact .ok hvalue

variable {V : Value β → Value γ → Prop}

theorem contains_eq_of_rel {t : Table (Value β)} {u : Table (Value γ)} {name : String}
    (h : Option.Rel V (t.get? name) (u.get? name)) : t.contains name = u.contains name := by
  unfold contains
  generalize t.get? name = found at h ⊢
  generalize u.get? name = found' at h ⊢
  cases h <;> rfl

/-- Parameters stand for the arguments in the same place. -/
theorem rel_get?_ofList_zip (names : List String) {args : List (Value β)} {args' : List (Value γ)}
    (h : List.Forall₂ V args args') (name : String) :
    Option.Rel V ((ofList (names.zip args)).get? name) ((ofList (names.zip args')).get? name) := by
  have hfoldl {t : Table (Value β)} {u : Table (Value γ)}
      (ht : Option.Rel V (t.get? name) (u.get? name)) :
      Option.Rel V
        (((names.zip args).foldl (fun t binding => t.insert binding.1 binding.2) t).get? name)
        (((names.zip args').foldl (fun t binding => t.insert binding.1 binding.2) u).get? name) := by
    induction h generalizing names t u with
    | nil =>
      rw [List.zip_nil_right, List.zip_nil_right]
      exact ht
    | cons harg _ ih =>
      cases names with
      | nil => exact ht
      | cons other names =>
        apply ih names
        simp only [get?_insert]
        split
        · exact .some harg
        · exact ht
  exact hfoldl .none

end Table

namespace Store

/-- The stores have as many frames and have made as many closures, and related values, or none, in
each of the slots that are compared. -/
structure Slotwise (V : Value β → Value γ → Prop) (compares : Owner → String → Prop) (s : Store β)
    (t : Store γ) : Prop where
  slot : ∀ owner name, compares owner name →
    Option.Rel V ((s.table owner).get? name) ((t.table owner).get? name)
  size : s.frames.size = t.frames.size
  nextClosure : s.nextClosure = t.nextClosure

variable {V : Value β → Value γ → Prop} {compares : Owner → String → Prop} {s : Store β}
  {t : Store γ}

/-- Stores with the same global names refuse the same definitions. -/
theorem agree_define {P : Store β → Store γ → Prop} {name : String} {value : Value β}
    {value' : Value γ} (hbound : s.globals.contains name = t.globals.contains name)
    (hput : P (s.put .globals name value) (t.put .globals name value')) :
    Agree (fun _ => True) P (s.define name value) (t.define name value') := by
  rw [define_eq, define_eq, hbound]
  split
  · exact .error trivial
  · exact .ok hput

/-- Stores with the same global names refuse the same assignments to globals. -/
theorem agree_assign_globals {P : Store β → Store γ → Prop} {name : String} {value : Value β}
    {value' : Value γ} (hbound : s.globals.contains name = t.globals.contains name)
    (hput : P (s.put .globals name value) (t.put .globals name value')) :
    Agree (fun _ => True) P (s.assign .globals name value) (t.assign .globals name value') := by
  rw [assign_globals_eq, assign_globals_eq, hbound]
  split
  · exact .ok hput
  · exact .error trivial

theorem agree_assign {P : Store β → Store γ → Prop} {owner : Owner} {name : String}
    {value : Value β} {value' : Value γ}
    (hbound : s.globals.contains name = t.globals.contains name)
    (hput : P (s.put owner name value) (t.put owner name value')) :
    Agree (fun _ => True) P (s.assign owner name value) (t.assign owner name value') := by
  cases owner with
  | frame index => exact .ok hput
  | globals => exact agree_assign_globals hbound hput

/-- What is found under a name is led on through the globals. -/
theorem agree_resolve {env env' : Environment} {name : String}
    (hlookup : Option.Rel (Value.AlikeWhere R T) (env.lookup s name) (env'.lookup t name))
    (hglobals : ∀ target, T target →
      Option.Rel (Value.AlikeWhere R T) (s.globals.get? target) (t.globals.get? target)) :
    Agree (fun _ => True) (Value.AlikeWhere R T) (env.resolve s name) (env'.resolve t name) := by
  unfold Environment.resolve
  generalize env.lookup s name = found at hlookup ⊢
  generalize env'.lookup t name = found' at hlookup ⊢
  cases hlookup with
  | none => exact .error trivial
  | some hvalue => exact Table.agree_follow hglobals name [name] hvalue

namespace Slotwise

variable (h : s.Slotwise V compares t)
include h

theorem contains (owner : Owner) (name : String) (hslot : compares owner name) :
    (s.table owner).contains name = (t.table owner).contains name :=
  Table.contains_eq_of_rel (h.slot owner name hslot)

theorem hasTable (owner : Owner) : s.HasTable owner ↔ t.HasTable owner := by
  cases owner with
  | frame index =>
    unfold HasTable
    rw [h.size]
  | globals => exact Iff.rfl

theorem put (owner : Owner) (name : String) {value : Value β} {value' : Value γ}
    (hvalue : V value value') :
    (s.put owner name value).Slotwise V compares (t.put owner name value') := by
  by_cases htable : s.HasTable owner
  · refine ⟨?_, by simp [h.size], by simp [h.nextClosure]⟩
    intro other name' hslot
    rw [get?_put_of_hasTable htable, get?_put_of_hasTable ((h.hasTable owner).mp htable)]
    split
    · exact .some hvalue
    · exact h.slot other name' hslot
  -- A handle that dangles in one store dangles in the other, and nothing is written.
  · rw [put_of_not_hasTable htable, put_of_not_hasTable (mt (h.hasTable owner).mpr htable)]
    exact h

theorem addFrame {table : Table (Value β)} {table' : Table (Value γ)}
    (htable : ∀ name, Option.Rel V (table.get? name) (table'.get? name)) :
    (s.addFrame table).Slotwise V compares (t.addFrame table') := by
  refine ⟨?_, ?_, h.nextClosure⟩
  · intro owner name hslot
    cases owner with
    | frame index =>
      change Option.Rel V (((s.addFrame table).frame index).get? name)
        (((t.addFrame table').frame index).get? name)
      simp only [frame_addFrame, h.size]
      split
      · exact htable name
      · exact h.slot (.frame index) name hslot
    | globals => exact h.slot .globals name hslot
  · simp only [Store.addFrame, Array.size_push, h.size]

theorem closure :
    Store.Slotwise V compares { s with nextClosure := s.nextClosure + 1 }
      { t with nextClosure := t.nextClosure + 1 } := by
  refine ⟨?_, h.size, congrArg (· + 1) h.nextClosure⟩
  intro owner name hslot
  have hget := h.slot owner name hslot
  cases owner <;> exact hget

variable {env env' : Environment} (henv : env.dedup = env'.dedup) {name : String}
  (hname : ∀ owner, compares owner name)
include henv hname

theorem owner? : env.owner? s name = env'.owner? t name := by
  have hframe : env.frame? s name = env'.frame? t name := by
    have hcontains (index : Nat) : (s.frame index).contains name = (t.frame index).contains name :=
      h.contains (.frame index) name (hname _)
    rw [← env.frame?_dedup s, ← env'.frame?_dedup t, henv]
    unfold Environment.frame?
    simp only [hcontains]
  have hglobals : s.globals.contains name = t.globals.contains name :=
    h.contains .globals name (hname _)
  unfold Environment.owner?
  rw [hframe, hglobals]

theorem lookup : Option.Rel V (env.lookup s name) (env'.lookup t name) := by
  rw [Environment.lookup_eq_owner?, Environment.lookup_eq_owner?, h.owner? henv hname]
  cases env'.owner? t name with
  | none => exact .none
  | some owner => exact h.slot owner name (hname owner)

end Slotwise

theorem Slotwise.resolve (h : s.Slotwise (Value.AlikeWhere R T) compares t)
    {env env' : Environment} (henv : env.dedup = env'.dedup) {name : String}
    (hname : ∀ owner, compares owner name)
    (htargets : ∀ target, T target → compares .globals target) :
    Agree (fun _ => True) (Value.AlikeWhere R T) (env.resolve s name) (env'.resolve t name) := by
  apply agree_resolve (h.lookup henv hname)
  intro target htarget
  exact h.slot .globals target (htargets target htarget)

end Store

end TextLisp
