import TextLisp.Proofs.Store.History

namespace TextLisp

variable {β : Type}

/-- What a list of bindings makes is bound as one of them says. -/
theorem Table.mem_of_get?_ofList {α : Type} {bindings : List (String × α)} {name : String}
    {value : α} (h : (Table.ofList bindings).get? name = some value) :
    (name, value) ∈ bindings := by
  have hfoldl (bindings : List (String × α)) (t : Table α)
      (h : (bindings.foldl (fun t binding => t.insert binding.1 binding.2) t).get? name =
        some value) : t.get? name = some value ∨ (name, value) ∈ bindings := by
    induction bindings generalizing t with
    | nil => exact Or.inl h
    | cons binding bindings ih =>
      obtain hfirst | hmem := ih _ h
      · grind
      · exact Or.inr (List.mem_cons_of_mem binding hmem)
  obtain hnone | hmem := hfoldl bindings empty h
  · cases hnone
  · exact hmem

theorem Table.exists_get?_of_mem_names {α : Type} {t : Table α} {name : String}
    (h : name ∈ t.names) : ∃ value, t.get? name = some value :=
  Option.isSome_iff_exists.mp (contains_iff_mem_names.mpr h)

/-- Following aliases through values that satisfy a condition leads to one that does, or fails with
the name where it began or the target of such a value. -/
theorem Table.of_follow {P : Value β → Prop} {globals : Table (Value β)}
    (h : ∀ name value, globals.get? name = some value → P value) {start : String}
    {visited : List String} {value : Value β} (hvalue : P value) :
    (∀ result, globals.follow start visited value = .ok result → P result) ∧
    ∀ name, globals.follow start visited value = .error name →
      name = start ∨ P (.aliasTo name) := by
  fun_induction follow globals start visited value with
  | case1 =>
    refine ⟨fun _ he => (by cases he), ?_⟩
    intro name he
    exact Or.inl (Except.error.inj he).symm
  | case2 =>
    refine ⟨fun _ he => (by cases he), ?_⟩
    intro name he
    obtain rfl := Except.error.inj he
    exact Or.inr hvalue
  | case3 visited target _ next hnext ih => exact ih (h target next hnext)
  | case4 visited value =>
    refine ⟨?_, fun _ he => (by cases he)⟩
    intro result he
    obtain rfl := Except.ok.inj he
    exact hvalue

namespace Store

def Holds (P : Owner → String → Value β → Prop) (s : Store β) : Prop :=
  ∀ owner name value, (s.table owner).get? name = some value → P owner name value

namespace Holds

variable {P P' : Owner → String → Value β → Prop} {s : Store β}

theorem mono (h : s.Holds P) (hP : ∀ owner name value, P owner name value → P' owner name value) :
    s.Holds P' :=
  fun owner name value hvalue => hP owner name value (h owner name value hvalue)

/-- A write changes one slot, so of the others the condition need only be as strong. -/
theorem put_of_ne (h : s.Holds P) {owner : Owner} {name : String} {value : Value β}
    (htable : s.HasTable owner) (hvalue : P' owner name value)
    (hP : ∀ other name' value', ¬ (other = owner ∧ name' = name) → P other name' value' →
      P' other name' value') : (s.put owner name value).Holds P' := by
  intro other name' value' hslot
  rw [get?_put_of_hasTable htable] at hslot
  split at hslot
  next hsame =>
    obtain ⟨rfl, rfl⟩ := hsame
    obtain rfl := Option.some.inj hslot
    exact hvalue
  next hother => exact hP other name' value' hother (h other name' value' hslot)

theorem put (h : s.Holds P) {owner : Owner} {name : String} {value : Value β}
    (hvalue : P owner name value) : (s.put owner name value).Holds P := by
  by_cases htable : s.HasTable owner
  · exact h.put_of_ne htable hvalue fun _ _ _ _ hold => hold
  · rw [put_of_not_hasTable htable]
    exact h

theorem addFrame (h : s.Holds P) {bindings : List (String × Value β)}
    (hbindings : ∀ index, ∀ binding ∈ bindings, P (.frame index) binding.1 binding.2) :
    (s.addFrame (Table.ofList bindings)).Holds P := by
  intro owner name value hslot
  cases owner with
  | globals => exact h .globals name value hslot
  | frame index =>
    change ((s.addFrame _).frame index).get? name = some value at hslot
    rw [frame_addFrame] at hslot
    split at hslot
    · exact hbindings index _ (Table.mem_of_get?_ofList hslot)
    · exact h (.frame index) name value hslot

theorem nextClosure (h : s.Holds P) (identity : Nat) :
    Store.Holds P { s with nextClosure := identity } := by
  intro owner name value hslot
  cases owner with
  | frame index => exact h (.frame index) name value hslot
  | globals => exact h .globals name value hslot

theorem lookup {P : Value β → Prop} (h : s.Holds fun _ _ value => P value) {env : Environment}
    {name : String} {value : Value β} (hvalue : env.lookup s name = some value) : P value := by
  rw [Environment.lookup_eq_owner?] at hvalue
  obtain ⟨owner, -, hget⟩ := Option.bind_eq_some_iff.mp hvalue
  exact h owner name value hget

/-- What a name is resolved to satisfies the condition, and a name that is reported instead is the
one asked for or the target of a bound alias. -/
theorem resolve {P : Value β → Prop} (h : s.Holds fun _ _ value => P value) (env : Environment)
    (name : String) :
    (∀ value, env.resolve s name = .ok value → P value) ∧
    ∀ other, env.resolve s name = .error other → other = name ∨ P (.aliasTo other) := by
  unfold Environment.resolve
  split
  · refine ⟨fun _ he => (by cases he), ?_⟩
    intro other he
    exact Or.inl (Except.error.inj he).symm
  next found hfound => exact Table.of_follow (h .globals) (h.lookup hfound)

end Holds

theorem holds_ofGlobals {P : Owner → String → Value β → Prop} {bindings : List (String × Value β)}
    (h : ∀ binding ∈ bindings, P .globals binding.1 binding.2) :
    (ofGlobals (Table.ofList bindings)).Holds P := by
  intro owner name value hslot
  cases owner with
  | frame index => cases hslot
  | globals => exact h _ (Table.mem_of_get?_ofList hslot)

/-- At the start there are operations, constants and aliases. -/
theorem holds_initialGlobals {P : Owner → String → Value β → Prop}
    (hoperation : ∀ operation : Builtin, P .globals operation.id operation.toValue)
    (hconstant : ∀ constant ∈ constants, P .globals constant.1 constant.2)
    (halias : ∀ pair ∈ aliases, P .globals pair.1 (.aliasTo pair.2)) :
    (ofGlobals initialGlobals).Holds P := by
  apply holds_ofGlobals
  intro binding hmem
  simp only [List.mem_append, List.mem_map] at hmem
  obtain (⟨operation, -, rfl⟩ | hmem) | ⟨pair, hmem, rfl⟩ := hmem
  · exact hoperation operation
  · exact hconstant binding hmem
  · exact halias pair hmem

/-- In the course of a run slots of names are written with values that can be bound, and parameters
get any values. -/
theorem History.holds {P : Owner → String → Value β → Prop} {s s' : Store β} {log : List Record}
    (h : s.History log s') (hs : s.Holds P)
    (hwritten : ∀ owner name value, isName name = true → value.isUnspecified = false →
      P owner name value)
    (hparameter : ∀ index name value, isName name = true → P (.frame index) name value) :
    s'.Holds P := by
  induction h with
  | start => exact hs
  | note _ _ ih | refuse _ _ _ _ ih => exact ih
  | define _ hname hvalue _ ih | assign _ hname hvalue _ ih =>
    exact ih.put (hwritten _ _ _ hname hvalue)
  | closure _ ih => exact ih.nextClosure _
  | enter _ _ hname _ ih =>
    apply ih.addFrame
    intro index binding hmem
    exact hparameter index _ _ (hname _ (List.of_mem_zip hmem).1)

end Store

end TextLisp
