import TextLisp.Proofs.Store.Slot

/-! Paths of aliases. From a global name on, each alias leads to the next name. Following aliases goes
along such a path up to its last name, or to the first name that has been met before. -/
namespace TextLisp

variable {β : Type}

namespace Table

def target? (globals : Table (Value β)) (name : String) : Option String :=
  match globals.get? name with
  | some (.aliasTo target) => some target
  | _ => none

/-- The names on the path from a name on, by their place. The path ends with a name that is unbound,
or bound to a value. -/
def aliasPath (globals : Table (Value β)) (name : String) : Nat → Option String
  | 0 => some name
  | i + 1 => (globals.aliasPath name i).bind globals.target?

/-- The path from a name on comes to another name. -/
def Reaches (globals : Table (Value β)) (name m : String) : Prop :=
  ∃ i, globals.aliasPath name i = some m

/-- The path from a name on comes to some name twice. -/
def Circles (globals : Table (Value β)) (name : String) : Prop :=
  ∃ i j m, i < j ∧ globals.aliasPath name i = some m ∧ globals.aliasPath name j = some m

def followWithin (globals : Table (Value β)) (start : String) :
    Nat → List String → Value β → Option (Except String (Value β))
  | steps, visited, .aliasTo target =>
    match steps with
    | 0 => none
    | steps + 1 =>
      if visited.contains target then some (.error start)
      else
        match globals.get? target with
        | none => some (.error target)
        | some value => globals.followWithin start steps (target :: visited) value
  | _, _, value => some (.ok value)

variable {globals : Table (Value β)} {name m m' x start : String} {i j : Nat}

/-- Every step that goes on visits a name that was bound and not visited, so one more step than there
are such names is enough. -/
theorem followWithin_eq_some {visited : List String} {value : Value β} {steps : Nat}
    (h : (globals.unvisited visited).length < steps) :
    globals.followWithin start steps visited value = some (globals.follow start visited value) := by
  fun_induction follow globals start visited value generalizing steps with
  | case1 visited target hold =>
    cases steps with
    | zero => cases h
    | succ steps => rw [followWithin, if_pos hold]
  | case2 visited target hnew hnone =>
    cases steps with
    | zero => cases h
    | succ steps => rw [followWithin, if_neg hnew, hnone]
  | case3 visited target hnew value hbound ih =>
    cases steps with
    | zero => cases h
    | succ steps =>
      have hfewer := length_unvisited_cons_lt hnew hbound
      rw [followWithin, if_neg hnew, hbound]
      exact ih (by omega)
  | case4 visited value hdata =>
    rw [followWithin]
    exact hdata

theorem target?_of_aliasTo {target : String} (h : globals.get? name = some (.aliasTo target)) :
    globals.target? name = some target := by
  rw [target?, h]

theorem target?_of_value {value : Value β} (h : globals.get? name = some value)
    (hdata : ∀ target, value ≠ .aliasTo target) : globals.target? name = none := by
  unfold target?
  split
  next target halias =>
    rw [h] at halias
    exact absurd (Option.some.inj halias) (hdata target)
  · rfl

theorem target?_of_unbound (h : globals.get? name = none) : globals.target? name = none := by
  rw [target?, h]

theorem aliasPath_succ (h : globals.aliasPath name i = some m) :
    globals.aliasPath name (i + 1) = globals.target? m := by
  rw [aliasPath, h, Option.bind_some]

/-- A path has no gaps. -/
theorem exists_aliasPath_of_le (h : globals.aliasPath name j = some m) (hle : i ≤ j) :
    ∃ x, globals.aliasPath name i = some x := by
  induction hle generalizing m with
  | refl => exact ⟨m, h⟩
  | step _ ih =>
    obtain ⟨x, hx, -⟩ := Option.bind_eq_some_iff.mp h
    exact ih hx

/-- From the same name on, a path goes on the same way. -/
theorem aliasPath_add_eq (h : globals.aliasPath name i = globals.aliasPath name j) (d : Nat) :
    globals.aliasPath name (i + d) = globals.aliasPath name (j + d) := by
  induction d with
  | zero => exact h
  | succ d ih => exact congrArg (Option.bind · globals.target?) ih

/-- Nothing on a path is behind its last name. -/
theorem le_of_target?_eq_none (h : globals.aliasPath name j = some m)
    (hlast : globals.target? m = none) (hx : globals.aliasPath name i = some x) : i ≤ j := by
  apply Nat.le_of_not_lt
  intro hlt
  obtain ⟨next, hnext⟩ := exists_aliasPath_of_le hx (Nat.succ_le_of_lt hlt)
  rw [aliasPath_succ h, hlast] at hnext
  cases hnext

/-- A path has one last name at most. -/
theorem eq_of_target?_eq_none (h : globals.aliasPath name j = some m)
    (hlast : globals.target? m = none) (h' : globals.aliasPath name i = some m')
    (hlast' : globals.target? m' = none) : m = m' := by
  have hij : i = j :=
    Nat.le_antisymm (le_of_target?_eq_none h hlast h') (le_of_target?_eq_none h' hlast' h)
  rw [hij, h] at h'
  exact Option.some.inj h'

/-- A path that comes to a name twice has no last name. -/
theorem Circles.target?_ne_none (h : globals.Circles name)
    (hm : globals.aliasPath name j = some m) : globals.target? m ≠ none := by
  intro hlast
  obtain ⟨first, second, x, hlt, hfirst, hsecond⟩ := h
  -- Beyond the last name there is none. The same number of steps behind the first visit of the name
  -- as this is behind the second, the path has not come to its end yet.
  obtain ⟨d, rfl⟩ := Nat.exists_eq_add_of_le (le_of_target?_eq_none hm hlast hsecond)
  have hshift := aliasPath_add_eq (hfirst.trans hsecond.symm) (d + 1)
  have hwithin : first + (d + 1) ≤ second + d := by omega
  obtain ⟨y, hy⟩ := exists_aliasPath_of_le hm hwithin
  have hbeyond : globals.aliasPath name (second + (d + 1)) = none :=
    (aliasPath_succ hm).trans hlast
  rw [hy, hbeyond] at hshift
  cases hshift

def Misses (globals : Table (Value β)) (before : List String) (name : String) (i : Nat) : Prop :=
  ∀ j ≤ i, ∀ x, globals.aliasPath name j = some x → x ∉ before

def HasVisited (globals : Table (Value β)) (before : List String) (name : String) (i : Nat)
    (visited : List String) : Prop :=
  ∀ x, x ∈ visited ↔ x ∈ before ∨ ∃ j ≤ i, globals.aliasPath name j = some x

/-- How it ends to read along the path from a name on when some names were met before. When the path
comes back to a name, what is reported is the name for which the reading was begun. -/
inductive Leads (globals : Table (Value β)) (start : String) (before : List String)
    (name : String) : Except String (Value β) → Prop
  | value {i : Nat} {m : String} {value : Value β} (hpath : globals.aliasPath name i = some m)
      (hmisses : globals.Misses before name i) (hbound : globals.get? m = some value)
      (hdata : ∀ target, value ≠ .aliasTo target) : Leads globals start before name (.ok value)
  | unbound {i : Nat} {m : String} (hpath : globals.aliasPath name i = some m)
      (hmisses : globals.Misses before name i) (hnone : globals.get? m = none) :
      Leads globals start before name (.error m)
  | back {i : Nat} {m : String} (hpath : globals.aliasPath name i = some m)
      (hmet : m ∈ before ∨ ∃ j < i, globals.aliasPath name j = some m) :
      Leads globals start before name (.error start)

variable {before visited : List String}

theorem misses_zero (h : name ∉ before) : globals.Misses before name 0 := by
  intro j hj x hx
  obtain rfl := Nat.le_zero.mp hj
  obtain rfl : name = x := Option.some.inj hx
  exact h

theorem Misses.succ (h : globals.Misses before name i)
    (hnext : globals.aliasPath name (i + 1) = some m) (hm : m ∉ before) :
    globals.Misses before name (i + 1) := by
  intro j hj x hx
  obtain hlt | rfl := Nat.lt_or_eq_of_le hj
  · exact h j (Nat.le_of_lt_succ hlt) x hx
  · rw [hnext] at hx
    obtain rfl := Option.some.inj hx
    exact hm

theorem hasVisited_zero : globals.HasVisited before name 0 (name :: before) := by
  intro x
  rw [List.mem_cons, or_comm]
  apply or_congr_right
  constructor
  · rintro rfl
    exact ⟨0, Nat.le_refl 0, rfl⟩
  · rintro ⟨j, hj, hx⟩
    obtain rfl := Nat.le_zero.mp hj
    exact (Option.some.inj hx).symm

theorem HasVisited.succ (h : globals.HasVisited before name i visited)
    (hnext : globals.aliasPath name (i + 1) = some m) :
    globals.HasVisited before name (i + 1) (m :: visited) := by
  intro x
  rw [List.mem_cons, h x]
  constructor
  · rintro (rfl | hbefore | ⟨j, hj, hx⟩)
    · exact Or.inr ⟨i + 1, Nat.le_refl _, hnext⟩
    · exact Or.inl hbefore
    · exact Or.inr ⟨j, Nat.le_succ_of_le hj, hx⟩
  · rintro (hbefore | ⟨j, hj, hx⟩)
    · exact Or.inr (Or.inl hbefore)
    · obtain hlt | rfl := Nat.lt_or_eq_of_le hj
      · exact Or.inr (Or.inr ⟨j, Nat.le_of_lt_succ hlt, hx⟩)
      · rw [hnext] at hx
        exact Or.inl (Option.some.inj hx).symm

/-- From a place of the path on, following aliases leads where the path leads. -/
theorem leads_follow {value : Value β} (hpath : globals.aliasPath name i = some m)
    (hbound : globals.get? m = some value) (hmisses : globals.Misses before name i)
    (hvisited : globals.HasVisited before name i visited) :
    globals.Leads start before name (globals.follow start visited value) := by
  -- Each call of `follow` is one place further. Where the value is an alias, its target is the next
  -- name of the path.
  fun_induction follow globals start visited value generalizing i m with
  | case1 visited target hold =>
    have hnext := (aliasPath_succ hpath).trans (target?_of_aliasTo hbound)
    obtain hbefore | ⟨j, hj, hmet⟩ := (hvisited target).mp (List.contains_iff_mem.mp hold)
    · exact .back hnext (Or.inl hbefore)
    · exact .back hnext (Or.inr ⟨j, Nat.lt_succ_of_le hj, hmet⟩)
  | case2 visited target hnew hnone =>
    have hnext := (aliasPath_succ hpath).trans (target?_of_aliasTo hbound)
    rw [List.contains_iff_mem, hvisited, not_or] at hnew
    exact .unbound hnext (hmisses.succ hnext hnew.1) hnone
  | case3 visited target hnew value hbound' ih =>
    have hnext := (aliasPath_succ hpath).trans (target?_of_aliasTo hbound)
    rw [List.contains_iff_mem, hvisited, not_or] at hnew
    exact ih hnext hbound' (hmisses.succ hnext hnew.1) (hvisited.succ hnext)
  | case4 visited value hdata => exact .value hpath hmisses hbound hdata

namespace Leads

variable {result : Except String (Value β)}

/-- A path comes to some name twice, or it has a last name. -/
theorem circles_or_exists_last (h : globals.Leads start [] name result) :
    globals.Circles name ∨ ∃ m, globals.Reaches name m ∧ (globals.get? m = none ∨
      ∃ value, globals.get? m = some value ∧ ∀ target, value ≠ .aliasTo target) := by
  cases h with
  | value hpath _ hbound hdata => exact Or.inr ⟨_, ⟨_, hpath⟩, Or.inr ⟨_, hbound, hdata⟩⟩
  | unbound hpath _ hnone => exact Or.inr ⟨_, ⟨_, hpath⟩, Or.inl hnone⟩
  | back hpath hmet =>
    obtain ⟨j, hj, hmet⟩ := hmet.resolve_left List.not_mem_nil
    exact Or.inl ⟨j, _, _, hj, hmet, hpath⟩

/-- A path that comes to no name that was met before leads to its last name. -/
theorem of_last (h : globals.Leads start before name result)
    (hpath : globals.aliasPath name i = some m) (hlast : globals.target? m = none)
    (hmisses : ∀ x ∈ before, ¬ globals.Reaches name x) :
    (∃ value, globals.get? m = some value ∧ result = .ok value) ∨
      globals.get? m = none ∧ result = .error m := by
  cases h with
  | value hpath' _ hbound hdata =>
    obtain rfl := eq_of_target?_eq_none hpath hlast hpath' (target?_of_value hbound hdata)
    exact Or.inl ⟨_, hbound, rfl⟩
  | unbound hpath' _ hnone =>
    obtain rfl := eq_of_target?_eq_none hpath hlast hpath' (target?_of_unbound hnone)
    exact Or.inr ⟨hnone, rfl⟩
  | back hpath' hmet =>
    obtain hbefore | ⟨j, hj, hmet⟩ := hmet
    · exact absurd ⟨_, hpath'⟩ (hmisses _ hbefore)
    · exact absurd hlast (Circles.target?_ne_none ⟨j, _, _, hj, hmet, hpath'⟩ hpath)

theorem of_value {value : Value β} (h : globals.Leads start before name result)
    (hpath : globals.aliasPath name i = some m) (hbound : globals.get? m = some value)
    (hdata : ∀ target, value ≠ .aliasTo target) (hmisses : ∀ x ∈ before, ¬ globals.Reaches name x) :
    result = .ok value := by
  obtain ⟨value', hbound', hvalue⟩ | ⟨hnone, -⟩ :=
    h.of_last hpath (target?_of_value hbound hdata) hmisses
  · rw [hbound] at hbound'
    obtain rfl := Option.some.inj hbound'
    exact hvalue
  · rw [hbound] at hnone
    cases hnone

theorem of_unbound (h : globals.Leads start before name result)
    (hpath : globals.aliasPath name i = some m) (hnone : globals.get? m = none)
    (hmisses : ∀ x ∈ before, ¬ globals.Reaches name x) : result = .error m := by
  obtain ⟨value, hbound, -⟩ | ⟨-, hresult⟩ := h.of_last hpath (target?_of_unbound hnone) hmisses
  · rw [hnone] at hbound
    cases hbound
  · exact hresult

/-- A path that comes back leads to no value, and the name where the reading began is reported. -/
theorem of_back (h : globals.Leads start before name result)
    (hback : globals.Circles name ∨ ∃ x ∈ before, globals.Reaches name x) :
    result = .error start := by
  -- Otherwise there is a last name, behind all others, and none up to it was met before.
  have hnot {i : Nat} {m : String} (hpath : globals.aliasPath name i = some m)
      (hlast : globals.target? m = none) (hmisses : globals.Misses before name i) : False := by
    obtain hcircles | ⟨x, hbefore, j, hx⟩ := hback
    · exact hcircles.target?_ne_none hpath hlast
    · exact hmisses j (le_of_target?_eq_none hpath hlast hx) x hx hbefore
  cases h with
  | value hpath hmisses hbound hdata =>
    exact (hnot hpath (target?_of_value hbound hdata) hmisses).elim
  | unbound hpath hmisses hnone => exact (hnot hpath (target?_of_unbound hnone) hmisses).elim
  | back => rfl

end Leads

end Table

end TextLisp
