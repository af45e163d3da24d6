import TextLisp.Store

namespace TextLisp

variable {β : Type}

namespace Table

def unvisited (globals : Table (Value β)) (visited : List String) : List String :=
  globals.names.filter fun name => !visited.contains name

theorem length_unvisited_cons_lt {globals : Table (Value β)} {visited : List String} {name : String}
    {value : Value β} (hnew : ¬ visited.contains name = true)
    (hbound : globals.get? name = some value) :
    (globals.unvisited (name :: visited)).length < (globals.unvisited visited).length := by
  have hcons : globals.unvisited (name :: visited) =
      (globals.unvisited visited).filter fun n => !(n == name) := by
    simp only [unvisited, List.filter_filter, List.contains_cons, Bool.not_or]
  have hmem : name ∈ globals.names := by
    rw [← contains_iff_mem_names, contains, hbound]
    rfl
  rw [hcons, List.length_filter_lt_length_iff_exists]
  refine ⟨name, List.mem_filter.mpr ⟨hmem, ?_⟩, by simp⟩
  simpa using hnew

/-- Follows aliases through the globals. The names visited so far end a cycle, which leaves the
first name without a value. Fails with the name that has none. -/
def follow (globals : Table (Value β)) (start : String) (visited : List String) :
    Value β → Except String (Value β)
  | .aliasTo target =>
    if _hnew : visited.contains target then .error start
    else
      match _hbound : globals.get? target with
      | none => .error target
      | some value => globals.follow start (target :: visited) value
  | value => .ok value
termination_by (globals.unvisited visited).length
decreasing_by exact length_unvisited_cons_lt _hnew _hbound

variable {globals : Table (Value β)} {start : String} {visited : List String}

@[simp]
theorem follow_of_visited {target : String} (h : visited.contains target = true) :
    globals.follow start visited (.aliasTo target) = .error start := by
  rw [follow, dif_pos h]

@[simp]
theorem follow_of_unbound {target : String} (h : ¬ visited.contains target = true)
    (hnone : globals.get? target = none) :
    globals.follow start visited (.aliasTo target) = .error target := by
  rw [follow, dif_neg h]
  split
  · rfl
  next hbound =>
    rw [hnone] at hbound
    cases hbound

@[simp]
theorem follow_of_bound {target : String} {value : Value β}
    (h : ¬ visited.contains target = true) (hbound : globals.get? target = some value) :
    globals.follow start visited (.aliasTo target) =
      globals.follow start (target :: visited) value := by
  rw [follow, dif_neg h]
  split
  next hnone =>
    rw [hnone] at hbound
    cases hbound
  next hbound' =>
    rw [hbound] at hbound'
    cases hbound'
    rfl

@[simp]
theorem follow_of_value {value : Value β} (h : ∀ target, value ≠ .aliasTo target) :
    globals.follow start visited value = .ok value := by
  rw [follow]
  exact h

/-- Where aliases lead, there is no alias. -/
theorem ne_aliasTo_of_follow {value result : Value β}
    (h : globals.follow start visited value = .ok result) (target : String) :
    result ≠ .aliasTo target := by
  fun_induction follow globals start visited value with
  | case1 => cases h
  | case2 => cases h
  | case3 _ _ _ _ _ ih => exact ih h
  | case4 _ value hdata =>
    obtain rfl := Except.ok.inj h
    exact hdata target

end Table

namespace Environment

def empty : Environment :=
  ⟨[]⟩

def depth (env : Environment) : Nat :=
  env.frames.length

/-- The chain with another one attached behind it. Both share their frames with the result. -/
def splice (env tail : Environment) : Environment :=
  ⟨env.frames ++ tail.frames⟩

def push (env : Environment) (index : Nat) : Environment :=
  ⟨index :: env.frames⟩

def frame? (env : Environment) (s : Store β) (name : String) : Option Nat :=
  env.frames.find? fun index => (s.frame index).contains name

/-- What owns a name: the innermost frame that binds it, else the globals. -/
def owner? (env : Environment) (s : Store β) (name : String) : Option Owner :=
  match env.frame? s name with
  | some index => some (.frame index)
  | none => if s.globals.contains name then some .globals else none

/-- The binding of a name, aliases as they are: from the innermost frame, else from the globals. -/
def lookup (env : Environment) (s : Store β) (name : String) : Option (Value β) :=
  match env.frames.findSome? fun index => (s.frame index).get? name with
  | some value => some value
  | none => s.globals.get? name

/-- The value of a name, aliases followed. Fails with the name that has no value. -/
def resolve (env : Environment) (s : Store β) (name : String) : Except String (Value β) :=
  match env.lookup s name with
  | none => .error name
  | some value => s.globals.follow name [name] value

def read (env : Environment) (s : Store β) (name : String) : Except Error (Value β) :=
  (env.resolve s name).mapError .unboundVariable

end Environment

end TextLisp
