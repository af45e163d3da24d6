import TextLisp.Environment

/-! Slots of the store. Every binding is a name in the table of an owner, and a write is described
by what it does to the table of each owner. -/
namespace TextLisp

namespace Table

variable {α : Type}

theorem bindingNames_put_of_mem {name : String} {entries : List (String × α)}
    (h : name ∈ bindingNames entries) (value : α) :
    bindingNames (putBinding name value entries) = bindingNames entries := by
  induction entries with
  | nil => cases h
  | cons entry rest ih =>
    obtain ⟨key, old⟩ := entry
    by_cases hkey : key = name
    · subst hkey
      simp [bindingNames, putBinding]
    · have hrest : name ∈ bindingNames rest := by
        rw [bindingNames, List.map_cons, List.mem_cons] at h
        exact h.resolve_left fun he => hkey he.symm
      have htail := ih hrest
      simp only [bindingNames, putBinding, if_neg hkey, List.map_cons] at htail ⊢
      rw [htail]

@[simp]
theorem names_insert_of_contains {t : Table α} {name : String} (h : t.contains name = true)
    (value : α) : (t.insert name value).names = t.names :=
  bindingNames_put_of_mem (contains_iff_mem_names.mp h) value

end Table

namespace Store

variable {β : Type}

def table (s : Store β) : Owner → Table (Value β)
  | .frame index => s.frame index
  | .globals => s.globals

def put (s : Store β) (owner : Owner) (name : String) (value : Value β) : Store β :=
  match owner with
  | .frame index => { s with frames := s.frames.modify index (·.insert name value) }
  | .globals => { s with globals := s.globals.insert name value }

theorem frame_of_lt {s : Store β} {index : Nat} (h : index < s.frames.size) :
    s.frame index = s.frames[index] := by
  simp [frame, h]

@[simp]
theorem frame_of_le {s : Store β} {index : Nat} (h : s.frames.size ≤ index) :
    s.frame index = Table.empty := by
  simp [frame, h]

/-- Whether an owner has a table. Handles to frames that were never added have none. -/
def HasTable (s : Store β) : Owner → Prop
  | .frame index => index < s.frames.size
  | .globals => True

/-- Only an owner that has a table binds names. -/
theorem hasTable_of_contains {s : Store β} {owner : Owner} {name : String}
    (h : (s.table owner).contains name = true) : s.HasTable owner := by
  cases owner with
  | frame index =>
    apply Nat.lt_of_not_le
    intro hle
    simp [table, hle] at h
  | globals => exact trivial

@[simp]
theorem size_put (s : Store β) (owner : Owner) (name : String) (value : Value β) :
    (s.put owner name value).frames.size = s.frames.size := by
  cases owner with
  | frame index => simp [put]
  | globals => rfl

@[simp]
theorem nextClosure_put (s : Store β) (owner : Owner) (name : String) (value : Value β) :
    (s.put owner name value).nextClosure = s.nextClosure := by
  cases owner <;> rfl

@[simp]
theorem table_put_self {s : Store β} {owner : Owner} (h : s.HasTable owner) (name : String)
    (value : Value β) :
    (s.put owner name value).table owner = (s.table owner).insert name value := by
  cases owner with
  | frame index =>
    have hlt : index < s.frames.size := h
    have hlt' : index < (s.put (.frame index) name value).frames.size := by
      rwa [size_put]
    simp only [table, frame_of_lt hlt, frame_of_lt hlt']
    exact Array.getElem_modify_self ..
  | globals => rfl

/-- A write through a handle that dangles has no effect. -/
theorem put_of_not_hasTable {s : Store β} {owner : Owner} (h : ¬ s.HasTable owner) (name : String)
    (value : Value β) : s.put owner name value = s := by
  cases owner with
  | frame index =>
    have hframes : s.frames.modify index (·.insert name value) = s.frames := by
      apply Array.ext
      · exact Array.size_modify
      · intro i hi hi'
        have hne : index ≠ i := fun he => h (he ▸ hi')
        rw [Array.getElem_modify_of_ne hne]
    rw [put, hframes]
  | globals => exact absurd trivial h

@[simp]
theorem table_put_of_ne (s : Store β) {owner other : Owner} (h : other ≠ owner) (name : String)
    (value : Value β) : (s.put owner name value).table other = s.table other := by
  cases owner with
  | frame index =>
    cases other with
    | frame index' =>
      have hne : index ≠ index' := fun he => h (congrArg Owner.frame he.symm)
      simp [table, frame, put, Array.getElem?_modify, hne]
    | globals => rfl
  | globals =>
    cases other with
    | frame index' => rfl
    | globals => exact absurd rfl h

/-- A write goes to one slot. -/
@[simp, grind =]
theorem get?_put_of_hasTable {s : Store β} {owner : Owner} (h : s.HasTable owner) (name : String)
    (value : Value β) (other : Owner) (name' : String) :
    ((s.put owner name value).table other).get? name' =
      if other = owner ∧ name' = name then some value else (s.table other).get? name' := by
  by_cases hother : other = owner
  · subst hother
    simp [h]
  · simp [hother]

theorem get?_put {s : Store β} {owner : Owner} {name : String}
    (h : (s.table owner).contains name = true) (value : Value β) (other : Owner)
    (name' : String) :
    ((s.put owner name value).table other).get? name' =
      if other = owner ∧ name' = name then some value else (s.table other).get? name' :=
  get?_put_of_hasTable (hasTable_of_contains h) name value other name'

theorem assign_globals_eq (s : Store β) (name : String) (value : Value β) :
    s.assign .globals name value =
      if s.globals.contains name then .ok (s.put .globals name value)
      else .error (.unboundVariable name) := by
  change (s.globals.set name value).map _ = _
  unfold Table.set
  split <;> rfl

/-- An assignment to a bound slot succeeds. -/
theorem assign_of_contains {s : Store β} {owner : Owner} {name : String}
    (h : (s.table owner).contains name = true) (value : Value β) :
    s.assign owner name value = .ok (s.put owner name value) := by
  cases owner with
  | frame index => rfl
  | globals =>
    rw [assign_globals_eq]
    exact if_pos h

/-- A definition binds a name that is new, and otherwise fails. -/
theorem define_eq (s : Store β) (name : String) (value : Value β) :
    s.define name value =
      if s.globals.contains name then .error (.redefinition name)
      else .ok (s.put .globals name value) := by
  unfold define Table.define
  split <;> rfl

end Store

namespace Environment

variable {β : Type}

def IsValid (env : Environment) (s : Store β) : Prop :=
  ∀ index ∈ env.frames, index < s.frames.size

instance (env : Environment) (s : Store β) : Decidable (env.IsValid s) :=
  inferInstanceAs (Decidable (∀ index ∈ env.frames, index < s.frames.size))

theorem IsValid.mono {env : Environment} {s s' : Store β} (h : env.IsValid s)
    (hsize : s.frames.size ≤ s'.frames.size) : env.IsValid s' :=
  fun index hmem => Nat.lt_of_lt_of_le (h index hmem) hsize

theorem contains_of_owner? {env : Environment} {s : Store β} {name : String} {owner : Owner}
    (h : env.owner? s name = some owner) : (s.table owner).contains name = true := by
  unfold owner? at h
  split at h
  next index hframe =>
    obtain rfl := Option.some.inj h
    exact List.find?_some (p := fun i => (s.frame i).contains name) hframe
  · split at h
    next hglobal =>
      obtain rfl := Option.some.inj h
      exact hglobal
    · cases h

/-- The two traversals of a chain agree: what is looked up is what the owner's slot holds. -/
theorem lookup_eq_owner? (env : Environment) (s : Store β) (name : String) :
    env.lookup s name = (env.owner? s name).bind fun owner => (s.table owner).get? name := by
  obtain ⟨frames⟩ := env
  -- Lookup asks each table for a value, the owner is the first that has the name.
  induction frames with
  | nil =>
    change s.globals.get? name =
      (if s.globals.contains name then some Owner.globals else none).bind fun owner =>
        (s.table owner).get? name
    split
    · rfl
    next hnone => exact Option.not_isSome_iff_eq_none.mp hnone
  | cons index frames ih =>
    unfold lookup owner? frame? at ih ⊢
    rw [List.findSome?_cons, List.find?_cons]
    cases hget : (s.frame index).get? name with
    | some value =>
      have hbound : (s.frame index).contains name = true := by rw [Table.contains, hget]; rfl
      rw [hbound]
      exact hget.symm
    | none =>
      have hbound : (s.frame index).contains name = false := by rw [Table.contains, hget]; rfl
      rw [hbound]
      exact ih

/-- A binding comes from the innermost frame that has the name, else from the globals. -/
theorem lookup_eq_frame? (env : Environment) (s : Store β) (name : String) :
    env.lookup s name =
      match env.frame? s name with
      | some index => (s.frame index).get? name
      | none => s.globals.get? name := by
  rw [lookup_eq_owner?, owner?]
  cases env.frame? s name with
  | some index => rfl
  | none =>
    dsimp only
    split
    · rfl
    next hnone => exact (Option.not_isSome_iff_eq_none.mp hnone).symm

end Environment

end TextLisp
