import TextLisp.Error

namespace TextLisp

variable {α : Type}

def bindingNames (entries : List (String × α)) : List String :=
  entries.map Prod.fst

def putBinding (name : String) (value : α) : List (String × α) → List (String × α)
  | [] => [(name, value)]
  | (n, v) :: rest => if n = name then (n, value) :: rest else (n, v) :: putBinding name value rest

@[simp]
theorem mem_bindingNames_put (name : String) (value : α) (entries : List (String × α))
    (n : String) : n ∈ bindingNames (putBinding name value entries) ↔
      n = name ∨ n ∈ bindingNames entries := by
  induction entries with
  | nil => simp [bindingNames, putBinding]
  | cons entry rest ih =>
    obtain ⟨k, v⟩ := entry
    by_cases h : k = name
    · subst h
      simp [bindingNames, putBinding]
    · simp only [bindingNames, putBinding, if_neg h, List.map_cons, List.mem_cons] at ih ⊢
      rw [ih, or_left_comm]

/-- A name that is bound again is not listed again. -/
theorem nodup_bindingNames_put (name : String) (value : α) (entries : List (String × α))
    (h : (bindingNames entries).Nodup) : (bindingNames (putBinding name value entries)).Nodup := by
  induction entries with
  | nil => simp [bindingNames, putBinding]
  | cons entry rest ih =>
    obtain ⟨k, v⟩ := entry
    have hrest : k ∉ bindingNames rest ∧ (bindingNames rest).Nodup := List.nodup_cons.mp h
    by_cases hk : k = name
    · subst hk
      simpa [bindingNames, putBinding] using h
    · have hm : k ∉ bindingNames (putBinding name value rest) := by
        simp [hk, hrest.1]
      have hcons := List.nodup_cons.mpr ⟨hm, ih hrest.2⟩
      simpa only [bindingNames, putBinding, if_neg hk, List.map_cons] using hcons

theorem lookup_cons_eq (m k : String) (v : α) (rest : List (String × α)) :
    ((k, v) :: rest).lookup m = if m = k then some v else rest.lookup m := by
  by_cases h : m = k
  · simp [h]
  · rw [List.lookup_cons, beq_false_of_ne h, if_neg h]

@[simp]
theorem lookup_putBinding (name m : String) (value : α) (entries : List (String × α)) :
    (putBinding name value entries).lookup m =
      if m = name then some value else entries.lookup m := by
  induction entries with
  | nil => exact lookup_cons_eq m name value []
  | cons entry rest ih =>
    obtain ⟨k, v⟩ := entry
    by_cases hk : k = name
    · simp only [putBinding, lookup_cons_eq, hk, if_true]
      split <;> rfl
    · simp only [putBinding, lookup_cons_eq, if_neg hk, ih]
      split
      next h => rw [if_neg fun he => hk (h.symm.trans he)]
      · rfl

/-- A binding table. Names keep the order in which they were first bound. -/
structure Table (α : Type) where
  entries : List (String × α)
  nodup : (bindingNames entries).Nodup

namespace Table

def empty : Table α :=
  ⟨[], List.nodup_nil⟩

def get? (t : Table α) (name : String) : Option α :=
  t.entries.lookup name

def names (t : Table α) : List String :=
  bindingNames t.entries

def contains (t : Table α) (name : String) : Bool :=
  (t.get? name).isSome

def size (t : Table α) : Nat :=
  t.entries.length

def insert (t : Table α) (name : String) (value : α) : Table α :=
  ⟨putBinding name value t.entries, nodup_bindingNames_put name value t.entries t.nodup⟩

/-- The table of a list of bindings. A later binding of a name replaces an earlier one. -/
def ofList (bindings : List (String × α)) : Table α :=
  bindings.foldl (fun t binding => t.insert binding.1 binding.2) empty

/-- Binds a new name. A bound name is never bound again. -/
def define (t : Table α) (name : String) (value : α) : Except Error (Table α) :=
  if t.contains name then .error (.redefinition name) else .ok (t.insert name value)

def set (t : Table α) (name : String) (value : α) : Except Error (Table α) :=
  if t.contains name then .ok (t.insert name value) else .error (.unboundVariable name)

def sorted (t : Table α) : List (String × α) :=
  t.entries.mergeSort fun a b => a.1 ≤ b.1

@[simp]
theorem get?_empty (name : String) : (empty : Table α).get? name = none :=
  rfl

@[simp]
theorem contains_empty (name : String) : (empty : Table α).contains name = false :=
  rfl

/-- A new binding is found under its name, and all others are found as before. -/
@[simp, grind =]
theorem get?_insert (t : Table α) (name m : String) (value : α) :
    (t.insert name value).get? m = if m = name then some value else t.get? m :=
  lookup_putBinding name m value t.entries

theorem contains_iff_mem_names {t : Table α} {name : String} :
    t.contains name = true ↔ name ∈ t.names := by
  rw [contains, get?, List.lookup_isSome_iff, names, bindingNames, List.mem_map]
  simp only [beq_iff_eq, @eq_comm _ name]

@[simp, grind =]
theorem mem_names_insert {t : Table α} {name m : String} {value : α} :
    m ∈ (t.insert name value).names ↔ m = name ∨ m ∈ t.names :=
  mem_bindingNames_put name value t.entries m

end Table

end TextLisp
