import TextLisp.Proofs.Store.Holding

/-! Scopes. A chain attached to another one, and a frame in front of both, are searched from the front
on. So the body of a call finds its parameters first, then what the caller has, then what the closure
has captured, and then the globals. -/
namespace TextLisp

variable {β : Type}

namespace Table

variable {α : Type} {name : String}

/-- Bindings of other names change nothing. -/
theorem get?_foldl_insert_of_ne {bindings : List (String × α)} (t : Table α)
    (h : ∀ binding ∈ bindings, binding.1 ≠ name) :
    (bindings.foldl (fun t binding => t.insert binding.1 binding.2) t).get? name = t.get? name := by
  induction bindings generalizing t with
  | nil => rfl
  | cons binding bindings ih =>
    obtain ⟨hbinding, hbindings⟩ := List.forall_mem_cons.mp h
    simp [ih _ hbindings, hbinding.symm]

/-- Where every name is bound once, each has the value that it is bound to. -/
theorem get?_ofList_of_mem {bindings : List (String × α)} {value : α}
    (hnodup : (bindings.map Prod.fst).Nodup) (hmem : (name, value) ∈ bindings) :
    (ofList bindings).get? name = some value := by
  obtain ⟨before, after, rfl⟩ := List.append_of_mem hmem
  rw [List.map_append, List.map_cons, List.nodup_append] at hnodup
  have hafter : name ∉ after.map Prod.fst := (List.nodup_cons.mp hnodup.2.1).1
  have hne : ∀ binding ∈ after, binding.1 ≠ name := by
    rintro binding hbinding rfl
    exact hafter (List.mem_map_of_mem hbinding)
  simp [ofList, get?_foldl_insert_of_ne _ hne]

/-- Each parameter stands for the argument in its place. -/
theorem get?_ofList_zip {names : List String} {args : List α} {i : Nat} {arg : α}
    (hnodup : names.Nodup) (hlength : args.length = names.length) (hname : names[i]? = some name)
    (harg : args[i]? = some arg) : (ofList (names.zip args)).get? name = some arg := by
  have hkeys : ((names.zip args).map Prod.fst).Nodup := by
    rwa [List.map_fst_zip (Nat.le_of_eq hlength.symm)]
  have hpair : (names.zip args)[i]? = some (name, arg) :=
    List.getElem?_zip_eq_some.mpr ⟨hname, harg⟩
  exact get?_ofList_of_mem hkeys (List.mem_of_getElem? hpair)

theorem contains_ofList_zip_of_notMem {names : List String} (args : List α) (h : name ∉ names) :
    (ofList (names.zip args)).contains name = false := by
  have hne : ∀ binding ∈ names.zip args, binding.1 ≠ name := by
    rintro binding hbinding rfl
    exact h (List.of_mem_zip hbinding).1
  rw [contains, ofList, get?_foldl_insert_of_ne _ hne]
  rfl

/-- The table of a call binds the parameters and nothing else. -/
theorem contains_ofList_zip_iff {names : List String} {args : List α} (hnodup : names.Nodup)
    (hlength : args.length = names.length) :
    (ofList (names.zip args)).contains name = true ↔ name ∈ names := by
  constructor
  · intro hbound
    by_cases hmem : name ∈ names
    · exact hmem
    · rw [contains_ofList_zip_of_notMem args hmem] at hbound
      cases hbound
  · intro hmem
    obtain ⟨i, hname⟩ := List.mem_iff_getElem?.mp hmem
    have hlt : i < args.length := hlength ▸ (List.getElem?_eq_some_iff.mp hname).1
    have harg : args[i]? = some args[i] := List.getElem?_eq_getElem hlt
    rw [contains, get?_ofList_zip hnodup hlength hname harg]
    rfl

end Table

theorem Store.table_addFrame {s : Store β} {owner : Owner} (h : s.HasTable owner)
    (table : Table (Value β)) : (s.addFrame table).table owner = s.table owner := by
  cases owner with
  | frame index =>
    have hlt : index < s.frames.size := h
    simp [Store.table, Nat.ne_of_lt hlt]
  | globals => rfl

namespace Environment

variable {env tail : Environment} {s : Store β} {name : String}

theorem isValid_splice (h : env.IsValid s) (htail : tail.IsValid s) : (env.splice tail).IsValid s :=
  fun index hmem => (List.mem_append.mp hmem).elim (h index) (htail index)

/-- Of two chains in a row the first one is searched first. -/
theorem frame?_splice (env tail : Environment) (s : Store β) (name : String) :
    (env.splice tail).frame? s name = (env.frame? s name).or (tail.frame? s name) :=
  List.find?_append

theorem frame?_push (env : Environment) (index : Nat) (s : Store β) (name : String) :
    (env.push index).frame? s name =
      if (s.frame index).contains name then some index else env.frame? s name := by
  unfold frame? push
  rw [List.find?_cons]
  cases (s.frame index).contains name <;> rfl

/-- What owns a name in the order of a call: a frame of the caller, else one that the closure has
captured, else the globals. -/
def callOwner? (env captured : Environment) (s : Store β) (name : String) : Option Owner :=
  match env.frame? s name, captured.frame? s name with
  | some index, _ => some (.frame index)
  | none, some index => some (.frame index)
  | none, none => if s.globals.contains name then some .globals else none

/-- A chain attached behind another one is searched behind it. -/
theorem owner?_splice (env tail : Environment) (s : Store β) (name : String) :
    (env.splice tail).owner? s name = env.callOwner? tail s name := by
  unfold owner? callOwner?
  rw [frame?_splice]
  cases env.frame? s name with
  | some index => rfl
  | none => cases tail.frame? s name <;> rfl

theorem owner?_push_of_contains {index : Nat} (h : (s.frame index).contains name = true)
    (env : Environment) : (env.push index).owner? s name = some (.frame index) := by
  rw [owner?, frame?_push, if_pos h]

theorem owner?_push_of_not_contains {index : Nat} (h : (s.frame index).contains name = false)
    (env : Environment) : (env.push index).owner? s name = env.owner? s name := by
  rw [owner?, frame?_push, if_neg (Bool.eq_false_iff.mp h), owner?]

end Environment

end TextLisp
