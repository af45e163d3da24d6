import TextLisp.Proofs.Store.Listing
import TextLisp.Proofs.Store.Holding
import TextLisp.Proofs.Value.Within

namespace TextLisp

variable {β : Type} {admits : Procedure β → Prop}

namespace Table

def Within (admits : Procedure β → Prop) (t : Table (Value β)) : Prop :=
  ∀ name value, t.get? name = some value → value.Within admits

theorem Within.of_mem {t : Table (Value β)} (h : t.Within admits) {entry : String × Value β}
    (hmem : entry ∈ t.entries) : entry.2.Within admits :=
  h entry.1 entry.2 (lookup_of_mem t.nodup hmem)

theorem within_empty : (empty : Table (Value β)).Within admits :=
  fun _ _ h => absurd h (by simp only [get?_empty, reduceCtorEq, not_false_eq_true])

theorem within_ofList {bindings : List (String × Value β)}
    (h : ∀ binding ∈ bindings, binding.2.Within admits) : (ofList bindings).Within admits :=
  fun _ _ hvalue => h _ (mem_of_get?_ofList hvalue)

/-- At the start there are no closures. -/
theorem within_initialGlobals
    (h : ∀ operation : Builtin,
      admits (.primitive ⟨operation.id, operation.arity, .builtin operation⟩)) :
    (initialGlobals : Table (Value β)).Within admits := by
  have hconstant : ∀ constant ∈ (constants : List (String × Value β)),
      constant.2.Within admits := by
    simp only [constants, List.forall_mem_cons]
    exact ⟨.number _, .bool _, .bool _, .nil, List.forall_mem_nil _⟩
  have hholds : (Store.ofGlobals (initialGlobals : Table (Value β))).Holds
      fun _ _ value => value.Within admits :=
    Store.holds_initialGlobals (fun operation => .procedure (h operation)) hconstant
      fun pair _ => .aliasTo pair.2
  exact hholds .globals

end Table

namespace Store

def Within (admits : Procedure β → Prop) (s : Store β) : Prop :=
  ∀ owner, (s.table owner).Within admits

theorem Within.mono {admits' : Procedure β → Prop} {s : Store β} (h : s.Within admits)
    (hadmits : ∀ p, admits p → admits' p) : s.Within admits' :=
  fun owner name value hvalue => (h owner name value hvalue).mono hadmits

theorem within_ofGlobals {globals : Table (Value β)} (h : globals.Within admits) :
    (ofGlobals globals).Within admits := by
  intro owner
  cases owner with
  | frame index => exact Table.within_empty
  | globals => exact h

theorem Within.holds {s : Store β} (h : s.Within admits) :
    s.Holds fun _ _ value => value.Within admits :=
  h

theorem Within.put {s : Store β} (h : s.Within admits) (owner : Owner) (name : String)
    {value : Value β} (hvalue : value.Within admits) : (s.put owner name value).Within admits :=
  h.holds.put hvalue

theorem Within.addFrame {s : Store β} (h : s.Within admits) {table : Table (Value β)}
    (htable : table.Within admits) : (s.addFrame table).Within admits := by
  intro owner
  cases owner with
  | frame index =>
    change ((s.addFrame table).frame index).Within admits
    rw [frame_addFrame]
    split
    · exact htable
    · exact h (.frame index)
  | globals => exact h .globals

theorem Within.nextClosure {s : Store β} (h : s.Within admits) (identity : Nat) :
    Store.Within admits { s with nextClosure := identity } :=
  h.holds.nextClosure identity

theorem Within.resolve {s : Store β} (h : s.Within admits) {env : Environment} {name : String}
    {value : Value β} (hvalue : env.resolve s name = .ok value) : value.Within admits :=
  (h.holds.resolve env name).1 value hvalue

end Store

end TextLisp
