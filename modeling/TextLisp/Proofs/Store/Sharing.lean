import TextLisp.Proofs.Store.History

/-! Chains that share tables. A write goes to one slot, and it shows through exactly those chains in
which the first table that has the name is the one that was written. -/
namespace TextLisp

variable {β : Type}

/-- Overwriting a slot binds no name and frees none. -/
theorem Store.contains_put {s : Store β} {owner : Owner} {name : String}
    (h : (s.table owner).contains name = true) (value : Value β) (other : Owner) (m : String) :
    ((s.put owner name value).table other).contains m = (s.table other).contains m := by
  rw [Bool.eq_iff_iff, Table.contains_iff_mem_names, Table.contains_iff_mem_names,
    names_put_of_contains h]

namespace Environment

theorem frame?_put {s : Store β} {owner : Owner} {name : String}
    (h : (s.table owner).contains name = true) (value : Value β) (env : Environment) (m : String) :
    env.frame? (s.put owner name value) m = env.frame? s m := by
  have hframe : (fun index => ((s.put owner name value).frame index).contains m) =
      fun index => (s.frame index).contains m :=
    funext fun index => Store.contains_put h value (.frame index) m
  unfold frame?
  rw [hframe]

/-- A write to a bound slot moves no binding to another owner. -/
theorem owner?_put {s : Store β} {owner : Owner} {name : String}
    (h : (s.table owner).contains name = true) (value : Value β) (env : Environment) (m : String) :
    env.owner? (s.put owner name value) m = env.owner? s m := by
  have hglobals : (s.put owner name value).globals.contains m = s.globals.contains m :=
    Store.contains_put h value .globals m
  unfold owner?
  rw [frame?_put h, hglobals]

/-- A write shows through a chain if its owner is what the chain finds the name in. -/
theorem lookup_put {s : Store β} {owner : Owner} {name : String}
    (h : (s.table owner).contains name = true) (value : Value β) (env : Environment) (m : String) :
    env.lookup (s.put owner name value) m =
      if m = name ∧ env.owner? s name = some owner then some value else env.lookup s m := by
  rw [lookup_eq_owner?, lookup_eq_owner?, owner?_put h]
  cases hfound : env.owner? s m with
  | none =>
    have hother : ¬ (m = name ∧ env.owner? s name = some owner) := by
      rintro ⟨rfl, howner⟩
      rw [hfound] at howner
      cases howner
    rw [if_neg hother]
    rfl
  | some found =>
    rw [Option.bind_some, Option.bind_some, Store.get?_put h]
    by_cases hsame : m = name
    · subst hsame
      simp only [hfound, and_true, true_and, Option.some.injEq]
    · simp only [hsame, and_false, false_and, if_false]

/-- What has an owner is bound, to the value in the owner's slot. -/
theorem lookup_of_owner? {env : Environment} {s : Store β} {name : String} {owner : Owner}
    (h : env.owner? s name = some owner) :
    ∃ value, env.lookup s name = some value ∧ (s.table owner).get? name = some value := by
  obtain ⟨value, hvalue⟩ := Option.isSome_iff_exists.mp (contains_of_owner? h)
  refine ⟨value, ?_, hvalue⟩
  rw [lookup_eq_owner?, h, Option.bind_some, hvalue]

theorem exists_owner?_iff (env : Environment) (s : Store β) (name : String) :
    (∃ owner, env.owner? s name = some owner) ↔ ∃ value, env.lookup s name = some value := by
  constructor
  · rintro ⟨owner, howner⟩
    obtain ⟨value, hvalue, -⟩ := lookup_of_owner? howner
    exact ⟨value, hvalue⟩
  · rintro ⟨value, hvalue⟩
    rw [lookup_eq_owner?] at hvalue
    obtain ⟨owner, howner, -⟩ := Option.bind_eq_some_iff.mp hvalue
    exact ⟨owner, howner⟩

end Environment

/-- A name has an owner exactly when it is bound, and the owner's slot holds its value. An assignment
to that slot succeeds and changes no other. Through another chain, whatever tables both have and in
whatever order, the new value shows exactly for this name and when it has the same owner there. No
name changes its owner in any chain. -/
theorem assignment_shows_through_its_owner (env : Environment) (s : Store β) (name : String) :
    ((∃ owner, env.owner? s name = some owner) ↔ ∃ value, env.lookup s name = some value) ∧
    ∀ owner, env.owner? s name = some owner →
      (∃ old, env.lookup s name = some old ∧ (s.table owner).get? name = some old) ∧
      ∀ value, ∃ s', s.assign owner name value = .ok s' ∧
        (∀ other m, (s'.table other).get? m =
          if other = owner ∧ m = name then some value else (s.table other).get? m) ∧
        ∀ (env' : Environment) (m : String),
          (env'.lookup s' m =
            if m = name ∧ env'.owner? s name = some owner then some value
            else env'.lookup s m) ∧
          env'.owner? s' m = env'.owner? s m := by
  refine ⟨env.exists_owner?_iff s name, ?_⟩
  intro owner howner
  refine ⟨Environment.lookup_of_owner? howner, ?_⟩
  intro value
  have hbound := Environment.contains_of_owner? howner
  refine ⟨s.put owner name value, Store.assign_of_contains hbound value, ?_, ?_⟩
  · exact fun other m => Store.get?_put hbound value other m
  · intro env' m
    exact ⟨Environment.lookup_put hbound value env' m, Environment.owner?_put hbound value env' m⟩

/-- Of two tables that two chains have in different orders, one is written. Where the other one comes
first the write does not show. -/
theorem shadowed_assignment_does_not_show :
    let s : Store := ⟨Table.empty, #[Table.ofList [("x", .nil)], Table.ofList [("x", .bool true)]], 0⟩
    Environment.owner? ⟨[0, 1]⟩ s "x" = some (.frame 0) ∧
      ∃ s', s.assign (.frame 0) "x" (.symbol "new") = .ok s' ∧
        Environment.lookup ⟨[0, 1]⟩ s' "x" = some (.symbol "new") ∧
        Environment.lookup ⟨[1, 0]⟩ s' "x" = some (.bool true) := by
  intro s
  have howner : Environment.owner? ⟨[0, 1]⟩ s "x" = some (.frame 0) := by decide
  have hother : Environment.owner? ⟨[1, 0]⟩ s "x" = some (.frame 1) := by decide
  obtain ⟨-, hwrite⟩ := assignment_shows_through_its_owner ⟨[0, 1]⟩ s "x"
  obtain ⟨-, hwrite⟩ := hwrite (.frame 0) howner
  obtain ⟨s', hassign, -, hshows⟩ := hwrite (.symbol "new")
  refine ⟨howner, s', hassign, ?_, ?_⟩
  · rw [(hshows ⟨[0, 1]⟩ "x").1, if_pos ⟨rfl, howner⟩]
  · rw [(hshows ⟨[1, 0]⟩ "x").1, hother]
    rfl

end TextLisp
