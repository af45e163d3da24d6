import Mathlib
import TextLisp.Proofs.Store.AliasPath

namespace TextLisp

variable {β : Type}

namespace Environment

def readWithin (env : Environment) (s : Store β) (name : String) (steps : Nat) :
    Option (Except Error (Value β)) :=
  match env.lookup s name with
  | none => some (.error (.unboundVariable name))
  | some value =>
    (s.globals.followWithin name steps [name] value).map (·.mapError .unboundVariable)

variable {env : Environment} {s : Store β} {name target : String}

/-- A name of the globals is read along its path, and nothing was met before. -/
theorem leads_resolve (h : env.frame? s name = none) :
    s.globals.Leads name [] name (env.resolve s name) := by
  rw [resolve, lookup_eq_frame?, h]
  dsimp only
  have hpath : s.globals.aliasPath name 0 = some name := rfl
  have hmisses : s.globals.Misses [] name 0 := Table.misses_zero List.not_mem_nil
  cases hbound : s.globals.get? name with
  | none => exact .unbound hpath hmisses hbound
  | some value => exact Table.leads_follow hpath hbound hmisses Table.hasVisited_zero

/-- An alias in a frame is read along the path of its target, and its own name was met before. -/
theorem leads_resolve_of_frame {index : Nat} (h : env.frame? s name = some index)
    (halias : (s.frame index).get? name = some (.aliasTo target)) :
    s.globals.Leads name [name] target (env.resolve s name) := by
  rw [resolve, lookup_eq_frame?, h]
  dsimp only
  rw [halias]
  dsimp only
  have hpath : s.globals.aliasPath target 0 = some target := rfl
  by_cases hmet : target ∈ [name]
  · simpa [hmet] using Table.Leads.back hpath (Or.inl hmet)
  · have hnew : ¬ [name].contains target = true := fun h => hmet (List.contains_iff_mem.mp h)
    have hmisses : s.globals.Misses [name] target 0 := Table.misses_zero hmet
    cases hbound : s.globals.get? target with
    | none =>
      rw [Table.follow_of_unbound hnew hbound]
      exact .unbound hpath hmisses hbound
    | some value =>
      rw [Table.follow_of_bound hnew hbound]
      exact Table.leads_follow hpath hbound hmisses Table.hasVisited_zero

/-- A name that no frame binds has the value at the end of its path of aliases. -/
theorem resolve_eq_ok_iff (h : env.frame? s name = none) (value : Value β) :
    env.resolve s name = .ok value ↔ ∃ m, s.globals.Reaches name m ∧
      s.globals.get? m = some value ∧ ∀ target, value ≠ .aliasTo target := by
  have hleads := leads_resolve h
  constructor
  · intro hvalue
    rw [hvalue] at hleads
    cases hleads with
    | value hpath _ hbound hdata => exact ⟨_, ⟨_, hpath⟩, hbound, hdata⟩
  · rintro ⟨m, ⟨i, hpath⟩, hbound, hdata⟩
    exact hleads.of_value hpath hbound hdata (List.forall_mem_nil _)

/-- As many steps are enough as there are globals, since the first name is one of them. -/
theorem readWithin_size (h : env.frame? s name = none) :
    env.readWithin s name s.globals.size = some (env.read s name) := by
  rw [readWithin, read, resolve, lookup_eq_frame?, h]
  dsimp only
  cases hbound : s.globals.get? name with
  | none => rfl
  | some value =>
    have hfirst : ¬ ([] : List String).contains name = true := by simp
    have hfewer := Table.length_unvisited_cons_lt hfirst hbound
    have hall : (s.globals.unvisited []).length ≤ s.globals.size := by
      have hnames : s.globals.names.length = s.globals.size := List.length_map ..
      rw [← hnames]
      exact List.length_filter_le _ _
    dsimp only
    rw [Table.followWithin_eq_some (Nat.lt_of_lt_of_le hfewer hall)]
    rfl

theorem read_eq_ok_iff {value : Value β} :
    env.read s name = .ok value ↔ env.resolve s name = .ok value := by
  unfold read
  cases env.resolve s name with
  | error e => exact iff_of_false (fun h => by cases h) fun h => by cases h
  | ok found =>
    constructor
    · intro h
      obtain rfl : found = value := Except.ok.inj h
      rfl
    · rintro ⟨⟩
      rfl

theorem read_eq_error {e : String} (h : env.resolve s name = .error e) :
    env.read s name = .error (.unboundVariable e) := by
  rw [read, h]
  rfl

/-- What is read is no alias. -/
theorem ne_aliasTo_of_read {value : Value β} (h : env.read s name = .ok value)
    (target : String) : value ≠ .aliasTo target := by
  have hresolve := read_eq_ok_iff.mp h
  unfold resolve at hresolve
  split at hresolve
  · cases hresolve
  · exact Table.ne_aliasTo_of_follow hresolve target

end Environment

/-- Reading a name that no frame of the chain binds ends after at most as many steps as there are
globals. The path of aliases from the name on comes back to one of its names, or comes to a last
name, which is unbound or bound to a value that is no alias. The value of the last name is what is
read. When the last name is unbound, the error names it. When the path comes to some name twice, the
error names where the path begins. Whatever the chain binds, what is read is no alias. -/
theorem reading_follows_alias_path (s : Store β) :
    (∀ (env : Environment) (name : String), env.frame? s name = none →
      env.readWithin s name s.globals.size = some (env.read s name) ∧
      (s.globals.Circles name ∨ ∃ m, s.globals.Reaches name m ∧
        (s.globals.get? m = none ∨
          ∃ value, s.globals.get? m = some value ∧ ∀ target, value ≠ .aliasTo target)) ∧
      (∀ value, env.read s name = .ok value ↔ ∃ m, s.globals.Reaches name m ∧
        s.globals.get? m = some value ∧ ∀ target, value ≠ .aliasTo target) ∧
      (∀ m, s.globals.Reaches name m → s.globals.get? m = none →
        env.read s name = .error (.unboundVariable m)) ∧
      (s.globals.Circles name → env.read s name = .error (.unboundVariable name))) ∧
    ∀ (env : Environment) (name : String) (value : Value β), env.read s name = .ok value →
      ∀ target, value ≠ .aliasTo target := by
  refine ⟨?_, fun env name value h => Environment.ne_aliasTo_of_read h⟩
  intro env name h
  have hleads := Environment.leads_resolve h
  refine ⟨Environment.readWithin_size h, ?_, ?_, ?_, ?_⟩
  · exact hleads.circles_or_exists_last
  · intro value
    rw [Environment.read_eq_ok_iff]
    exact Environment.resolve_eq_ok_iff h value
  · rintro m ⟨i, hpath⟩ hnone
    exact Environment.read_eq_error (hleads.of_unbound hpath hnone (List.forall_mem_nil _))
  · intro hcircles
    exact Environment.read_eq_error (hleads.of_back (Or.inl hcircles))

/-- A name outside a cycle leads into it, and the error names where the path begins. -/
theorem tail_of_cycle_is_reported :
    let s : Store := Store.ofGlobals
      (Table.ofList [("a", .aliasTo "b"), ("b", .aliasTo "c"), ("c", .aliasTo "b")])
    s.globals.Circles "a" ∧
      Environment.readWithin .empty s "a" 3 = some (.error (.unboundVariable "a")) := by
  intro s
  have hcircles : s.globals.Circles "a" := ⟨1, 3, "b", by decide, by rfl, by rfl⟩
  obtain ⟨hsteps, -, -, -, hreported⟩ := (reading_follows_alias_path s).1 .empty "a" rfl
  refine ⟨hcircles, ?_⟩
  rw [← hreported hcircles]
  exact hsteps

/-- An alias in a frame is followed through the globals unless that leads back to its own name. Then
reading fails with this name, although the frame's binding and the global one are two. Otherwise what
is read is what the target is among the globals. -/
theorem local_alias_is_followed_unless_it_returns {env : Environment} {s : Store β}
    {name target : String} {index : Nat} (h : env.frame? s name = some index)
    (halias : (s.frame index).get? name = some (.aliasTo target)) :
    (∀ value, env.read s name = .ok value ↔
      Environment.empty.read s target = .ok value ∧ ¬ s.globals.Reaches target name) ∧
    (s.globals.Reaches target name → env.read s name = .error (.unboundVariable name)) := by
  have hleads := Environment.leads_resolve_of_frame h halias
  have hempty : Environment.empty.frame? s target = none := rfl
  have hback (hreturns : s.globals.Reaches target name) : env.resolve s name = .error name :=
    hleads.of_back (Or.inr ⟨name, List.mem_singleton_self name, hreturns⟩)
  refine ⟨?_, fun hreturns => Environment.read_eq_error (hback hreturns)⟩
  intro value
  rw [Environment.read_eq_ok_iff, Environment.read_eq_ok_iff, Environment.resolve_eq_ok_iff hempty]
  constructor
  · intro hvalue
    have hreturns : ¬ s.globals.Reaches target name := by
      intro hreturns
      rw [hback hreturns] at hvalue
      cases hvalue
    rw [hvalue] at hleads
    cases hleads with
    | value hpath _ hbound hdata => exact ⟨⟨_, ⟨_, hpath⟩, hbound, hdata⟩, hreturns⟩
  · rintro ⟨⟨m, ⟨i, hpath⟩, hbound, hdata⟩, hreturns⟩
    have hmisses : ∀ x ∈ [name], ¬ s.globals.Reaches target x :=
      List.forall_mem_singleton.mpr hreturns
    exact hleads.of_value hpath hbound hdata hmisses

/-- The alias leads over a global `n` to a value, but not for a local `n`. -/
theorem global_of_the_same_name_ends_reading :
    let s : Store := ⟨Table.ofList [("n", .number 5), ("t", .aliasTo "n")],
      #[Table.ofList [("n", .aliasTo "t")]], 0⟩
    Environment.frame? ⟨[0]⟩ s "n" = some 0 ∧ (s.frame 0).get? "n" = some (.aliasTo "t") ∧
      Environment.read ⟨[]⟩ s "t" = .ok (.number 5) ∧
      Environment.read ⟨[0]⟩ s "n" = .error (.unboundVariable "n") := by
  refine ⟨by rfl, by rfl, by cbv, by cbv⟩

/-- Under another name the same alias is followed to the value. -/
theorem alias_of_another_name_is_followed :
    let s : Store := ⟨Table.ofList [("n", .number 5), ("t", .aliasTo "n")],
      #[Table.ofList [("m", .aliasTo "t"), ("n", .aliasTo "t")]], 0⟩
    Environment.frame? ⟨[0]⟩ s "m" = some 0 ∧ (s.frame 0).get? "m" = some (.aliasTo "t") ∧
      Environment.read ⟨[0]⟩ s "m" = .ok (.number 5) := by
  intro s
  have hframe : Environment.frame? ⟨[0]⟩ s "m" = some 0 := by rfl
  have halias : (s.frame 0).get? "m" = some (.aliasTo "t") := by rfl
  have htarget : Environment.empty.read s "t" = .ok (.number 5) := by cbv
  have hmisses : ¬ s.globals.Reaches "t" "m" := by
    have hpath : s.globals.aliasPath "t" 1 = some "n" := by rfl
    have hlast : s.globals.target? "n" = none := by rfl
    rintro ⟨i, hi⟩
    have hle : i ≤ 1 := Table.le_of_target?_eq_none hpath hlast hi
    obtain rfl | rfl : i = 0 ∨ i = 1 := by omega
    · exact absurd (Option.some.inj hi) (by decide)
    · exact absurd (Option.some.inj (hpath.symm.trans hi)) (by decide)
  exact ⟨hframe, halias,
    ((local_alias_is_followed_unless_it_returns hframe halias).1 _).mpr ⟨htarget, hmisses⟩⟩

end TextLisp
