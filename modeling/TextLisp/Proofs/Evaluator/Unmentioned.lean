import TextLisp.Proofs.Evaluator.Coupling
import TextLisp.Proofs.Store.Slotwise
import TextLisp.Proofs.Text.Grammar
import TextLisp.Proofs.Tree.Parse
import TextLisp.Proofs.Value.Alike

namespace TextLisp

/-- The name is one of the words of the text. -/
def Text.Mentions (name text : String) : Prop :=
  .word name ∈ tokens text

def Procedure.Avoids (name : String) : Procedure → Prop
  | .primitive _ => True
  | .closure c => ¬ Text.Mentions name c.params ∧ ¬ Text.Mentions name c.body

structure Value.Avoids (name : String) (v : Value) : Prop where
  procedure : ∀ p, IsPartOf (.procedure p) v → p.Avoids name
  aliasTo : ¬ IsPartOf (.aliasTo name) v

def Store.Avoids (name : String) (s : Store) : Prop :=
  ∀ owner slot v, (s.table owner).get? slot = some v → v.Avoids name

/-- Closures and aliases in the results of the embedding program come from its arguments. -/
def Host.AddsNothing (host : Host) : Prop :=
  ∀ operation args v, host operation args = .ok v →
    (∀ c, Value.IsPartOf (.procedure (.closure c)) v →
      ∃ arg ∈ args, Value.IsPartOf (.procedure (.closure c)) arg) ∧
    ∀ target, Value.IsPartOf (.aliasTo target) v →
      ∃ arg ∈ args, Value.IsPartOf (.aliasTo target) arg

structure Store.ExtendedBy (name : String) (value : Value) (s t : Store) : Prop where
  unbound : s.globals.contains name = false
  slot : ∀ owner name', (t.table owner).get? name' =
    if owner = .globals ∧ name' = name then some value else (s.table owner).get? name'
  size : t.frames.size = s.frames.size
  nextClosure : t.nextClosure = s.nextClosure

namespace Text

theorem Mentions.of_trim {name text : String} (h : Mentions name (trim text)) :
    Mentions name text := by
  unfold Mentions tokens at h
  rwa [toList_trim, tokenChars_trimChars] at h

theorem Mentions.of_sibling {name text sibling : String} {siblings : List String}
    (hsplit : splitForm text = .ok siblings) (hmem : sibling ∈ siblings)
    (h : Mentions name sibling) : Mentions name text := by
  obtain ⟨parts, hparts, rfl⟩ := splitForm_eq_ok.mp hsplit
  obtain ⟨part, hpart, rfl⟩ := List.mem_map.mp hmem
  unfold Mentions tokens at h ⊢
  rw [String.toList_ofList] at h
  rw [tokenChars_of_splitFormChars hparts]
  have hinside : .word name ∈ parts.flatMap tokenChars := List.mem_flatMap.mpr ⟨part, hpart, h⟩
  exact List.mem_cons_of_mem _ (List.mem_append_left _ hinside)

theorem mentions_self {name : String} (h : isAtom name = true) : Mentions name name := by
  unfold Mentions tokens
  rw [tokenChars_of_isAtom h]
  exact List.mem_singleton_self _

end Text

abbrev Value.SameAvoiding (name : String) : Value → Value → Prop :=
  AlikeWhere (Shares (Procedure.Avoids name)) (· ≠ name)

namespace Value

variable {name : String}

theorem Avoids.sameAvoiding {v : Value} (h : v.Avoids name) : SameAvoiding name v v := by
  apply alikeWhere_of_isPartOf v
  · exact fun p hp => ⟨rfl, h.procedure p hp⟩
  · rintro target htarget rfl
    exact h.aliasTo htarget

theorem SameAvoiding.eq {v w : Value} (h : SameAvoiding name v w) : w = v :=
  AlikeWhere.eq (fun _ _ hpq => hpq.1.symm) h

theorem SameAvoiding.eq_args {args args' : List Value}
    (h : List.Forall₂ (SameAvoiding name) args args') : args' = args :=
  AlikeWhere.eq_items (fun _ _ hpq => hpq.1.symm) h

end Value

/-- What is made of arguments that avoid a name avoids it too. -/
theorem Host.AddsNothing.agree {host : Host} (hhost : host.AddsNothing) {name : String}
    (operation : String) {args args' : List Value}
    (hargs : List.Forall₂ (Value.SameAvoiding name) args args') :
    Agree (fun _ => True) (Value.SameAvoiding name) (host operation args)
      (host operation args') := by
  obtain rfl := Value.SameAvoiding.eq_args hargs
  have hself : ∀ arg ∈ args', Value.SameAvoiding name arg arg := List.forall₂_same.mp hargs
  cases hresult : host operation args' with
  | error e => exact .error trivial
  | ok v =>
    obtain ⟨hclosures, haliases⟩ := hhost operation args' v hresult
    apply Agree.ok
    apply Value.alikeWhere_of_isPartOf v
    · intro p hp
      cases p with
      | primitive p => exact ⟨rfl, trivial⟩
      | closure c =>
        obtain ⟨arg, hmem, hpart⟩ := hclosures c hp
        cases hpart.alikeWhere (hself arg hmem) with
        | procedure h => exact h
    · intro target htarget
      obtain ⟨arg, hmem, hpart⟩ := haliases target htarget
      cases hpart.alikeWhere (hself arg hmem) with
      | aliasTo h => exact h

/-- Every slot but that of the global is the same in both stores, and holds a value that avoids its
name. -/
structure Store.Apart (name : String) (value : Value) (s t : Store) : Prop where
  slots : s.Slotwise (Value.SameAvoiding name) (fun owner slot => owner = .globals → slot ≠ name) t
  unbound : s.globals.get? name = none
  bound : t.globals.get? name = some value

namespace Store.Apart

variable {name : String} {value : Value} {s t : Store}

/-- Stores stay apart in one global when the same is written to another slot of both. -/
theorem put (h : s.Apart name value t) {owner : Owner} {slot : String}
    (hslot : owner = .globals → slot ≠ name) {v v' : Value} (hv : Value.SameAvoiding name v v') :
    (s.put owner slot v).Apart name value (t.put owner slot v') := by
  have hkept (s : Store) (v : Value) :
      (s.put owner slot v).globals.get? name = s.globals.get? name := by
    cases owner with
    | frame index => rfl
    | globals =>
      have hne : ¬ name = slot := fun he => hslot rfl he.symm
      simp [Store.put, hne]
  exact ⟨h.slots.put owner slot hv, (hkept s v).trans h.unbound, (hkept t v').trans h.bound⟩

theorem extendedBy (h : s.Apart name value t) : s.ExtendedBy name value t := by
  refine ⟨?_, ?_, h.slots.size.symm, h.slots.nextClosure.symm⟩
  · rw [Table.contains, h.unbound]
    rfl
  · intro owner slot
    split
    next hslot =>
      obtain ⟨rfl, rfl⟩ := hslot
      exact h.bound
    next hslot =>
      have hget := h.slots.slot owner slot fun howner hname => hslot ⟨howner, hname⟩
      generalize (s.table owner).get? slot = found at hget ⊢
      generalize (t.table owner).get? slot = found' at hget ⊢
      cases hget with
      | none => rfl
      | some hv => rw [hv.eq]

end Store.Apart

theorem Store.ExtendedBy.apart {name : String} {value : Value} {s t : Store}
    (h : s.ExtendedBy name value t) (hs : s.Avoids name) : s.Apart name value t := by
  refine ⟨⟨?_, h.size.symm, h.nextClosure.symm⟩, ?_, ?_⟩
  · intro owner slot hslot
    have hskip : ¬ (owner = .globals ∧ slot = name) := fun he => hslot he.1 he.2
    rw [h.slot owner slot, if_neg hskip]
    exact rel_self fun v hget => (hs owner slot v hget).sameAvoiding
  · exact Option.not_isSome_iff_eq_none.mp (Bool.eq_false_iff.mp h.unbound)
  · exact (h.slot .globals name).trans (if_pos ⟨rfl, rfl⟩)

theorem Store.extendedBy_put {name : String} {s : Store} (h : s.globals.contains name = false)
    (value : Value) : s.ExtendedBy name value (s.put .globals name value) := by
  have htable : s.HasTable .globals := trivial
  exact ⟨h, get?_put_of_hasTable htable name value, rfl, rfl⟩

namespace Coupling

def apart (name : String) (value : Value) : Coupling String String where
  procedure := Value.Shares (Procedure.Avoids name)
  target target := target ≠ name
  chain := Eq
  owner := Eq
  entry := Eq
  store := Store.Apart name value

theorem isKept_apart {host : Host} (hhost : host.AddsNothing) (name : String) (value : Value) :
    (apart name value).IsKept (fun text => ¬ Text.Mentions name text) host := by
  -- What is looked for is an atom that was read, so it is another name.
  have hne {word : String} (hatom : Text.isAtom word = true) (hword : ¬ Text.Mentions name word) :
      word ≠ name := by
    rintro rfl
    exact hword (Text.mentions_self hatom)
  have hR := Value.indiscernible_shares (Procedure.Avoids name)
  constructor
  case indiscernible => exact hR
  case trimmed => exact fun text h hmentions => h hmentions.of_trim
  case sibling =>
    exact fun text siblings h hsplit sibling hmem hmentions => h (hmentions.of_sibling hsplit hmem)
  case closure =>
    rintro c c' ⟨hsame, hparams, hbody⟩
    obtain rfl := Procedure.closure.inj hsame
    refine ⟨rfl, rfl, hbody, ?_⟩
    rintro env env' rfl
    rfl
  case primitive =>
    exact fun p args args' _ hargs =>
      p.operation.apply_agree hR hargs fun operation _ => hhost.agree operation hargs
  case evaluate => exact fun _ _ => rfl
  case apply => exact fun _ _ _ => rfl
  case make =>
    rintro params body env env' hparams hbody rfl s t hst
    rw [makeClosure_apply, makeClosure_apply]
    refine ⟨.ok (.procedure ⟨?_, hparams, hbody⟩), ?_, .cons rfl .nil⟩
    · rw [hst.slots.nextClosure]
    · exact ⟨hst.slots.closure, hst.unbound, hst.bound⟩
  case extend =>
    rintro names scope scope' args args' rfl hargs s t hst
    refine ⟨.ok ?_, ?_, .nil⟩
    · exact congrArg scope.push hst.slots.size
    · exact ⟨hst.slots.addFrame (Table.rel_get?_ofList_zip names hargs), hst.unbound, hst.bound⟩
  case resolve =>
    rintro word env env' s t hatom hword rfl hst
    -- The aliases on the way are those of the store, and none of them is for the name.
    exact hst.slots.resolve rfl (fun _ _ => hne hatom hword) fun _ htarget _ => htarget
  case announceDefine => exact fun _ _ _ => rfl
  case global =>
    intro _ word s t hatom hword hst
    exact hst.slots.contains .globals word fun _ => hne hatom hword
  case define =>
    intro _ word v v' s t hatom hword hv hst
    have hslot (owner : Owner) : owner = .globals → word ≠ name := fun _ => hne hatom hword
    exact Store.agree_define (hst.slots.contains .globals word (hslot _)) (hst.put (hslot _) hv)
  case announceAssign => exact fun _ _ _ => rfl
  case owner =>
    rintro _ word env env' s t hatom hword rfl hst
    rw [hst.slots.owner? rfl fun _ _ => hne hatom hword]
    exact rel_self fun _ _ => rfl
  case assign =>
    rintro _ word owner owner' v v' s t hatom hword rfl hv hst
    have hslot (owner : Owner) : owner = .globals → word ≠ name := fun _ => hne hatom hword
    exact Store.agree_assign (hst.slots.contains .globals word (hslot _)) (hst.put (hslot _) hv)

end Coupling

/-- A value for a global that neither the text nor the store mentions changes nothing in an
evaluation of the text, and is itself not changed. -/
theorem unmentioned_global_does_not_interfere {host : Host} (hhost : host.AddsNothing) {s : Store}
    {name : String} (hunbound : s.globals.contains name = false) (hs : s.Avoids name)
    {text : String} (htext : ¬ Text.Mentions name text) (value : Value) (remaining depth : Nat)
    (env : Environment) :
    let o := evaluate host remaining depth env text s
    let o' := evaluate host remaining depth env text (s.put .globals name value)
    o'.result = o.result ∧ o'.log = o.log ∧ o.store.ExtendedBy name value o'.store := by
  intro o o'
  have hstart : s.Apart name value (s.put .globals name value) :=
    (Store.extendedBy_put hunbound value).apart hs
  have hends : (Coupling.apart name value).Ends (Value.SameAvoiding name) o o' :=
    Coupling.couples_evaluate (Coupling.isKept_apart hhost name value) remaining depth rfl htext s _
      hstart
  obtain ⟨hresult, hstore, hlog⟩ := hends
  refine ⟨?_, Coupling.log_eq_of_forall₂ (fun _ _ hr => hr.symm) hlog, hstore.extendedBy⟩
  exact hresult.eq fun v w hvw => Value.SameAvoiding.eq hvw

/-- A name is read through an alias, with and without a global that goes by another name. -/
theorem spare_global_does_not_interfere :
    let host : Host := fun _ _ => .ok .nil
    let s : Store := Store.ofGlobals (Table.ofList [("same", .aliasTo "on"), ("on", .bool true),
      ("id", .procedure (.closure ⟨0, "(x)", "x", ⟨[]⟩⟩))])
    let o := evaluate host 1 0 .empty "same" s
    let o' := evaluate host 1 0 .empty "same" (s.put .globals "spare" (.list [.symbol "on"]))
    o.result = .ok (.bool true) ∧ o'.result = .ok (.bool true) ∧ o'.log = o.log ∧
      o.store.ExtendedBy "spare" (.list [.symbol "on"]) o'.store := by
  intro host s o o'
  have hhost : host.AddsNothing := by
    rintro operation args v ⟨⟩
    exact ⟨by rintro c ⟨⟩, by rintro target ⟨⟩⟩
  have hnot {text : String} (h : (Text.tokens text).contains (.word "spare") = false) :
      ¬ Text.Mentions "spare" text := by
    intro hmentions
    rw [List.contains_iff_mem.mpr hmentions] at h
    cases h
  have htext : ¬ Text.Mentions "spare" "same" := hnot (by cbv)
  have hstore : s.Avoids "spare" := by
    have hother : ¬ Value.IsPartOf (.aliasTo "spare") (.aliasTo "on" : Value) := by
      generalize hon : "on" = target
      rintro ⟨⟩
      exact absurd hon (by decide)
    rintro (index | _) slot v hget
    · rw [Store.table, Store.frame_of_le (Nat.zero_le index)] at hget
      cases hget
    · have hmem : (slot, v) ∈ s.globals.entries := mem_of_lookup hget
      have hentries : s.globals.entries = [("same", .aliasTo "on"), ("on", .bool true),
        ("id", .procedure (.closure ⟨0, "(x)", "x", ⟨[]⟩⟩))] := rfl
      rw [hentries] at hmem
      simp only [List.mem_cons, Prod.mk.injEq, List.not_mem_nil, or_false] at hmem
      obtain ⟨-, rfl⟩ | ⟨-, rfl⟩ | ⟨-, rfl⟩ := hmem
      · exact ⟨by rintro p ⟨⟩, hother⟩
      · exact ⟨by rintro p ⟨⟩, by rintro ⟨⟩⟩
      · refine ⟨?_, by rintro ⟨⟩⟩
        rintro p ⟨⟩
        exact ⟨hnot (by cbv), hnot (by cbv)⟩
  have hresult : o.result = .ok (.bool true) := by
    have hresolve : Environment.empty.resolve s "same" = .ok (.bool true) := by
      have hbound : s.globals.get? "on" = some (.bool true) := rfl
      have hnew : ¬ ["same"].contains "on" = true := by decide
      have hdata : ∀ target, (.bool true : Value) ≠ .aliasTo target := by rintro target ⟨⟩
      exact (Table.follow_of_bound hnew hbound).trans (Table.follow_of_value hdata)
    have hform : isBracketed (Text.trim "same") = false := by cbv
    have htrim : Text.trim "same" = "same" := by cbv
    have hatom : Text.isAtom "same" = true := by cbv
    have hvalue : atomValue Environment.empty s "same" = .ok (.bool true) := by
      rw [atomValue, hresolve, hatom]
      rfl
    dsimp only [o]
    rw [evaluate_succ, hform, htrim, if_neg Bool.false_ne_true]
    simpa using hvalue
  obtain ⟨hsame, hrest⟩ := unmentioned_global_does_not_interfere hhost rfl hstore htext
    (.list [.symbol "on"]) 1 0 .empty
  exact ⟨hresult, hsame.trans hresult, hrest⟩

end TextLisp
