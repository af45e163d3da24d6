import TextLisp.Proofs.Store.Alike
import TextLisp.Proofs.Store.Within
import TextLisp.Tree.Parse

/-! Replacing the procedures of a store. A store that holds admitted procedures is alike to the one
where they are replaced, and to no other. -/
namespace TextLisp

variable {β γ : Type} {admits : Procedure β → Prop} {f : Procedure β → Procedure γ}

def Procedure.Via (admits : Procedure β → Prop) (f : Procedure β → Procedure γ) (p : Procedure β)
    (q : Procedure γ) : Prop :=
  admits p ∧ q = f p

namespace Value

theorem mapItems_eq_map (f : Procedure β → Procedure γ) (items : List (Value β)) :
    mapItems f items = items.map (mapProcedures f) := by
  induction items with
  | nil => rfl
  | cons item items ih => rw [mapItems, List.map_cons, ih]

theorem Within.alike_mapProcedures {v : Value β} (h : v.Within admits) :
    Alike (Procedure.Via admits f) v (v.mapProcedures f) := by
  induction h with
  | list _ ih =>
    rw [mapProcedures, mapItems_eq_map]
    apply AlikeWhere.list
    rw [List.forall₂_map_right_iff, List.forall₂_same]
    exact ih
  | procedure h => exact .procedure ⟨h, rfl⟩
  | aliasTo target =>
    rw [mapProcedures]
    exact .aliasTo trivial
  | _ =>
    rw [mapProcedures]
    constructor

mutual

theorem AlikeWhere.eq_mapProcedures {R : Procedure β → Procedure γ → Prop} {T : String → Prop}
    (hR : ∀ p q, R p q → q = f p) {v : Value β} {w : Value γ} (h : AlikeWhere R T v w) :
    w = v.mapProcedures f := by
  cases h with
  | list h => rw [mapProcedures, AlikeWhere.eq_mapItems hR h]
  | procedure h => rw [mapProcedures, hR _ _ h]
  | _ => rw [mapProcedures]

theorem AlikeWhere.eq_mapItems {R : Procedure β → Procedure γ → Prop} {T : String → Prop}
    (hR : ∀ p q, R p q → q = f p) {vs : List (Value β)} {ws : List (Value γ)}
    (h : List.Forall₂ (AlikeWhere R T) vs ws) : ws = mapItems f vs := by
  cases h with
  | nil => rw [mapItems]
  | cons h hs => rw [mapItems, AlikeWhere.eq_mapProcedures hR h, AlikeWhere.eq_mapItems hR hs]

end

mutual

theorem mapProcedures_id : ∀ v : Value β, v.mapProcedures id = v
  | .number x => by rw [mapProcedures]
  | .symbol text => by rw [mapProcedures]
  | .list items => by rw [mapProcedures, mapItems_id items]
  | .bool b => by rw [mapProcedures]
  | .nil => by rw [mapProcedures]
  | .procedure p => by rw [mapProcedures, id]
  | .aliasTo target => by rw [mapProcedures]
  | .unspecified => by rw [mapProcedures]

theorem mapItems_id : ∀ vs : List (Value β), mapItems id vs = vs
  | [] => by rw [mapItems]
  | v :: vs => by rw [mapItems, mapProcedures_id v, mapItems_id vs]

end

/-- Values that are alike up to nothing are the same. -/
theorem AlikeWhere.eq {R : Procedure β → Procedure β → Prop} {T : String → Prop}
    (hR : ∀ p q, R p q → q = p) {v w : Value β} (h : AlikeWhere R T v w) : w = v := by
  have hmap : w = v.mapProcedures id := h.eq_mapProcedures hR
  rwa [mapProcedures_id] at hmap

theorem AlikeWhere.eq_items {R : Procedure β → Procedure β → Prop} {T : String → Prop}
    (hR : ∀ p q, R p q → q = p) {vs ws : List (Value β)} (h : List.Forall₂ (AlikeWhere R T) vs ws) :
    ws = vs := by
  have hmap : ws = mapItems id vs := AlikeWhere.eq_mapItems hR h
  rwa [mapItems_id] at hmap

mutual

theorem mapProcedures_mapProcedures {g : Procedure γ → Procedure β} (hgf : ∀ p, g (f p) = p) :
    ∀ v : Value β, (v.mapProcedures f).mapProcedures g = v
  | .number x => by rw [mapProcedures, mapProcedures]
  | .symbol text => by rw [mapProcedures, mapProcedures]
  | .list items => by rw [mapProcedures, mapProcedures, mapItems_mapItems hgf items]
  | .bool b => by rw [mapProcedures, mapProcedures]
  | .nil => by rw [mapProcedures, mapProcedures]
  | .procedure p => by rw [mapProcedures, mapProcedures, hgf]
  | .aliasTo target => by rw [mapProcedures, mapProcedures]
  | .unspecified => by rw [mapProcedures, mapProcedures]

theorem mapItems_mapItems {g : Procedure γ → Procedure β} (hgf : ∀ p, g (f p) = p) :
    ∀ vs : List (Value β), mapItems g (mapItems f vs) = vs
  | [] => by rw [mapItems, mapItems]
  | v :: vs => by
    rw [mapItems, mapItems, mapProcedures_mapProcedures hgf v, mapItems_mapItems hgf vs]

end

end Value

theorem BindingsAlike.eq_mapBindings {R : Procedure β → Procedure γ → Prop}
    (hR : ∀ p q, R p q → q = f p) {entries : List (String × Value β)}
    {entries' : List (String × Value γ)} (h : BindingsAlike R entries entries') :
    entries' = mapBindings (Value.mapProcedures f) entries := by
  induction h with
  | nil => rfl
  | cons name hvalue _ ih =>
    rw [hvalue.eq_mapProcedures hR, ih]
    rfl

theorem bindingsAlike_mapBindings {entries : List (String × Value β)}
    (h : ∀ entry ∈ entries, entry.2.Within admits) :
    BindingsAlike (Procedure.Via admits f) entries
      (mapBindings (Value.mapProcedures f) entries) := by
  induction entries with
  | nil => exact .nil
  | cons entry entries ih =>
    obtain ⟨name, value⟩ := entry
    have hvalue := h (name, value) List.mem_cons_self
    apply BindingsAlike.cons name hvalue.alike_mapProcedures
    exact ih fun other hmem => h other (List.mem_cons_of_mem _ hmem)

namespace Table

theorem Within.alike_map {t : Table (Value β)} (h : t.Within admits) :
    t.Alike (Procedure.Via admits f) (t.map (Value.mapProcedures f)) :=
  bindingsAlike_mapBindings fun _ hmem => h.of_mem hmem

theorem Alike.eq_map {R : Procedure β → Procedure γ → Prop} (hR : ∀ p q, R p q → q = f p)
    {t : Table (Value β)} {u : Table (Value γ)} (h : t.Alike R u) :
    u = t.map (Value.mapProcedures f) := by
  -- That names are distinct is no data, so tables with the same bindings are the same.
  have hentries := BindingsAlike.eq_mapBindings hR h
  obtain ⟨entries, hnodup⟩ := u
  subst hentries
  rfl

/-- Tables that are alike up to nothing are the same. -/
theorem Alike.eq {R : Procedure β → Procedure β → Prop} (hR : ∀ p q, R p q → q = p)
    {t u : Table (Value β)} (h : t.Alike R u) : u = t := by
  have hmap : mapBindings (Value.mapProcedures id) t.entries = t.entries := by
    have hid : ∀ entry ∈ t.entries, (entry.1, entry.2.mapProcedures id) = entry :=
      fun entry _ => congrArg (Prod.mk entry.1) (Value.mapProcedures_id entry.2)
    exact (List.map_congr_left hid).trans (List.map_id _)
  obtain ⟨entries, hnodup⟩ := u
  obtain rfl : entries = t.entries := (BindingsAlike.eq_mapBindings hR h).trans hmap
  rfl

end Table

namespace Store

theorem table_mapProcedures (s : Store β) (owner : Owner) :
    (s.mapProcedures f).table owner = (s.table owner).map (Value.mapProcedures f) := by
  cases owner with
  | frame index =>
    by_cases hlt : index < s.frames.size
    · have hlt' : index < (s.mapProcedures f).frames.size := by
        rwa [mapProcedures, Array.size_map]
      rw [table, table, frame_of_lt hlt, frame_of_lt hlt']
      exact Array.getElem_map ..
    · have hle : s.frames.size ≤ index := by omega
      have hle' : (s.mapProcedures f).frames.size ≤ index := by
        rwa [mapProcedures, Array.size_map]
      rw [table, table, frame_of_le hle, frame_of_le hle']
      rfl
  | globals => rfl

theorem Within.alike_mapProcedures {s : Store β} (h : s.Within admits) :
    s.Alike (Procedure.Via admits f) (s.mapProcedures f) := by
  constructor
  · intro owner
    rw [table_mapProcedures]
    exact (h owner).alike_map
  · rw [mapProcedures, Array.size_map]
  · rfl

theorem Alike.eq_mapProcedures {s : Store β} {t : Store γ}
    (h : s.Alike (Procedure.Via admits f) t) : t = s.mapProcedures f := by
  have hglobals : t.globals = (s.mapProcedures f).globals :=
    (h.table .globals).eq_map fun _ _ hp => hp.2
  have hframes : t.frames = (s.mapProcedures f).frames := by
    apply Array.ext
    · rw [← h.size, mapProcedures, Array.size_map]
    · intro index hlt hlt'
      have htable : t.table (.frame index) = (s.mapProcedures f).table (.frame index) := by
        rw [table_mapProcedures]
        exact (h.table (.frame index)).eq_map fun _ _ hp => hp.2
      rwa [Store.table, Store.table, frame_of_lt hlt, frame_of_lt hlt'] at htable
  have hnext : t.nextClosure = (s.mapProcedures f).nextClosure := h.nextClosure.symm
  obtain ⟨globals, frames, nextClosure⟩ := t
  subst hglobals hframes hnext
  rfl

theorem Alike.within {R : Procedure β → Procedure γ → Prop} (hR : ∀ p q, R p q → admits p)
    {s : Store β} {t : Store γ} (h : s.Alike R t) : s.Within admits := by
  intro owner name value hvalue
  have hget := (h.table owner).get? name
  rw [hvalue] at hget
  generalize (t.table owner).get? name = found at hget
  cases hget with
  | some hvalue => exact hvalue.within hR

end Store

end TextLisp
