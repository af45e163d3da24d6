import TextLisp.Proofs.Store.Slotwise

namespace TextLisp

variable {β γ : Type} {R : Procedure β → Procedure γ → Prop}

inductive BindingsAlike (R : Procedure β → Procedure γ → Prop) :
    List (String × Value β) → List (String × Value γ) → Prop
  | nil : BindingsAlike R [] []
  | cons (name : String) {value : Value β} {value' : Value γ} {rest : List (String × Value β)}
      {rest' : List (String × Value γ)} (hvalue : Value.Alike R value value')
      (h : BindingsAlike R rest rest') :
      BindingsAlike R ((name, value) :: rest) ((name, value') :: rest')

theorem bindingsAlike_zip (names : List String) {values : List (Value β)}
    {values' : List (Value γ)} (h : List.Forall₂ (Value.Alike R) values values') :
    BindingsAlike R (names.zip values) (names.zip values') := by
  induction h generalizing names with
  | nil =>
    rw [List.zip_nil_right, List.zip_nil_right]
    exact .nil
  | cons hvalue _ ih =>
    cases names with
    | nil => exact .nil
    | cons name names => exact .cons name hvalue (ih names)

namespace BindingsAlike

variable {entries : List (String × Value β)} {entries' : List (String × Value γ)}

theorem lookup (h : BindingsAlike R entries entries') (name : String) :
    Option.Rel (Value.Alike R) (entries.lookup name) (entries'.lookup name) := by
  induction h with
  | nil => exact .none
  | cons other hvalue _ ih =>
    rw [List.lookup_cons, List.lookup_cons]
    split
    · exact .some hvalue
    · exact ih

theorem putBinding (h : BindingsAlike R entries entries') (name : String) {value : Value β}
    {value' : Value γ} (hvalue : Value.Alike R value value') :
    BindingsAlike R (putBinding name value entries) (putBinding name value' entries') := by
  induction h with
  | nil => exact .cons name hvalue .nil
  | cons other hother htail ih =>
    unfold TextLisp.putBinding
    split
    · exact .cons other hvalue htail
    · exact .cons other hother ih

end BindingsAlike

namespace Table

def Alike (R : Procedure β → Procedure γ → Prop) (t : Table (Value β)) (u : Table (Value γ)) :
    Prop :=
  BindingsAlike R t.entries u.entries

variable {t : Table (Value β)} {u : Table (Value γ)}

theorem alike_empty : (empty : Table (Value β)).Alike R empty :=
  .nil

theorem Alike.get? (h : t.Alike R u) (name : String) :
    Option.Rel (Value.Alike R) (t.get? name) (u.get? name) :=
  h.lookup name

theorem Alike.contains (h : t.Alike R u) (name : String) : t.contains name = u.contains name :=
  contains_eq_of_rel (h.get? name)

theorem Alike.insert (h : t.Alike R u) (name : String) {value : Value β} {value' : Value γ}
    (hvalue : Value.Alike R value value') :
    (t.insert name value).Alike R (u.insert name value') :=
  h.putBinding name hvalue

theorem alike_ofList {bindings : List (String × Value β)} {bindings' : List (String × Value γ)}
    (h : BindingsAlike R bindings bindings') : (ofList bindings).Alike R (ofList bindings') := by
  have hfoldl {t : Table (Value β)} {u : Table (Value γ)} (ht : t.Alike R u) :
      (bindings.foldl (fun t binding => t.insert binding.1 binding.2) t).Alike R
        (bindings'.foldl (fun t binding => t.insert binding.1 binding.2) u) := by
    induction h generalizing t u with
    | nil => exact ht
    | cons name hvalue _ ih => exact ih (ht.insert name hvalue)
  exact hfoldl alike_empty

end Table

namespace Store

structure Alike (R : Procedure β → Procedure γ → Prop) (s : Store β) (t : Store γ) : Prop where
  table (owner : Owner) : (s.table owner).Alike R (t.table owner)
  size : s.frames.size = t.frames.size
  nextClosure : s.nextClosure = t.nextClosure

variable {s : Store β} {t : Store γ}

theorem Alike.slotwise (h : s.Alike R t) :
    s.Slotwise (Value.Alike R) (fun _ _ => True) t :=
  ⟨fun owner name _ => (h.table owner).get? name, h.size, h.nextClosure⟩

/-- Alike values may be written to the same slot of alike stores. -/
theorem Alike.put (h : s.Alike R t) (owner : Owner) (name : String) {value : Value β}
    {value' : Value γ} (hvalue : Value.Alike R value value') :
    (s.put owner name value).Alike R (t.put owner name value') := by
  by_cases howner : s.HasTable owner
  · have howner' : t.HasTable owner := (h.slotwise.hasTable owner).mp howner
    constructor
    · intro other
      by_cases hother : other = owner
      · subst hother
        simpa [howner, howner'] using (h.table other).insert name hvalue
      · simpa [hother] using h.table other
    · simp [h.size]
    · simp [h.nextClosure]
  · have howner' : ¬ t.HasTable owner := mt (h.slotwise.hasTable owner).mpr howner
    rw [put_of_not_hasTable howner, put_of_not_hasTable howner']
    exact h

theorem Alike.addFrame (h : s.Alike R t) {table : Table (Value β)} {table' : Table (Value γ)}
    (htable : table.Alike R table') : (s.addFrame table).Alike R (t.addFrame table') := by
  constructor
  · intro owner
    cases owner with
    | frame index =>
      change ((s.addFrame table).frame index).Alike R ((t.addFrame table').frame index)
      simp only [frame_addFrame, h.size]
      split
      · exact htable
      · exact h.table (.frame index)
    | globals => exact h.table .globals
  · simp only [Store.addFrame, Array.size_push, h.size]
  · exact h.nextClosure

theorem Alike.closure (h : s.Alike R t) :
    Store.Alike R { s with nextClosure := s.nextClosure + 1 }
      { t with nextClosure := t.nextClosure + 1 } := by
  constructor
  · intro owner
    have htable := h.table owner
    cases owner <;> exact htable
  · exact h.size
  · exact congrArg (· + 1) h.nextClosure

theorem Alike.define (h : s.Alike R t) (name : String) {value : Value β} {value' : Value γ}
    (hvalue : Value.Alike R value value') :
    Agree (fun _ => True) (Store.Alike R) (s.define name value) (t.define name value') :=
  agree_define ((h.table .globals).contains name) (h.put .globals name hvalue)

theorem Alike.assign (h : s.Alike R t) (owner : Owner) (name : String) {value : Value β}
    {value' : Value γ} (hvalue : Value.Alike R value value') :
    Agree (fun _ => True) (Store.Alike R) (s.assign owner name value)
      (t.assign owner name value') :=
  agree_assign ((h.table .globals).contains name) (h.put owner name hvalue)

theorem Alike.owner? (h : s.Alike R t) (env : Environment) (name : String) :
    env.owner? s name = env.owner? t name :=
  h.slotwise.owner? rfl fun _ => trivial

/-- In alike stores names are resolved alike. -/
theorem Alike.resolve (h : s.Alike R t) (env : Environment) (name : String) :
    Agree (fun _ => True) (Value.Alike R) (env.resolve s name) (env.resolve t name) :=
  h.slotwise.resolve rfl (fun _ => trivial) fun _ _ => trivial

end Store

end TextLisp
