import TextLisp.Keyword
import TextLisp.Run
import TextLisp.Proofs.Store.Slot

namespace TextLisp

variable {β : Type}

/-- Whether a record announces a write. -/
def Record.announces : Record → Bool
  | .define _ _ | .assign _ _ => true
  | _ => false

namespace Store

inductive History (s : Store β) : List Record → Store β → Prop where
  | start : History s [] s
  | note {log : List Record} {s' : Store β} {r : Record} (h : History s log s')
      (hr : r.announces = false) : History s (log ++ [r]) s'
  /-- A new global name is announced and bound. -/
  | define {log : List Record} {s' : Store β} {name : String} {value : Value β}
      (h : History s log s') (hname : isName name = true) (hvalue : value.isUnspecified = false)
      (hnew : s'.globals.contains name = false) :
      History s (log ++ [.define name value.render]) (s'.put .globals name value)
  /-- A name that was bound in the meantime is announced and refused. -/
  | refuse {log : List Record} {s' : Store β} {name : String} {value : Value β}
      (h : History s log s') (hname : isName name = true) (hvalue : value.isUnspecified = false)
      (hbound : s'.globals.contains name = true) :
      History s (log ++ [.define name value.render]) s'
  /-- The write to a bound slot is announced and made. -/
  | assign {log : List Record} {s' : Store β} {owner : Owner} {name : String} {value : Value β}
      (h : History s log s') (hname : isName name = true) (hvalue : value.isUnspecified = false)
      (hbound : (s'.table owner).contains name = true) :
      History s (log ++ [.assign name value.render]) (s'.put owner name value)
  /-- A call adds a table of its parameters. -/
  | enter {log : List Record} {s' : Store β} {names : List String} {args : List (Value β)}
      (h : History s log s') (hnames : names.Nodup) (hname : ∀ name ∈ names, isName name = true)
      (hlength : args.length = names.length) :
      History s log (s'.addFrame (Table.ofList (names.zip args)))
  | closure {log : List Record} {s' : Store β} (h : History s log s') :
      History s log { s' with nextClosure := s'.nextClosure + 1 }

/-- Histories in a row make one history. -/
theorem History.trans {s₁ s₂ s₃ : Store β} {log₁ log₂ : List Record} (h : s₁.History log₁ s₂)
    (h' : s₂.History log₂ s₃) : s₁.History (log₁ ++ log₂) s₃ := by
  -- Records come in at the end of a log, so the induction is on the second history.
  induction h' with
  | start => rwa [List.append_nil]
  | note _ hr ih =>
    rw [← List.append_assoc]
    exact ih.note hr
  | define _ hname hvalue hnew ih =>
    rw [← List.append_assoc]
    exact ih.define hname hvalue hnew
  | refuse _ hname hvalue hbound ih =>
    rw [← List.append_assoc]
    exact ih.refuse hname hvalue hbound
  | assign _ hname hvalue hbound ih =>
    rw [← List.append_assoc]
    exact ih.assign hname hvalue hbound
  | enter _ hnames hname hlength ih => exact ih.enter hnames hname hlength
  | closure _ ih => exact ih.closure

/-- The tables of the first store are still there, with the names they had. Only the globals may
have more names. -/
structure KeepsNames (s s' : Store β) : Prop where
  size_le : s.frames.size ≤ s'.frames.size
  frame_names : ∀ index < s.frames.size, (s'.frame index).names = (s.frame index).names
  global_names : s.globals.names ⊆ s'.globals.names

namespace KeepsNames

variable {s s' s'' : Store β}

theorem refl (s : Store β) : s.KeepsNames s :=
  ⟨Nat.le_refl _, fun _ _ => rfl, List.Subset.refl _⟩

theorem trans (h : s.KeepsNames s') (h' : s'.KeepsNames s'') : s.KeepsNames s'' := by
  refine ⟨Nat.le_trans h.size_le h'.size_le, ?_, List.Subset.trans h.global_names h'.global_names⟩
  intro index hlt
  rw [h'.frame_names index (Nat.lt_of_lt_of_le hlt h.size_le), h.frame_names index hlt]

theorem contains_frame (h : s.KeepsNames s') {index : Nat} (hlt : index < s.frames.size)
    (name : String) : (s'.frame index).contains name = (s.frame index).contains name := by
  rw [Bool.eq_iff_iff, Table.contains_iff_mem_names, Table.contains_iff_mem_names,
    h.frame_names index hlt]

theorem contains_globals (h : s.KeepsNames s') {name : String}
    (hbound : s.globals.contains name = true) : s'.globals.contains name = true := by
  rw [Table.contains_iff_mem_names] at hbound ⊢
  exact h.global_names hbound

theorem contains_table (h : s.KeepsNames s') {owner : Owner} {name : String}
    (hbound : (s.table owner).contains name = true) :
    (s'.table owner).contains name = true := by
  cases owner with
  | frame index =>
    have hlt : index < s.frames.size := hasTable_of_contains hbound
    exact (h.contains_frame hlt name).trans hbound
  | globals => exact h.contains_globals hbound

theorem isValid (h : s.KeepsNames s') {env : Environment} (henv : env.IsValid s) :
    env.IsValid s' :=
  henv.mono h.size_le

/-- In a chain whose tables were there before, a name is found in the same frame as before. -/
theorem frame? (h : s.KeepsNames s') {env : Environment} (henv : env.IsValid s) (name : String) :
    env.frame? s' name = env.frame? s name := by
  obtain ⟨frames⟩ := env
  unfold Environment.frame?
  induction frames with
  | nil => rfl
  | cons index frames ih =>
    have hframe := h.contains_frame (henv index List.mem_cons_self) name
    have hframes := ih fun i hi => henv i (List.mem_cons_of_mem index hi)
    simp only [List.find?_cons, hframe] at hframes ⊢
    rw [hframes]

/-- Whatever owned a name still owns it. -/
theorem owner? (h : s.KeepsNames s') {env : Environment} (henv : env.IsValid s) {name : String}
    {owner : Owner} (howner : env.owner? s name = some owner) :
    env.owner? s' name = some owner := by
  unfold Environment.owner? at howner ⊢
  rw [h.frame? henv]
  cases hframe : env.frame? s name with
  | some index =>
    rw [hframe] at howner
    exact howner
  | none =>
    rw [hframe] at howner
    by_cases hglobal : s.globals.contains name = true
    · rw [if_pos hglobal] at howner
      rw [if_pos (h.contains_globals hglobal), howner]
    · rw [if_neg hglobal] at howner
      cases howner

end KeepsNames

/-- Overwriting a slot leaves the names of every table as they are. -/
theorem names_put_of_contains {s : Store β} {owner : Owner} {name : String}
    (h : (s.table owner).contains name = true) (value : Value β) (other : Owner) :
    ((s.put owner name value).table other).names = (s.table other).names := by
  by_cases hother : other = owner
  · subst hother
    simp [hasTable_of_contains h, h]
  · simp [hother]

theorem keepsNames_put {s : Store β} {owner : Owner} {name : String}
    (h : owner = .globals ∨ (s.table owner).contains name = true) (value : Value β) :
    s.KeepsNames (s.put owner name value) := by
  have hsize := Nat.le_of_eq (size_put s owner name value).symm
  obtain rfl | hbound := h
  · exact ⟨hsize, fun _ _ => rfl, fun _ hmem => Table.mem_names_insert.mpr (Or.inr hmem)⟩
  · have hnames := names_put_of_contains hbound value
    have hglobals : (s.put owner name value).globals.names = s.globals.names := hnames .globals
    refine ⟨hsize, fun index _ => hnames (.frame index), ?_⟩
    rw [hglobals]
    exact List.Subset.refl _

theorem keepsNames_addFrame (s : Store β) (table : Table (Value β)) :
    s.KeepsNames (s.addFrame table) := by
  refine ⟨by simp [addFrame], ?_, List.Subset.refl _⟩
  intro index hlt
  simp [Nat.ne_of_lt hlt]

/-- Evaluation adds tables and global names, and removes neither. -/
theorem History.keepsNames {s s' : Store β} {log : List Record} (h : s.History log s') :
    s.KeepsNames s' := by
  induction h with
  | start => exact KeepsNames.refl s
  | note _ _ ih => exact ih
  | define _ _ _ _ ih => exact ih.trans (keepsNames_put (Or.inl rfl) _)
  | refuse _ _ _ _ ih => exact ih
  | assign _ _ _ hbound ih => exact ih.trans (keepsNames_put (Or.inr hbound) _)
  | enter _ _ _ _ ih => exact ih.trans (keepsNames_addFrame _ _)
  | closure _ ih => exact ⟨ih.size_le, ih.frame_names, ih.global_names⟩

/-- Identities that were given out stay given out. -/
theorem History.nextClosure_le {s s' : Store β} {log : List Record} (h : s.History log s') :
    s.nextClosure ≤ s'.nextClosure := by
  induction h with
  | start => exact Nat.le_refl _
  | note _ _ ih | refuse _ _ _ _ ih | enter _ _ _ _ ih => exact ih
  | define _ _ _ _ ih | assign _ _ _ _ ih => simpa using ih
  | closure _ ih => exact Nat.le_succ_of_le ih

/-- Without announcements, the globals and the frames that existed are what they were. -/
theorem History.unchanged {s s' : Store β} {log : List Record} (h : s.History log s')
    (hlog : ∀ r ∈ log, r.announces = false) :
    s'.globals = s.globals ∧ ∀ index < s.frames.size, s'.frame index = s.frame index := by
  induction h with
  | start => exact ⟨rfl, fun _ _ => rfl⟩
  | note _ _ ih => exact ih fun r hmem => hlog r (List.mem_append_left _ hmem)
  | define | refuse | assign => cases hlog _ (List.mem_append_right _ List.mem_cons_self)
  | @enter log s' names args h _ _ _ ih =>
    obtain ⟨hglobals, hframes⟩ := ih hlog
    refine ⟨hglobals, ?_⟩
    intro index hlt
    have hne : index ≠ s'.frames.size := Nat.ne_of_lt (Nat.lt_of_lt_of_le hlt h.keepsNames.size_le)
    simpa [hne] using hframes index hlt
  | closure _ ih => exact ih hlog

end Store

end TextLisp
