import Mathlib.Data.List.Basic
import TextLisp.Proofs.Store.History

namespace TextLisp

variable {β : Type}

abbrev Cause (β : Type := String) :=
  List Record → Owner → String → Value β → Prop

def Cause.behind (cause : Cause β) (log : List Record) : Cause β :=
  fun rest => cause (log ++ rest)

def Record.isAssign : Record → Bool
  | .assign _ _ => true
  | _ => false

namespace Store

/-- Every bound slot holds what it held. New slots may be bound. -/
def KeepsBindings (s s' : Store β) : Prop :=
  ∀ owner name value, (s.table owner).get? name = some value →
    (s'.table owner).get? name = some value

theorem KeepsBindings.refl (s : Store β) : s.KeepsBindings s :=
  fun _ _ _ h => h

theorem keepsBindings_put_globals {s : Store β} {name : String}
    (hnew : s.globals.contains name = false) (value : Value β) :
    s.KeepsBindings (s.put .globals name value) := by
  intro owner other old hold
  cases owner with
  | frame index => exact hold
  | globals =>
    have hother : other ≠ name := by
      rintro rfl
      have hbound : s.globals.contains other = true := by
        rw [Table.contains, show s.globals.get? other = some old from hold]
        rfl
      rw [hbound] at hnew
      cases hnew
    change (s.globals.insert name value).get? other = some old
    simpa [table, hother] using hold

theorem keepsBindings_addFrame (s : Store β) (table : Table (Value β)) :
    s.KeepsBindings (s.addFrame table) := by
  intro owner name value hvalue
  cases owner with
  | frame index =>
    have hbound : (s.table (.frame index)).contains name = true := by
      rw [Table.contains, hvalue]
      rfl
    have hlt : index < s.frames.size := hasTable_of_contains hbound
    change ((s.addFrame table).frame index).get? name = some value
    simpa [Store.table, Nat.ne_of_lt hlt] using hvalue
  | globals => exact hvalue

inductive AssignedBy (cause : Cause β) (s : Store β) : List Record → Store β → Prop where
  | start : AssignedBy cause s [] s
  | quiet {log more : List Record} {s' s'' : Store β} (h : AssignedBy cause s log s')
      (hmore : ∀ r ∈ more, r.isAssign = false) (hkeeps : s'.KeepsBindings s'') :
      AssignedBy cause s (log ++ more) s''
  | assign {log : List Record} {s' : Store β} {owner : Owner} {name : String} {value : Value β}
      (h : AssignedBy cause s log s') (hbound : (s'.table owner).contains name = true)
      (hcause : cause log owner name value) :
      AssignedBy cause s (log ++ [.assign name value.render]) (s'.put owner name value)

namespace AssignedBy

variable {cause cause' : Cause β} {s s' s'' : Store β} {log log' : List Record}

theorem mono (h : AssignedBy cause s log s')
    (hcause : ∀ log owner name value, cause log owner name value → cause' log owner name value) :
    AssignedBy cause' s log s' := by
  induction h with
  | start => exact .start
  | quiet _ hmore hkeeps ih => exact ih.quiet hmore hkeeps
  | assign _ hbound h ih => exact ih.assign hbound (hcause _ _ _ _ h)

/-- Assignments in a row: the causes of the later ones lie behind the earlier records. -/
theorem trans (h : AssignedBy cause s log s') (h' : AssignedBy (cause.behind log) s' log' s'') :
    AssignedBy cause s (log ++ log') s'' := by
  induction h' with
  | start => rwa [List.append_nil]
  | quiet _ hmore hkeeps ih =>
    rw [← List.append_assoc]
    exact ih.quiet hmore hkeeps
  | assign _ hbound hcause ih =>
    rw [← List.append_assoc]
    exact ih.assign hbound hcause

/-- A slot that holds another value than before was assigned to. -/
theorem exists_cause (h : AssignedBy cause s log s') {owner : Owner} {name : String}
    {value : Value β} (hvalue : (s.table owner).get? name = some value)
    (hchanged : (s'.table owner).get? name ≠ some value) :
    ∃ before last after, log = before ++ .assign name last.render :: after ∧
      cause before owner name last := by
  induction h with
  | start => exact absurd hvalue hchanged
  | @quiet log more s' s'' _ _ hkeeps ih =>
    -- The slot held another value already before the quiet steps.
    have hearlier : (s'.table owner).get? name ≠ some value :=
      fun hsame => hchanged (hkeeps owner name value hsame)
    obtain ⟨before, last, after, rfl, hcause⟩ := ih hearlier
    exact ⟨before, last, after ++ more, by rw [List.append_assoc, List.cons_append], hcause⟩
  | @assign log s' target other written _ hbound hcause ih =>
    rw [get?_put hbound] at hchanged
    by_cases hslot : owner = target ∧ name = other
    · obtain ⟨rfl, rfl⟩ := hslot
      exact ⟨log, written, [], rfl, hcause⟩
    · rw [if_neg hslot] at hchanged
      obtain ⟨before, last, after, rfl, hcause'⟩ := ih hchanged
      exact ⟨before, last, after ++ [.assign other written.render],
        by rw [List.append_assoc, List.cons_append], hcause'⟩

end AssignedBy

end Store

end TextLisp
