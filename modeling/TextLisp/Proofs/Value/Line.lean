import Mathlib
import TextLisp.Builtin
import TextLisp.Proofs.Text.Line
import TextLisp.Proofs.Value.Within

namespace TextLisp

open Text

/-- Every text in the value, also inside lists and closures, is of one line. Primitives are those of
the language. -/
inductive Value.IsLine : Value → Prop
  | number (x : Float) : IsLine (.number x)
  | symbol {text : String} (h : Text.IsLine text) : IsLine (.symbol text)
  | list {items : List Value} (h : ∀ v ∈ items, IsLine v) : IsLine (.list items)
  | bool (b : Bool) : IsLine (.bool b)
  | nil : IsLine .nil
  | primitive {p : Primitive} (h : Text.IsLine p.id)
      (hbuiltin : ∃ operation, p.operation = .builtin operation) :
      IsLine (.procedure (.primitive p))
  | closure {c : Closure} (hparams : Text.IsLine c.params) (hbody : Text.IsLine c.body) :
      IsLine (.procedure (.closure c))
  | aliasTo {target : String} (h : Text.IsLine target) : IsLine (.aliasTo target)
  | unspecified : IsLine .unspecified

theorem Builtin.isLine_id (operation : Builtin) : Text.IsLine operation.id := by
  cases operation <;> decide

/-! ### Written forms -/

theorem newline_notMem_zeros (count : Nat) : '\n' ∉ zeros count := by
  intro hmem
  cases List.eq_of_mem_replicate hmem

theorem newline_notMem_positional (d : Decimal) : '\n' ∉ d.positional := by
  have hdigits : '\n' ∉ (Nat.repr d.coefficient).toList := isLine_toString d.coefficient
  unfold Decimal.positional
  generalize (Nat.repr d.coefficient).toList = digits at hdigits ⊢
  have htake (n : Nat) : '\n' ∉ digits.take n := fun hmem => hdigits (List.mem_of_mem_take hmem)
  have hdrop (n : Nat) : '\n' ∉ digits.drop n := fun hmem => hdigits (List.mem_of_mem_drop hmem)
  dsimp only
  split
  · simp [hdigits, newline_notMem_zeros]
  · split
    · simp [hdigits, newline_notMem_zeros]
    · simp [htake, hdrop]

/-- No double is written with a newline. -/
theorem isLine_renderNumber (x : Float) : Text.IsLine (renderNumber x) := by
  have hsign (negative : Prop) [Decidable negative] :
      Text.IsLine (if negative then "-" else "") := by
    split <;> decide
  unfold renderNumber
  dsimp only
  split
  · split
    · exact isLine_append.mpr ⟨hsign _, by decide⟩
    · decide
  · split
    · exact isLine_append.mpr ⟨hsign _, by decide⟩
    · exact isLine_append.mpr ⟨hsign _, isLine_ofList.mpr (newline_notMem_positional _)⟩

theorem Value.isLine_renderItems {items : List Value} (h : ∀ v ∈ items, Text.IsLine v.render) :
    Text.IsLine (renderItems items) := by
  induction items with
  | nil =>
    unfold renderItems
    decide
  | cons v items ih =>
    obtain ⟨hv, hitems⟩ := List.forall_mem_cons.mp h
    cases items with
    | nil => exact hv
    | cons w rest =>
      unfold renderItems
      exact isLine_append.mpr ⟨isLine_append.mpr ⟨hv, by decide⟩, ih hitems⟩

/-- A value made of lines is written in one line. -/
theorem Value.IsLine.render {v : Value} (h : v.IsLine) : Text.IsLine v.render := by
  induction h with
  | number x =>
    unfold Value.render
    exact isLine_renderNumber x
  | symbol h =>
    unfold Value.render
    exact h
  | list _ ih =>
    unfold Value.render
    exact isLine_append.mpr ⟨isLine_append.mpr ⟨by decide, isLine_renderItems ih⟩, by decide⟩
  | bool b =>
    unfold Value.render
    cases b <;> decide
  | nil =>
    unfold Value.render
    decide
  | primitive h _ =>
    unfold Value.render
    exact isLine_append.mpr ⟨isLine_append.mpr ⟨by decide, h⟩, by decide⟩
  | closure hparams _ =>
    unfold Value.render
    exact isLine_append.mpr ⟨isLine_append.mpr ⟨by decide, hparams⟩, by decide⟩
  | aliasTo h =>
    unfold Value.render
    exact isLine_append.mpr ⟨isLine_append.mpr ⟨by decide, h⟩, by decide⟩
  | unspecified =>
    unfold Value.render
    decide

/-! ### Operations -/

theorem isClosedUnderLists_isLine : IsClosedUnderLists Value.IsLine Error.QuotesLines := by
  have hitems (items : List Value) (h : Value.IsLine (.list items)) : ∀ v ∈ items, v.IsLine := by
    cases h with
    | list h => exact h
  refine ⟨.number, .bool, fun items => ⟨hitems items, .list⟩,
    fun _ _ _ => List.forall_mem_nil _, ?_⟩
  intro operation expected v hv
  exact List.forall_mem_cons.mpr ⟨operation.isLine_id, List.forall_mem_singleton.mpr hv.render⟩

/-! ### Data -/

theorem yields_mapM {α γ : Type} {allows : Error → Prop} {post : γ → Prop}
    {f : α → Except ReadFault γ} {xs : List α}
    (h : ∀ x ∈ xs, Yields allows post ((f x).mapError .invalidSubform)) :
    Yields allows (fun ys => ∀ y ∈ ys, post y) ((xs.mapM f).mapError .invalidSubform) := by
  induction xs with
  | nil => exact .ok (List.forall_mem_nil _)
  | cons x xs ih =>
    obtain ⟨hx, hxs⟩ := List.forall_mem_cons.mp h
    have htail := ih hxs
    rw [List.mapM_cons]
    cases hfx : f x with
    | error fault =>
      rw [hfx] at hx
      cases hx with
      | error he => exact .error he
    | ok y =>
      rw [hfx] at hx
      cases hx with
      | ok hy =>
        cases hys : xs.mapM f with
        | error fault =>
          rw [hys] at htail
          cases htail with
          | error he => exact .error he
        | ok ys =>
          rw [hys] at htail
          cases htail with
          | ok hys => exact .ok (List.forall_mem_cons.mpr ⟨hy, hys⟩)

/-- What is read in a text of one line is of one line, and so is what a fault quotes. -/
theorem yields_readDatum_of_isLine {text : List Char} (h : '\n' ∉ text) :
    Yields Error.QuotesLines Value.IsLine
      ((readDatum text).mapError .invalidSubform) := by
  induction hlength : text.length using Nat.strongRecOn generalizing text with
  | _ length ih =>
    subst hlength
    by_cases hform : ∃ inner, trimChars text = '(' :: inner
    · obtain ⟨inner, hinner⟩ := hform
      cases hsplit : splitFormChars text with
      | error fault =>
        rw [readDatum_of_fault hinner hsplit]
        have hquoted : Text.IsLine fault.quoted :=
          fun hmem => h (quoted_subset_of_splitFormChars hsplit hmem)
        exact .error (List.forall_mem_singleton.mpr hquoted)
      | ok siblings =>
        have hitems : Yields Error.QuotesLines (fun items => ∀ v ∈ items, v.IsLine)
            ((siblings.mapM readDatum).mapError .invalidSubform) := by
          apply yields_mapM
          intro sibling hmem
          have hsibling : '\n' ∉ sibling :=
            fun hc => h ((isPiece_of_mem_splitFormChars hsplit hmem).subset hc)
          exact ih _ (length_lt_of_mem_splitFormChars hsplit hmem) hsibling rfl
        rw [readDatum_of_form hinner hsplit]
        generalize siblings.mapM readDatum = items at hitems ⊢
        cases items with
        | error fault =>
          cases hitems with
          | error he => exact .error he
        | ok items =>
          cases hitems with
          | ok hitems => exact .ok (.list hitems)
    · have htrim : Text.IsLine (String.ofList (trimChars text)) :=
        isLine_ofList.mpr fun hmem => h (trimChars_subset text hmem)
      rw [readDatum_of_word fun inner hinner => hform ⟨inner, hinner⟩]
      split
      · split
        · exact .ok (.number _)
        · exact .ok (.symbol htrim)
      · exact .error (List.forall_mem_singleton.mpr htrim)

end TextLisp
