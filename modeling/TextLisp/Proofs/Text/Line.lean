import Mathlib
import TextLisp.Proofs.Text.Layout

namespace TextLisp

def ReadFault.quoted : ReadFault → String
  | .unterminated text | .unclosed text | .notAForm text | .trailing text | .strayDelimiter text
  | .notSingle text | .reported text => text

def FormFault.quoted : FormFault → List String
  | .operandCount _ _ | .noValue => []
  | .notAName text | .unbracketedParameters text | .duplicateParameter text | .reported text =>
    [text]

def TypeFault.quoted : TypeFault → List String
  | .argument operation _ _ shown => [operation, shown]
  | .notProcedure _ shown => [shown]
  | .reported text => [text]

def Error.quoted : Error → List String
  | .malformedForm form fault => form :: fault.quoted
  | .unboundVariable name | .redefinition name => [name]
  | .arityMismatch _ _ | .depthExceeded _ => []
  | .invalidSubform fault => [fault.quoted]
  | .noInterpretation text => [text]
  | .typeMismatch fault => fault.quoted

namespace Text

def IsLine (text : String) : Prop :=
  '\n' ∉ text.toList

instance (text : String) : Decidable (IsLine text) :=
  inferInstanceAs (Decidable ('\n' ∉ text.toList))

theorem isLine_append {a b : String} : IsLine (a ++ b) ↔ IsLine a ∧ IsLine b := by
  rw [IsLine, String.toList_append, List.mem_append, not_or]
  rfl

theorem isLine_ofList {cs : List Char} : IsLine (String.ofList cs) ↔ '\n' ∉ cs := by
  rw [IsLine, String.toList_ofList]

theorem isLine_toString (n : Nat) : IsLine (toString n) := by
  change '\n' ∉ (Nat.repr n).toList
  rw [Nat.toList_repr]
  intro hmem
  cases Nat.isDigit_of_mem_toDigits (by decide) (by decide) hmem

theorem IsLine.of_subset {text part : String} (h : IsLine text)
    (hsubset : part.toList ⊆ text.toList) : IsLine part :=
  fun hmem => h (hsubset hmem)

theorem dropBlank_subset (cs : List Char) : dropBlank cs ⊆ cs :=
  (List.dropWhile_suffix isBlank).subset

theorem dropBlankEnd_subset (cs : List Char) : dropBlankEnd cs ⊆ cs := by
  intro c hc
  rw [dropBlankEnd, List.mem_reverse] at hc
  exact List.mem_reverse.mp ((List.dropWhile_suffix isBlank).subset hc)

theorem trimChars_subset (cs : List Char) : trimChars cs ⊆ cs :=
  fun _ hc => dropBlank_subset cs (dropBlankEnd_subset _ hc)

theorem IsLine.trim {text : String} (h : IsLine text) : IsLine (trim text) := by
  apply h.of_subset
  rw [toList_trim]
  exact trimChars_subset _

theorem IsPiece.subset {part text : List Char} (h : IsPiece part text) : part ⊆ text := by
  obtain ⟨before, after, rfl, -, -⟩ := h
  exact fun c hc => List.mem_append_left after (List.mem_append_right before hc)

/-- What follows the form is a part of the text. -/
theorem after_subset_of_splitRest {inner rest after : List Char} {siblings : List (List Char)}
    (h : splitRest inner rest = .ok (siblings, after)) : after ⊆ rest := by
  obtain ⟨placed, last, -, -, rfl⟩ := exists_layout_of_splitRest h
  exact fun c hc => List.mem_append_right _ (List.mem_append_right _ (List.mem_cons_of_mem _ hc))

/-- A fault quotes a part of the text. -/
theorem quoted_subset_of_splitRest {inner rest : List Char} {fault : ReadFault}
    (h : splitRest inner rest = .error fault) (hrest : rest ⊆ inner) :
    fault.quoted.toList ⊆ inner := by
  have hdropped {text dropped : List Char} (hdrop : dropBlank text = dropped) : dropped ⊆ text := by
    rw [← hdrop]
    exact dropBlank_subset text
  have herror {α γ : Type} {x : Except ReadFault α} {f : α → γ} (hmap : x.map f = .error fault) :
      x = .error fault := by
    cases x with
    | error _ => exact congrArg Except.error (Except.error.inj hmap)
    | ok _ => cases hmap
  fun_induction splitRest inner rest with
  | case1 =>
    obtain rfl := Except.error.inj h
    rw [ReadFault.quoted, String.toList_ofList]
    exact dropBlankEnd_subset _
  | case2 => cases h
  | case3 rest cs _ hcs =>
    obtain rfl := Except.error.inj h
    rw [ReadFault.quoted, excerpt, String.toList_ofList]
    exact fun c hc => hrest (hdropped hcs ((List.take_subset _ _) hc))
  | case4 rest cs form after hclosed hcs _ ih =>
    apply ih (herror h)
    intro c hc
    have hmem : c ∈ cs := append_of_splitClosed hclosed ▸ List.mem_append_right form hc
    exact hrest (hdropped hcs (List.mem_cons_of_mem _ hmem))
  | case5 rest c cs hcs _ _ ih =>
    apply ih (herror h)
    intro d hd
    have hmem : d ∈ cs := (List.dropWhile_suffix isAtomChar).subset hd
    exact hrest (hdropped hcs (List.mem_cons_of_mem _ hmem))

theorem quoted_subset_of_splitFormChars {text : List Char} {fault : ReadFault}
    (h : splitFormChars text = .error fault) : fault.quoted.toList ⊆ text := by
  have htrim := trimChars_subset text
  unfold splitFormChars at h
  split at h
  next inner hinner =>
    rw [hinner] at htrim
    have hsub : inner ⊆ text := fun c hc => htrim (List.mem_cons_of_mem _ hc)
    split at h
    next fault' hfault =>
      obtain rfl := Except.error.inj h
      exact fun c hc => hsub (quoted_subset_of_splitRest hfault (List.Subset.refl _) hc)
    next siblings rest hsplit =>
      split at h
      · cases h
      · obtain rfl := Except.error.inj h
        rw [ReadFault.quoted, String.toList_ofList]
        exact fun c hc => hsub (after_subset_of_splitRest hsplit (trimChars_subset _ hc))
  · obtain rfl := Except.error.inj h
    rw [ReadFault.quoted, String.toList_ofList]
    exact htrim

/-- The siblings of a form of one line are of one line. -/
theorem IsLine.sibling {text sibling : String} {siblings : List String} (h : IsLine text)
    (hsplit : splitForm text = .ok siblings) (hmem : sibling ∈ siblings) : IsLine sibling := by
  obtain ⟨parts, hparts, rfl⟩ := splitForm_eq_ok.mp hsplit
  obtain ⟨part, hpart, rfl⟩ := List.mem_map.mp hmem
  rw [isLine_ofList]
  exact fun hc => h ((isPiece_of_mem_splitFormChars hparts hpart).subset hc)

end Text

/-- All that the error quotes is of one line. -/
def Error.QuotesLines (e : Error) : Prop :=
  ∀ text ∈ e.quoted, Text.IsLine text

theorem Kind.isLine_name (kind : Kind) : Text.IsLine kind.name := by
  cases kind <;> decide

theorem Expectation.isLine_text (expected : Expectation) : Text.IsLine expected.text := by
  cases expected <;> decide

theorem Arity.isLine_render (arity : Arity) : Text.IsLine arity.render := by
  unfold render
  cases arity with
  | any => decide
  | exact count => exact Text.isLine_toString count
  | atLeast count => exact Text.isLine_append.mpr ⟨by decide, Text.isLine_toString count⟩

theorem ReadFault.isLine_message {fault : ReadFault} (h : Text.IsLine fault.quoted) :
    Text.IsLine fault.message := by
  cases fault with
  | reported text => exact h
  | _ =>
    unfold message
    simp only [Text.isLine_append]
    exact ⟨⟨by decide, h⟩, by decide⟩

theorem FormFault.isLine_message {fault : FormFault}
    (h : ∀ text ∈ fault.quoted, Text.IsLine text) : Text.IsLine fault.message := by
  unfold message
  cases fault with
  | operandCount expected got =>
    simp only [Text.isLine_append, Text.isLine_toString, and_true]
    decide
  | noValue => decide
  | reported text => exact h text List.mem_cons_self
  | notAName text | unbracketedParameters text | duplicateParameter text =>
    simp only [Text.isLine_append, h text List.mem_cons_self, and_true]
    decide

theorem TypeFault.isLine_message {fault : TypeFault}
    (h : ∀ text ∈ fault.quoted, Text.IsLine text) : Text.IsLine fault.message := by
  unfold message
  cases fault with
  | argument operation expected kind shown =>
    obtain ⟨hoperation, hshown⟩ := List.forall_mem_cons.mp h
    simp only [Text.isLine_append, hoperation, expected.isLine_text, kind.isLine_name,
      hshown shown List.mem_cons_self, and_true, true_and]
    decide
  | notProcedure kind shown =>
    simp only [Text.isLine_append, kind.isLine_name, h shown List.mem_cons_self, and_true]
    decide
  | reported text => exact h text List.mem_cons_self

/-- An error that quotes lines is worded in one line. -/
theorem Error.QuotesLines.message {e : Error} (h : e.QuotesLines) : Text.IsLine e.message := by
  unfold Error.message
  cases e with
  | malformedForm form fault =>
    obtain ⟨hform, hfault⟩ := List.forall_mem_cons.mp h
    simp only [Text.isLine_append, hform, FormFault.isLine_message hfault, and_true]
    decide
  | arityMismatch expected got =>
    simp only [Text.isLine_append, expected.isLine_render, Text.isLine_toString, and_true]
    decide
  | invalidSubform fault =>
    have hfault := fault.isLine_message (h fault.quoted List.mem_cons_self)
    exact Text.isLine_append.mpr ⟨by decide, hfault⟩
  | typeMismatch fault =>
    exact Text.isLine_append.mpr ⟨by decide, TypeFault.isLine_message h⟩
  | depthExceeded limit =>
    simp only [Text.isLine_append, Text.isLine_toString, and_true]
    decide
  | unboundVariable text | redefinition text | noInterpretation text =>
    exact Text.isLine_append.mpr ⟨by decide, h text List.mem_cons_self⟩

end TextLisp
