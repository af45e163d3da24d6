import Mathlib
import TextLisp.Proofs.Evaluator.Invariant
import TextLisp.Proofs.Value.Line
import TextLisp.Session

namespace TextLisp

open Text

theorem Keyword.isLine_text (keyword : Keyword) : Text.IsLine keyword.text := by
  cases keyword <;> decide

/-- The siblings of a line are lines, and so is what a fault in it quotes. -/
theorem yields_splitForm_of_isLine {text : String} (h : Text.IsLine text) :
    Yields Error.QuotesLines (fun siblings => ∀ sibling ∈ siblings, IsLine sibling)
      (splitForm text) := by
  cases hsplit : splitForm text with
  | ok siblings => exact .ok fun sibling hmem => h.sibling hsplit hmem
  | error e =>
    unfold splitForm at hsplit
    split at hsplit
    · cases hsplit
    next fault hfault =>
      obtain rfl := Except.error.inj hsplit
      have hquoted : Text.IsLine fault.quoted := h.of_subset (quoted_subset_of_splitFormChars hfault)
      exact .error (List.forall_mem_singleton.mpr hquoted)

def lines : Invariant where
  text := Text.IsLine
  value := Value.IsLine
  error := Error.QuotesLines

theorem quotesLines_malformedForm (keyword : Keyword) {fault : FormFault}
    (h : ∀ text ∈ fault.quoted, Text.IsLine text) :
    (Error.malformedForm keyword.text fault).QuotesLines :=
  List.forall_mem_cons.mpr ⟨keyword.isLine_text, h⟩

theorem yields_parameterNames_of_isLine {params : String} (h : Text.IsLine params) :
    Yields Error.QuotesLines (fun names => parameterNames params = .ok names)
      (parameterNames params) := by
  have hquotes {text : String} (htext : Text.IsLine text) : ∀ t ∈ [text], Text.IsLine t :=
    List.forall_mem_singleton.mpr htext
  apply yields_parameterNames
  · exact quotesLines_malformedForm .lambda (hquotes h)
  · intro _
    apply (yields_splitForm_of_isLine h).mono (fun _ he => he)
    intro names hnames name hmem
    have hname := hquotes (hnames name hmem)
    exact ⟨quotesLines_malformedForm .lambda hname, quotesLines_malformedForm .lambda hname⟩

/-- No step of an evaluation puts a newline anywhere. -/
theorem isInductive_lines (host : Host) : lines.IsInductive host where
  form text htext _ := yields_splitForm_of_isLine htext.trim
  empty text htext := List.forall_mem_singleton.mpr htext.trim
  atom env s text hs htext _ := by
    have hquoted := List.forall_mem_singleton.mpr htext.trim
    apply yields_atomValue hs env .number hquoted
    · exact fun _ _ => hquoted
    -- The name may be that of an alias, which some line before has stored.
    · rintro name (rfl | hname)
      · exact hquoted
      · cases hname with
        | aliasTo h => exact List.forall_mem_singleton.mpr h
  operandCount keyword _ _ := quotesLines_malformedForm keyword (List.forall_mem_nil _)
  notAName keyword _ htext :=
    quotesLines_malformedForm keyword (List.forall_mem_singleton.mpr htext)
  noValue keyword := quotesLines_malformedForm keyword (List.forall_mem_nil _)
  redefinition _ hname := List.forall_mem_singleton.mpr hname
  unbound _ hname := List.forall_mem_singleton.mpr hname
  unspecified := .unspecified
  quoted _ htext := yields_readDatum_of_isLine htext
  parameters _ _ hparams hbody :=
    (yields_parameterNames_of_isLine hparams).mono (fun _ he => he)
      fun _ _ _ _ => .closure hparams hbody
  notProcedure _ hvalue := List.forall_mem_singleton.mpr hvalue.render
  arityMismatch _ _ _ := List.forall_mem_nil _
  primitive p args hp hargs := by
    cases hp with
    | primitive _ hbuiltin =>
      obtain ⟨operation, hoperation⟩ := hbuiltin
      rw [hoperation]
      exact operation.yields_apply isClosedUnderLists_isLine hargs
  closure c hc := by
    cases hc with
    | closure hparams hbody =>
      exact ⟨hbody, (yields_parameterNames_of_isLine hparams).mono (fun _ he => he)
        fun _ _ => trivial⟩

/-- Everything that is bound at the start is of one line. -/
theorem holds_lines_initial : lines.Holds Store.initial := by
  apply Store.holds_initialGlobals
  · intro operation
    exact .primitive operation.isLine_id ⟨operation, rfl⟩
  · simp only [constants, List.forall_mem_cons]
    exact ⟨.number _, .bool true, .bool false, .nil, List.forall_mem_nil _⟩
  · simp only [aliases, List.forall_mem_singleton]
    exact .aliasTo (by decide)

/-- A line leaves a store without newlines behind, and ends with a value without any or with an error
that quotes none. -/
theorem keeps_lines_evaluateLine (host : Host) (limit : Nat) {line : String}
    (h : Text.IsLine line) : lines.Keeps Value.IsLine (evaluateLine host limit line) :=
  Invariant.keeps_evaluate (isInductive_lines host) (Nat.zero_add limit)
    (List.forall_mem_nil _) Environment.empty h

end TextLisp
