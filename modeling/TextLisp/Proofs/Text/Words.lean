import TextLisp.Proofs.Text.Line

namespace TextLisp.Text

def wordChars (cs : List Char) : List (List Char) :=
  (cs.splitOnP isBlank).filter fun word => !word.isEmpty

def words (text : String) : List String :=
  (wordChars text.toList).map String.ofList

def IsWord (text : String) : Prop :=
  text ≠ "" ∧ ∀ c ∈ text.toList, isBlank c = false

theorem isWord_of_isAtom {text : String} (h : isAtom text = true) : IsWord text := by
  rw [← String.ofList_toList (s := text), isAtom_ofList] at h
  obtain ⟨hne, hall⟩ := h
  refine ⟨?_, fun c hc => not_isBlank_of_isAtomChar (hall c hc)⟩
  rintro rfl
  exact hne rfl

theorem IsWord.isLine {text : String} (h : IsWord text) : IsLine text := by
  intro hmem
  have hblank : isBlank '\n' = false := h.2 '\n' hmem
  revert hblank
  decide

@[simp] theorem wordChars_nil : wordChars [] = [] := by
  simp [wordChars]

theorem wordChars_cons_blank (cs : List Char) {c : Char} (h : isBlank c = true) :
    wordChars (c :: cs) = wordChars cs := by
  have hsplit := List.splitOnP_append_cons [] cs h
  rw [List.nil_append, List.splitOnP_nil] at hsplit
  simp [wordChars, hsplit]

/-- No word goes on where a blank follows. -/
theorem wordChars_append (before : List Char) {after : List Char}
    (h : ∀ c ∈ after.head?, isBlank c = true) :
    wordChars (before ++ after) = wordChars before ++ wordChars after := by
  cases after with
  | nil => simp
  | cons c after =>
    have hc : isBlank c = true := h c rfl
    rw [wordChars_cons_blank after hc, wordChars, List.splitOnP_append_cons before after hc,
      List.filter_append]
    rfl

theorem wordChars_of_isBlank {blanks : List Char} (h : ∀ c ∈ blanks, isBlank c = true) :
    wordChars blanks = [] := by
  induction blanks with
  | nil => rfl
  | cons c blanks ih =>
    obtain ⟨hc, hblanks⟩ := List.forall_mem_cons.mp h
    rw [wordChars_cons_blank blanks hc, ih hblanks]

theorem wordChars_append_blanks (cs : List Char) {blanks : List Char}
    (h : ∀ c ∈ blanks, isBlank c = true) : wordChars (cs ++ blanks) = wordChars cs := by
  have hhead : ∀ c ∈ blanks.head?, isBlank c = true :=
    fun c hc => h c (List.mem_of_mem_head? hc)
  rw [wordChars_append cs hhead, wordChars_of_isBlank h, List.append_nil]

theorem wordChars_dropBlankEnd (cs : List Char) : wordChars (dropBlankEnd cs) = wordChars cs := by
  obtain ⟨blanks, hsplit, hblank⟩ := exists_blanks_dropBlankEnd cs
  calc
    wordChars (dropBlankEnd cs) = wordChars (dropBlankEnd cs ++ blanks) :=
      (wordChars_append_blanks _ hblank).symm
    _ = wordChars cs := by rw [← hsplit]

theorem IsWord.wordChars_eq {text : String} (h : IsWord text) :
    wordChars text.toList = [text.toList] := by
  have hne : text.toList ≠ [] := by simpa using h.1
  rw [wordChars, List.splitOnP_eq_singleton h.2]
  simp [hne]

end TextLisp.Text
