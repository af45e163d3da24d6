import TextLisp.Proofs.Shell.Lines
import TextLisp.Proofs.Text.Words

namespace TextLisp.Shell

open Text

structure IsEntry (text : String) : Prop where
  indented : text.toList.head? = some ' '
  isLine : Text.IsLine text

theorem IsEntry.ne_empty {text : String} (h : IsEntry text) : text ≠ "" := by
  rintro rfl
  cases h.indented

theorem block_append (texts texts' : List String) :
    block (texts ++ texts') = block texts ++ block texts' := by
  simp [block]

theorem isBlank_space : isBlank ' ' = true := by decide

theorem isBlank_of_mem_replicate {count : Nat} {c : Char} (h : c ∈ List.replicate count ' ') :
    isBlank c = true := by
  obtain rfl := List.eq_of_mem_replicate h
  exact isBlank_space

theorem wordChars_cell {name : String} (h : IsWord name) :
    wordChars (cell name) = [name.toList] := by
  calc
    wordChars (cell name)
      = wordChars (name.toList ++ List.replicate (10 - name.length) ' ') := by
        rw [cell, List.cons_append, List.cons_append, wordChars_cons_blank _ isBlank_space,
          wordChars_cons_blank _ isBlank_space]
    _ = wordChars name.toList := wordChars_append_blanks _ fun _ => isBlank_of_mem_replicate
    _ = [name.toList] := h.wordChars_eq

/-- Cells keep their words apart, also those that are longer than a column: the next cell begins with
a blank. -/
theorem wordChars_cells {names : List String} (h : ∀ name ∈ names, IsWord name) :
    wordChars (names.flatMap cell) = names.map String.toList := by
  induction names with
  | nil => rfl
  | cons name names ih =>
    obtain ⟨hname, hnames⟩ := List.forall_mem_cons.mp h
    have hhead : ∀ c ∈ (names.flatMap cell).head?, isBlank c = true := by
      intro c hc
      cases names with
      | nil => cases hc
      | cons next names =>
        obtain rfl : ' ' = c := Option.some.inj hc
        exact isBlank_space
    rw [List.flatMap_cons, wordChars_append _ hhead, wordChars_cell hname, ih hnames]
    rfl

def rowText (names : List String) : String :=
  String.ofList (dropBlankEnd (names.flatMap cell))

/-- The words of a row are the names that it was made of. -/
theorem words_rowText {names : List String} (h : ∀ name ∈ names, IsWord name) :
    words (rowText names) = names := by
  rw [words, rowText, String.toList_ofList, wordChars_dropBlankEnd, wordChars_cells h, List.map_map]
  simp [Function.comp_def]

-- A name that is longer than its column stays apart from the next one.
example : words (rowText ["first-of-all-names", "f"]) = ["first-of-all-names", "f"] := by decide

theorem isEntry_rowText {names : List String} (hne : names ≠ [])
    (h : ∀ name ∈ names, IsWord name) : IsEntry (rowText names) := by
  constructor
  case isLine =>
    rw [rowText, isLine_ofList]
    intro hmem
    obtain ⟨name, hname, hcell⟩ := List.mem_flatMap.mp (dropBlankEnd_subset _ hmem)
    have hline : '\n' ∉ name.toList := (h name hname).isLine
    simp [cell, hline] at hcell
  case indented =>
    obtain ⟨blanks, hsplit, -⟩ := exists_blanks_dropBlankEnd (names.flatMap cell)
    cases hrow : dropBlankEnd (names.flatMap cell) with
    | nil =>
      have hwords : names = words (rowText names) := (words_rowText h).symm
      rw [rowText, hrow] at hwords
      exact absurd hwords hne
    | cons c cs =>
      obtain ⟨name, names, rfl⟩ := List.exists_cons_of_ne_nil hne
      rw [hrow] at hsplit
      obtain rfl : ' ' = c := (List.cons.inj hsplit).1
      rw [rowText, hrow, String.toList_ofList]
      rfl

/-- A row is printed as lines of which the words are its names. -/
theorem exists_row {names : List String} (hne : names ≠ [])
    (h : ∀ name ∈ names, IsWord name) :
    ∃ texts, row names = block texts ∧ (∀ text ∈ texts, IsEntry text) ∧
      texts.flatMap words = names := by
  refine ⟨[rowText names], ?_, ?_, ?_⟩
  · simp [block, row, rowText]
  · exact List.forall_mem_singleton.mpr (isEntry_rowText hne h)
  · simp [words_rowText h]

/-- The rows are lines of which the words are the names in their order. -/
theorem exists_rows {names : List String} (h : ∀ name ∈ names, IsWord name) :
    ∃ texts, rows names = block texts ∧ (∀ text ∈ texts, IsEntry text) ∧
      texts.flatMap words = names := by
  fun_induction rows names with
  | case1 a b c d rest ih =>
    have hsplit : a :: b :: c :: d :: rest = [a, b, c, d] ++ rest := rfl
    rw [hsplit] at h ⊢
    obtain ⟨hfirst, hrest⟩ := List.forall_mem_append.mp h
    obtain ⟨texts, hrow, hentry, hwords⟩ := exists_row (List.cons_ne_nil _ _) hfirst
    obtain ⟨texts', hrows, hentry', hwords'⟩ := ih hrest
    refine ⟨texts ++ texts', ?_, List.forall_mem_append.mpr ⟨hentry, hentry'⟩, ?_⟩
    · rw [hrow, hrows, block_append]
    · rw [List.flatMap_append, hwords, hwords']
  | case2 => exact ⟨[], rfl, List.forall_mem_nil _, rfl⟩
  | case3 names _ hne => exact exists_row hne h

end TextLisp.Shell
