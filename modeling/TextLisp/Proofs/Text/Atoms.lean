import TextLisp.Proofs.Text.Expression

namespace TextLisp.Text

/-- Two texts meet without an atom that goes on from the first to the second. -/
def Meets (before after : List Char) : Prop :=
  ∀ a ∈ before.getLast?, ∀ b ∈ after.head?, ¬ (isAtomChar a = true ∧ isAtomChar b = true)

/-- A slice of a text which cuts no atom in two. -/
def IsPiece (part text : List Char) : Prop :=
  ∃ before after, text = before ++ part ++ after ∧ Meets before part ∧ Meets part after

def HasAtom (word text : String) : Prop :=
  IsPiece word.toList text.toList

theorem meets_nil (cs : List Char) : Meets cs [] := by
  intro a _ b hb
  cases hb

theorem nil_meets (cs : List Char) : Meets [] cs := by
  intro a ha
  cases ha

theorem meets_of_getLast? {before after : List Char}
    (h : ∀ a ∈ before.getLast?, isAtomChar a = false) : Meets before after := by
  intro a ha b _ hatom
  rw [h a ha] at hatom
  cases hatom.1

theorem meets_of_head? {before after : List Char}
    (h : ∀ b ∈ after.head?, isAtomChar b = false) : Meets before after := by
  intro a _ b hb hatom
  rw [h b hb] at hatom
  cases hatom.2

theorem isAtomChar_of_isBlank {c : Char} (h : isBlank c = true) : isAtomChar c = false := by
  rw [isAtomChar, h]
  rfl

namespace IsPiece

theorem refl (text : List Char) : IsPiece text text :=
  ⟨[], [], (List.append_nil text).symm, nil_meets text, meets_nil text⟩

/-- The seams of the outer slice are seams of the inner one where the two begin or end together. -/
theorem trans {part slice text : List Char} (h : IsPiece part slice) (h' : IsPiece slice text) :
    IsPiece part text := by
  obtain ⟨before, after, rfl, hbefore, hafter⟩ := h
  obtain ⟨outer, rest, rfl, houter, hrest⟩ := h'
  refine ⟨outer ++ before, after ++ rest, by simp only [List.append_assoc], ?_, ?_⟩
  · intro a ha b hb
    cases hlast : before.getLast? with
    | some c =>
      rw [List.getLast?_append, hlast] at ha
      exact hbefore a (hlast.trans ha) b hb
    | none =>
      rw [List.getLast?_eq_none_iff] at hlast
      subst hlast
      rw [List.append_nil] at ha
      apply houter a ha b
      cases part with
      | nil => cases hb
      | cons c part => exact hb
  · intro a ha b hb
    cases after with
    | cons c after => exact hafter a ha b hb
    | nil =>
      apply hrest a _ b hb
      rw [List.append_nil, List.getLast?_append, Option.mem_def.mp ha]
      rfl

end IsPiece

theorem isPiece_left {before after : List Char} (h : Meets before after) :
    IsPiece before (before ++ after) :=
  ⟨[], after, rfl, nil_meets before, h⟩

theorem isPiece_right {before after : List Char} (h : Meets before after) :
    IsPiece after (before ++ after) :=
  ⟨before, [], (List.append_nil _).symm, h, meets_nil after⟩

theorem isPiece_dropBlank (text : List Char) : IsPiece (dropBlank text) text := by
  have hmeets : Meets (text.takeWhile isBlank) (dropBlank text) := by
    apply meets_of_getLast?
    intro a ha
    exact isAtomChar_of_isBlank (List.mem_takeWhile_imp (List.mem_of_getLast? ha))
  have hpiece := isPiece_right hmeets
  rwa [dropBlank, List.takeWhile_append_dropWhile] at hpiece

/-- What is trimmed off at the end is blank. -/
theorem exists_blanks_dropBlankEnd (text : List Char) :
    ∃ blanks, text = dropBlankEnd text ++ blanks ∧ ∀ c ∈ blanks, isBlank c = true := by
  refine ⟨(text.reverse.takeWhile isBlank).reverse, ?_, ?_⟩
  · rw [dropBlankEnd, ← List.reverse_append, List.takeWhile_append_dropWhile, List.reverse_reverse]
  · intro c hc
    exact List.mem_takeWhile_imp (List.mem_reverse.mp hc)

theorem meets_blanks {blanks : List Char} (h : ∀ c ∈ blanks, isBlank c = true)
    (before : List Char) : Meets before blanks := by
  apply meets_of_head?
  intro b hb
  exact isAtomChar_of_isBlank (h b (List.mem_of_mem_head? hb))

theorem isPiece_dropBlankEnd (text : List Char) : IsPiece (dropBlankEnd text) text := by
  obtain ⟨blanks, hsplit, hblank⟩ := exists_blanks_dropBlankEnd text
  have hpiece := isPiece_left (meets_blanks hblank (dropBlankEnd text))
  rwa [← hsplit] at hpiece

theorem isPiece_trimChars (text : List Char) : IsPiece (trimChars text) text :=
  (isPiece_dropBlankEnd _).trans (isPiece_dropBlank text)

theorem isAtomChar_close : isAtomChar ')' = false := by decide

theorem isAtomChar_open : isAtomChar '(' = false := by decide

theorem meets_of_splitClosed {cs form after : List Char}
    (h : splitClosed 0 cs = some (form, after)) : Meets ('(' :: form) after := by
  apply meets_of_getLast?
  intro a ha
  rw [List.getLast?_cons, getLast?_of_splitClosed h] at ha
  obtain rfl : ')' = a := Option.some.inj ha
  exact isAtomChar_close

theorem meets_takeWhile (c : Char) (cs : List Char) :
    Meets (c :: cs.takeWhile isAtomChar) (cs.dropWhile isAtomChar) := by
  apply meets_of_head?
  intro b hb
  have hnot := List.head?_dropWhile_not isAtomChar cs
  rw [Option.mem_def.mp hb] at hnot
  exact hnot

/-- Siblings are cut out at brackets and at the ends of atoms. -/
theorem isPiece_of_mem_splitRest {inner rest tail sibling : List Char}
    {siblings : List (List Char)} (h : splitRest inner rest = .ok (siblings, tail))
    (hmem : sibling ∈ siblings) : IsPiece sibling rest := by
  fun_induction splitRest inner rest generalizing siblings tail with
  | case1 => cases h
  | case2 =>
    cases h
    cases hmem
  | case3 => cases h
  | case4 rest cs form after hclosed hrest _ ih =>
    obtain ⟨split, hsplit, he⟩ := exists_of_map_eq_ok h
    obtain ⟨rfl, rfl⟩ := Prod.mk.inj he
    have hmeets := meets_of_splitClosed hclosed
    have hdrop := isPiece_dropBlank rest
    rw [hrest, append_of_splitClosed hclosed, ← List.cons_append] at hdrop
    obtain rfl | hmem := List.mem_cons.mp hmem
    · exact (isPiece_left hmeets).trans hdrop
    · exact (ih hsplit hmem).trans ((isPiece_right hmeets).trans hdrop)
  | case5 rest c cs hrest hclose hopen ih =>
    obtain ⟨split, hsplit, he⟩ := exists_of_map_eq_ok h
    obtain ⟨rfl, rfl⟩ := Prod.mk.inj he
    have hmeets := meets_takeWhile c cs
    have hdrop := isPiece_dropBlank rest
    rw [hrest, ← List.takeWhile_append_dropWhile (p := isAtomChar) (l := cs),
      ← List.cons_append] at hdrop
    obtain rfl | hmem := List.mem_cons.mp hmem
    · exact (isPiece_left hmeets).trans hdrop
    · exact (ih hsplit hmem).trans ((isPiece_right hmeets).trans hdrop)

theorem isPiece_of_mem_splitFormChars {text sibling : List Char} {siblings : List (List Char)}
    (h : splitFormChars text = .ok siblings) (hmem : sibling ∈ siblings) :
    IsPiece sibling text := by
  have htrim := isPiece_trimChars text
  unfold splitFormChars at h
  split at h
  next inner hinner =>
    have hmeets : Meets ['('] inner := by
      apply meets_of_getLast?
      rintro a ⟨⟩
      exact isAtomChar_open
    rw [hinner] at htrim
    split at h
    · cases h
    next split hsplit =>
      split at h
      · cases h
        exact (isPiece_of_mem_splitRest hsplit hmem).trans ((isPiece_right hmeets).trans htrim)
      · cases h
  · cases h

theorem HasAtom.of_trim {word text : String} (h : HasAtom word (trim text)) :
    HasAtom word text := by
  unfold HasAtom at h
  rw [toList_trim] at h
  exact h.trans (isPiece_trimChars _)

theorem HasAtom.of_sibling {word text sibling : String} {siblings : List String}
    (hsplit : splitForm text = .ok siblings) (hmem : sibling ∈ siblings)
    (h : HasAtom word sibling) : HasAtom word text := by
  obtain ⟨parts, hparts, rfl⟩ := splitForm_eq_ok.mp hsplit
  obtain ⟨part, hpart, rfl⟩ := List.mem_map.mp hmem
  unfold HasAtom at h
  rw [String.toList_ofList] at h
  exact h.trans (isPiece_of_mem_splitFormChars hparts hpart)

theorem hasAtom_self (word : String) : HasAtom word word :=
  IsPiece.refl _

/-- A text has the characters of its atoms. -/
theorem HasAtom.contains {word text : String} (h : HasAtom word text) {c : Char}
    (hc : word.toList.contains c = true) : text.toList.contains c = true := by
  obtain ⟨before, after, htext, -, -⟩ := h
  rw [List.contains_iff_mem] at hc ⊢
  rw [htext]
  exact List.mem_append_left after (List.mem_append_right before hc)

end TextLisp.Text
