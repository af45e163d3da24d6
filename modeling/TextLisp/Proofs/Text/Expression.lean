import TextLisp.Datum
import TextLisp.Keyword
import TextLisp.Proofs.Text.Balance
import TextLisp.Tree.Basic

namespace TextLisp

namespace Text

/-- A text that is one atom or one form, blanks around it aside. -/
def IsExpression (text : String) : Prop :=
  isAtom (trim text) = true ∨ ∃ siblings, splitForm text = .ok siblings

theorem toList_trim (text : String) : (trim text).toList = trimChars text.toList :=
  String.toList_ofList

theorem splitForm_trim (text : String) : splitForm (trim text) = splitForm text := by
  rw [splitForm, toList_trim, splitFormChars_trimChars]
  rfl

theorem splitForm_eq_ok {text : String} {siblings : List String} :
    splitForm text = .ok siblings ↔
      ∃ parts, splitFormChars text.toList = .ok parts ∧ siblings = parts.map String.ofList := by
  unfold splitForm
  split
  next parts hparts =>
    rw [hparts]
    constructor
    · intro h
      exact ⟨parts, rfl, (Except.ok.inj h).symm⟩
    · rintro ⟨parts', h, rfl⟩
      obtain rfl := Except.ok.inj h
      rfl
  next fault hfault =>
    rw [hfault]
    constructor
    · intro h
      cases h
    · rintro ⟨parts, h, -⟩
      cases h

/-- Siblings are slices without blanks around them. -/
theorem sibling_of_splitForm {text sibling : String} {siblings : List String}
    (h : splitForm text = .ok siblings) (hmem : sibling ∈ siblings) :
    trim sibling = sibling ∧ IsExpression sibling := by
  obtain ⟨parts, hparts, rfl⟩ := splitForm_eq_ok.mp h
  obtain ⟨part, hpart, rfl⟩ := List.mem_map.mp hmem
  have htrim (hself : trimChars part = part) :
      trim (String.ofList part) = String.ofList part := by
    rw [trim, String.toList_ofList, hself]
  -- Slices are cut out as characters: neither atoms nor balanced forms begin or end with a blank.
  obtain hatom | hbalanced := isAtomChars_or_isBalanced_of_mem_splitFormChars hparts hpart
  · have hself := htrim (trimChars_of_isAtomChars hatom)
    refine ⟨hself, Or.inl ?_⟩
    rw [hself]
    exact isAtom_ofList.mpr hatom
  · obtain ⟨inner, hinner⟩ := exists_splitFormChars_of_isBalanced hbalanced
    have hsplit : splitFormChars (String.ofList part).toList = .ok inner := by
      rw [String.toList_ofList, hinner]
    have hform := splitForm_eq_ok.mpr ⟨inner, hsplit, rfl⟩
    exact ⟨htrim (trimChars_of_isBalanced hbalanced), Or.inr ⟨_, hform⟩⟩

theorem isBracketed_iff {text : String} :
    isBracketed text = true ↔ ∃ inner, text.toList = '(' :: inner := by
  unfold isBracketed
  rw [beq_iff_eq, List.head?_eq_some_iff]

theorem isBracketed_trim {text : String} (h : isBracketed text = true) :
    isBracketed (trim text) = true := by
  obtain ⟨inner, hinner⟩ := isBracketed_iff.mp h
  rw [isBracketed_iff, toList_trim, hinner]
  exact exists_open_of_trimChars inner

theorem not_isBracketed_of_isAtom {text : String} (h : isAtom text = true) :
    isBracketed text = false := by
  rw [← String.ofList_toList (s := text), isAtom_ofList] at h
  apply Bool.eq_false_iff.mpr
  intro hbracketed
  obtain ⟨inner, hinner⟩ := isBracketed_iff.mp hbracketed
  exact h.ne_open inner hinner

theorem trim_of_isAtom {text : String} (h : isAtom text = true) : trim text = text := by
  rw [← String.ofList_toList (s := text), isAtom_ofList] at h
  rw [trim, trimChars_of_isAtomChars h, String.ofList_toList]

theorem isBracketed_trim_of_splitForm {text : String} {siblings : List String}
    (h : splitForm text = .ok siblings) : isBracketed (trim text) = true := by
  obtain ⟨parts, hparts, -⟩ := splitForm_eq_ok.mp h
  rw [isBracketed_iff, toList_trim]
  exact exists_open_of_splitFormChars hparts

theorem isExpression_iff_of_isBracketed {text : String} (h : isBracketed (trim text) = true) :
    IsExpression text ↔ ∃ siblings, splitForm text = .ok siblings := by
  constructor
  · rintro (hatom | hform)
    · rw [not_isBracketed_of_isAtom hatom] at h
      cases h
    · exact hform
  · exact Or.inr

theorem isExpression_iff_of_not_isBracketed {text : String} (h : isBracketed (trim text) = false) :
    IsExpression text ↔ isAtom (trim text) = true := by
  constructor
  · rintro (hatom | ⟨siblings, hform⟩)
    · exact hatom
    · rw [isBracketed_trim_of_splitForm hform] at h
      cases h
  · exact Or.inl

/-- What begins with a bracket is to be a form, and what does not is to be an atom. -/
theorem not_isExpression_iff {text : String} : ¬ IsExpression text ↔
    isBracketed (trim text) = true ∧ (∃ e, splitForm (trim text) = .error e) ∨
      isBracketed (trim text) = false ∧ isAtom (trim text) = false := by
  rw [splitForm_trim]
  cases hbracketed : isBracketed (trim text) with
  | true =>
    rw [isExpression_iff_of_isBracketed hbracketed]
    cases splitForm text <;> simp
  | false =>
    rw [isExpression_iff_of_not_isBracketed hbracketed]
    simp

end Text

/-- A traversal succeeds when each of its steps does. -/
theorem exists_mapM_eq_ok {ε α γ : Type} {f : α → Except ε γ} {xs : List α}
    (h : ∀ x ∈ xs, ∃ y, f x = .ok y) : ∃ ys, xs.mapM f = .ok ys := by
  induction xs with
  | nil => exact ⟨[], rfl⟩
  | cons x xs ih =>
    obtain ⟨y, hy⟩ := h x List.mem_cons_self
    obtain ⟨ys, hys⟩ := ih fun z hz => h z (List.mem_cons_of_mem x hz)
    exact ⟨y :: ys, by rw [List.mapM_cons, hy, hys]; rfl⟩

namespace Tree

open Text

theorem mapM_readDatum {texts : List (List Char)}
    (h : ∀ text ∈ texts, readDatum text = (ofChars text).map datum) :
    texts.mapM readDatum = (texts.mapM ofChars).map data := by
  induction texts with
  | nil => rfl
  | cons text texts ih =>
    have htext := h text List.mem_cons_self
    have htexts := ih fun other hmem => h other (List.mem_cons_of_mem text hmem)
    rw [List.mapM_cons, List.mapM_cons, htext, htexts]
    cases ofChars text with
    | error fault => rfl
    | ok tree => cases texts.mapM ofChars <;> rfl

/-- Data are what the tree of a text says, and faults are the same. -/
theorem readDatum_eq_map_ofChars (text : List Char) :
    readDatum text = (ofChars text).map datum := by
  induction hlength : text.length using Nat.strongRecOn generalizing text with
  | _ length ih =>
    subst hlength
    by_cases hopen : ∃ inner, trimChars text = '(' :: inner
    · obtain ⟨inner, hinner⟩ := hopen
      cases hsplit : splitFormChars text with
      | ok siblings =>
        have hsiblings := mapM_readDatum fun sibling hmem =>
          ih _ (length_lt_of_mem_splitFormChars hsplit hmem) sibling rfl
        rw [readDatum_of_form hinner hsplit, ofChars_of_form hinner hsplit, hsiblings]
        cases siblings.mapM ofChars <;> rfl
      | error fault =>
        rw [readDatum_of_fault hinner hsplit, ofChars_of_fault hinner hsplit]
        rfl
    · have hword : ∀ inner, trimChars text ≠ '(' :: inner := fun inner h => hopen ⟨inner, h⟩
      rw [readDatum_of_word hword, ofChars_of_word hword]
      split
      · change _ = Except.ok (datum (atom _))
        rw [datum]
        cases parseNumberExact (String.ofList (trimChars text)) <;> rfl
      · rfl

/-- Every expression has a tree. -/
theorem exists_ofChars {text : List Char}
    (h : IsAtomChars (trimChars text) ∨ ∃ siblings, splitFormChars text = .ok siblings) :
    ∃ tree, ofChars text = .ok tree := by
  induction hlength : text.length using Nat.strongRecOn generalizing text with
  | _ length ih =>
    subst hlength
    obtain hatom | ⟨siblings, hsplit⟩ := h
    · rw [ofChars_of_word hatom.ne_open, if_pos (isAtom_ofList.mpr hatom)]
      exact ⟨_, rfl⟩
    · obtain ⟨inner, hinner⟩ := exists_open_of_splitFormChars hsplit
      have hsiblings : ∀ sibling ∈ siblings, ∃ tree, ofChars sibling = .ok tree := by
        intro sibling hmem
        apply ih _ (length_lt_of_mem_splitFormChars hsplit hmem) _ rfl
        obtain hatom | hbalanced := isAtomChars_or_isBalanced_of_mem_splitFormChars hsplit hmem
        · exact Or.inl (by rwa [trimChars_of_isAtomChars hatom])
        · exact Or.inr (exists_splitFormChars_of_isBalanced hbalanced)
      obtain ⟨children, hchildren⟩ := exists_mapM_eq_ok hsiblings
      rw [ofChars_of_form hinner hsplit, hchildren]
      exact ⟨_, rfl⟩

theorem exists_read {text : String} (h : IsExpression text) : ∃ tree, read text = .ok tree := by
  apply exists_ofChars
  obtain hatom | ⟨siblings, hform⟩ := h
  · exact Or.inl (isAtom_ofList.mp hatom)
  · obtain ⟨parts, hparts, -⟩ := splitForm_eq_ok.mp hform
    exact Or.inr ⟨parts, hparts⟩

theorem datum_eq_map_read (text : String) :
    TextLisp.datum text = ((read text).map datum).mapError .invalidSubform := by
  rw [TextLisp.datum, readDatum_eq_map_ofChars]
  rfl

end Tree

def Closure.IsReadable (c : Closure) : Prop :=
  Text.IsExpression c.body ∧ ∃ names, parameterNames c.params = .ok names

end TextLisp
