import Mathlib
import TextLisp.Proofs.Text.Atoms
import TextLisp.Text.Sibling

/-! Levels of nesting. The inside of a form ends where the level falls to zero, and it is the level
at the end of the text that says what is missing if it never does. -/
namespace TextLisp.Text

def level (start : Nat) (cs : List Char) : Int :=
  start + cs.count '(' - cs.count ')'

/-- The level is positive throughout the text. -/
def StaysOpen (start : Nat) (cs : List Char) : Prop :=
  ∀ front, front <+: cs → 0 < level start front

structure ClosesAt (start : Nat) (cs before after : List Char) : Prop where
  split : cs = before ++ ')' :: after
  opened : StaysOpen start before
  closed : level start (before ++ [')']) = 0

theorem level_nil (start : Nat) : level start [] = start := by
  simp [level]

theorem level_append (start : Nat) (cs ds : List Char) :
    level start (cs ++ ds) = level start cs + level 0 ds := by
  simp only [level, List.count_append]
  omega

/-- Characters are counted from the front as the bracket matcher counts them. -/
theorem level_cons {nested next : Nat} {c : Char} (h : levelAfter nested c = some next)
    (cs : List Char) : level (nested + 1) (c :: cs) = level (next + 1) cs := by
  have hne : ('(' : Char) ≠ ')' := by decide
  unfold levelAfter at h
  split at h
  next hclose =>
    cases nested with
    | zero => cases h
    | succ nested =>
      obtain rfl := Option.some.inj h
      simp only [level, hclose, List.count_cons_self, List.count_cons_of_ne hne.symm]
      omega
  next hclose =>
    split at h
    next hopen =>
      obtain rfl := Option.some.inj h
      simp only [level, hopen, List.count_cons_self, List.count_cons_of_ne hne]
      omega
    next hopen =>
      obtain rfl := Option.some.inj h
      simp only [level, List.count_cons_of_ne hopen, List.count_cons_of_ne hclose]

theorem level_of_levelAfter {nested : Nat} {c : Char} (h : levelAfter nested c = none) :
    level (nested + 1) [c] = 0 := by
  obtain rfl := eq_close_of_levelAfter h
  cases nested with
  | zero => rfl
  | succ nested => cases h

theorem level_of_isPlain {cs : List Char} (h : IsPlain cs) (start : Nat) :
    level start cs = start := by
  have hopen : cs.count '(' = 0 := List.count_eq_zero.mpr fun hmem => (h _ hmem).1 rfl
  have hclose : cs.count ')' = 0 := List.count_eq_zero.mpr fun hmem => (h _ hmem).2 rfl
  rw [level, hopen, hclose]
  omega

theorem staysOpen_nil (nested : Nat) : StaysOpen (nested + 1) [] := by
  intro front hfront
  rw [List.prefix_nil.mp hfront, level_nil]
  omega

theorem staysOpen_cons_iff {nested : Nat} {c : Char} {cs : List Char} :
    StaysOpen (nested + 1) (c :: cs) ↔
      ∃ next, levelAfter nested c = some next ∧ StaysOpen (next + 1) cs := by
  constructor
  · intro h
    cases hlevel : levelAfter nested c with
    | none =>
      have hzero := level_of_levelAfter hlevel
      have hpositive := h [c] ((List.prefix_cons_inj c).mpr List.nil_prefix)
      omega
    | some next =>
      refine ⟨next, rfl, ?_⟩
      intro front hfront
      have hpositive := h (c :: front) ((List.prefix_cons_inj c).mpr hfront)
      rwa [level_cons hlevel] at hpositive
  · rintro ⟨next, hlevel, h⟩ front hfront
    obtain rfl | ⟨rest, rfl, hrest⟩ := List.prefix_cons_iff.mp hfront
    · rw [level_nil]
      omega
    · rw [level_cons hlevel]
      exact h rest hrest

/-- The bracket matcher stops where the level falls to zero. -/
theorem closesAt_of_splitClosed {nested : Nat} {cs form after : List Char}
    (h : splitClosed nested cs = some (form, after)) :
    ∃ before, form = before ++ [')'] ∧ ClosesAt (nested + 1) cs before after := by
  induction cs generalizing nested form with
  | nil => cases h
  | cons c cs ih =>
    obtain ⟨hnone, rfl, rfl⟩ | ⟨next, tail, hlevel, rfl, hs⟩ := splitClosed_cons_eq_some h
    · obtain rfl := eq_close_of_levelAfter hnone
      exact ⟨[], rfl, rfl, staysOpen_nil nested, level_of_levelAfter hnone⟩
    · obtain ⟨before, rfl, rfl, hopened, hclosed⟩ := ih hs
      refine ⟨c :: before, rfl, rfl, staysOpen_cons_iff.mpr ⟨next, hlevel, hopened⟩, ?_⟩
      rw [List.cons_append, level_cons hlevel]
      exact hclosed

theorem splitClosed_of_closesAt {nested : Nat} {cs before after : List Char}
    (h : ClosesAt (nested + 1) cs before after) :
    splitClosed nested cs = some (before ++ [')'], after) := by
  obtain ⟨rfl, hopened, hclosed⟩ := h
  induction before generalizing nested with
  | nil =>
    obtain rfl : nested = 0 := by
      have hlevel : ((nested + 1 : Nat) : Int) - 1 = 0 := by
        simpa [level] using hclosed
      omega
    rfl
  | cons c before ih =>
    obtain ⟨next, hlevel, hopened⟩ := staysOpen_cons_iff.mp hopened
    rw [List.cons_append, level_cons hlevel] at hclosed
    rw [List.cons_append, splitClosed_cons_of_some hlevel, ih hopened hclosed]
    rfl

theorem splitClosed_eq_none_iff {nested : Nat} {cs : List Char} :
    splitClosed nested cs = none ↔ StaysOpen (nested + 1) cs := by
  induction cs generalizing nested with
  | nil => exact iff_of_true rfl (staysOpen_nil nested)
  | cons c cs ih =>
    rw [staysOpen_cons_iff]
    cases hlevel : levelAfter nested c with
    | none => simp [splitClosed_cons_of_none hlevel]
    | some next => simp [splitClosed_cons_of_some hlevel, ih]

/-- A text is closed at one place, or stays open. -/
theorem closesAt_or_staysOpen (nested : Nat) (cs : List Char) :
    (∃ before after, ClosesAt (nested + 1) cs before after) ∨ StaysOpen (nested + 1) cs := by
  cases h : splitClosed nested cs with
  | none => exact Or.inr (splitClosed_eq_none_iff.mp h)
  | some split =>
    obtain ⟨before, -, hcloses⟩ := closesAt_of_splitClosed h
    exact Or.inl ⟨before, split.2, hcloses⟩

theorem isBalanced_iff {cs : List Char} :
    IsBalanced cs ↔
      ∃ inner, cs = '(' :: (inner ++ [')']) ∧ ClosesAt 1 (inner ++ [')']) inner [] := by
  constructor
  · rintro ⟨form, rfl, hclosed⟩
    obtain ⟨inner, rfl, hcloses⟩ := closesAt_of_splitClosed hclosed
    exact ⟨inner, rfl, hcloses⟩
  · rintro ⟨inner, rfl, hcloses⟩
    exact ⟨inner ++ [')'], rfl, splitClosed_of_closesAt hcloses⟩

theorem level_append_of_eq_one {front : List Char} (h : level 1 front = 1) (rest : List Char) :
    level 1 (front ++ rest) = level 1 rest := by
  have hrest := level_append 1 [] rest
  rw [level_nil, List.nil_append] at hrest
  rw [level_append, h, hrest]
  rfl

/-- What is behind a text that ends on the level it began on. -/
theorem StaysOpen.of_append {front rest : List Char} (h : StaysOpen 1 (front ++ rest))
    (hlevel : level 1 front = 1) : StaysOpen 1 rest := by
  intro part hpart
  rw [← level_append_of_eq_one hlevel]
  exact h (front ++ part) ((List.prefix_append_right_inj front).mpr hpart)

/-- Blanks do not change the level. -/
theorem exists_blanks_dropBlank (rest : List Char) :
    ∃ blanks, rest = blanks ++ dropBlank rest ∧ level 1 blanks = 1 := by
  refine ⟨rest.takeWhile isBlank, List.takeWhile_append_dropWhile.symm, ?_⟩
  exact level_of_isPlain (isPlain_of_isBlank fun _ hc => List.mem_takeWhile_imp hc) 1

/-- Neither does a form that is closed. -/
theorem level_of_splitClosed {cs form after : List Char}
    (h : splitClosed 0 cs = some (form, after)) : level 1 ('(' :: form) = 1 := by
  obtain ⟨before, rfl, -, -, hclosed⟩ := closesAt_of_splitClosed h
  have hopen : levelAfter 0 '(' = some 1 := rfl
  rw [level_cons hopen]
  unfold level at hclosed ⊢
  omega

/-- What is missing where the level does not fall to zero: the bracket that closes the form itself,
or one that closes a nested form. -/
inductive Lacks (inner rest : List Char) : ReadFault → Prop where
  | outer (h : level 1 rest = 1) : Lacks inner rest (.unclosed (String.ofList (dropBlankEnd inner)))
  | nested {before tail : List Char} (split : rest = before ++ '(' :: tail)
      (outside : level 1 before = 1) (opened : StaysOpen 1 tail) :
      Lacks inner rest (.unterminated (excerpt ('(' :: tail)))

theorem Lacks.append_left {inner rest : List Char} {fault : ReadFault} (h : Lacks inner rest fault)
    {front : List Char} (hlevel : level 1 front = 1) : Lacks inner (front ++ rest) fault := by
  cases h with
  | outer hrest => exact .outer ((level_append_of_eq_one hlevel rest).trans hrest)
  | @nested before tail split outside opened =>
    have hsplit : front ++ rest = (front ++ before) ++ '(' :: tail := by
      rw [split, List.append_assoc]
    exact .nested hsplit ((level_append_of_eq_one hlevel before).trans outside) opened

/-- The sibling loop fails where the level does not fall to zero. -/
theorem splitRest_of_staysOpen (inner : List Char) {rest : List Char} (h : StaysOpen 1 rest) :
    ∃ fault, splitRest inner rest = .error fault ∧ Lacks inner rest fault := by
  obtain ⟨blanks, hblanks, hlevel⟩ := exists_blanks_dropBlank rest
  fun_induction splitRest inner rest generalizing blanks with
  | case1 rest hrest =>
    rw [hrest, List.append_nil] at hblanks
    exact ⟨_, rfl, .outer (hblanks ▸ hlevel)⟩
  | case2 rest cs hrest =>
    rw [hrest] at hblanks
    rw [hblanks] at h
    have hpositive := h.of_append hlevel [')'] ((List.prefix_cons_inj _).mpr List.nil_prefix)
    exact absurd hpositive (by decide)
  | case3 rest cs hnone hrest =>
    rw [hrest] at hblanks
    exact ⟨_, rfl, .nested hblanks hlevel (splitClosed_eq_none_iff.mp hnone)⟩
  | case4 rest cs form after hclosed hrest _ ih =>
    have hfront : level 1 (blanks ++ '(' :: form) = 1 :=
      (level_append_of_eq_one hlevel _).trans (level_of_splitClosed hclosed)
    rw [hrest, append_of_splitClosed hclosed, ← List.cons_append, ← List.append_assoc] at hblanks
    rw [hblanks] at h ⊢
    obtain ⟨next, hnext, hnextLevel⟩ := exists_blanks_dropBlank after
    obtain ⟨fault, hfault, hlacks⟩ := ih (h.of_append hfront) next hnext hnextLevel
    exact ⟨fault, by rw [hfault]; rfl, hlacks.append_left hfront⟩
  | case5 rest c cs hrest hclose hopen ih =>
    have hatom : IsAtomChars (c :: cs.takeWhile isAtomChar) :=
      isAtomChars_cons_takeWhile (isBlank_of_dropBlank hrest) hclose hopen
    have hfront : level 1 (blanks ++ c :: cs.takeWhile isAtomChar) = 1 :=
      (level_append_of_eq_one hlevel _).trans (level_of_isPlain (isPlain_of_isAtomChar hatom.2) 1)
    rw [hrest, ← List.takeWhile_append_dropWhile (p := isAtomChar) (l := cs), ← List.cons_append,
      ← List.append_assoc] at hblanks
    rw [hblanks] at h ⊢
    obtain ⟨next, hnext, hnextLevel⟩ := exists_blanks_dropBlank (cs.dropWhile isAtomChar)
    obtain ⟨fault, hfault, hlacks⟩ := ih (h.of_append hfront) next hnext hnextLevel
    exact ⟨fault, by rw [hfault]; rfl, hlacks.append_left hfront⟩

theorem isBlank_of_isLayoutChar {c : Char} (h : isLayoutChar c = true) : isBlank c = true := by
  simp only [isLayoutChar, Bool.or_eq_true, beq_iff_eq] at h
  obtain ((rfl | rfl) | rfl) | rfl := h <;> decide

theorem readSibling_open (cs : List Char) :
    readSibling ('(' :: cs) =
      match splitClosed 0 cs with
      | some (form, after) => .ok ('(' :: form, after)
      | none => .error (.unterminated ('(' :: cs)) := by
  rw [readSibling, List.dropWhile_cons_of_neg (by decide), readForm]
  cases splitClosed 0 cs <;> rfl

theorem readSibling_atomChar {c : Char} (h : isAtomChar c = true) (cs : List Char) :
    readSibling (c :: cs) = .ok (c :: cs.takeWhile isAtomChar, cs.dropWhile isAtomChar) := by
  have hlayout : ¬ isLayoutChar c = true := by
    intro hlayout
    rw [isAtomChar_of_isBlank (isBlank_of_isLayoutChar hlayout)] at h
    cases h
  have hform : readForm (c :: cs) = .error (.unexpected (c :: cs)) := by
    unfold readForm
    split
    next hopen =>
      rw [(List.cons.inj hopen).1] at h
      cases h
    · rfl
  rw [readSibling, List.dropWhile_cons_of_neg hlayout]
  simp only [hform]
  rw [readAtom, List.takeWhile_cons_of_pos h, List.dropWhile_cons_of_pos h]

theorem readRest_of_dropBlank {rest cs : List Char} {c : Char} (h : dropBlank rest = c :: cs)
    (inner : List Char) : readRest inner rest =
      if c = ')' then .ok ([], cs)
      else
        match readSibling (c :: cs) with
        | .error fault => .error fault.report
        | .ok (sibling, after) => (readRest inner after).map (consFirst sibling) := by
  rw [readRest]
  split
  next hnil =>
    rw [h] at hnil
    cases hnil
  next hcons =>
    obtain ⟨rfl, rfl⟩ := List.cons.inj (h.symm.trans hcons)
    split
    · rfl
    · split <;> simp only [*]

/-- To read siblings one at a time is to split at the matching brackets. -/
theorem readRest_eq_splitRest (inner rest : List Char) :
    readRest inner rest = splitRest inner rest := by
  fun_induction splitRest inner rest with
  | case1 rest hrest =>
    rw [readRest]
    split
    · rfl
    next hcons =>
      rw [hrest] at hcons
      cases hcons
  | case2 rest cs hrest => rw [readRest_of_dropBlank hrest, if_pos rfl]
  | case3 rest cs hnone hrest hclose =>
    rw [readRest_of_dropBlank hrest, if_neg hclose, readSibling_open, hnone]
    rfl
  | case4 rest cs form after hclosed hrest hclose ih =>
    rw [readRest_of_dropBlank hrest, if_neg hclose, readSibling_open, hclosed, ← ih]
  | case5 rest c cs hrest hclose hopen ih =>
    have hatom : IsAtomChars (c :: cs.takeWhile isAtomChar) :=
      isAtomChars_cons_takeWhile (isBlank_of_dropBlank hrest) hclose hopen
    rw [readRest_of_dropBlank hrest, if_neg hclose,
      readSibling_atomChar (hatom.2 c List.mem_cons_self), ← ih]

/-- Siblings are split off where the level falls to zero, and what is left is the text behind. -/
theorem splitSiblings_eq_ok_iff {inner after : String} :
    (∃ siblings, splitSiblings inner = .ok (siblings, after)) ↔
      ∃ before, ClosesAt 1 inner.toList before after.toList := by
  constructor
  · rintro ⟨siblings, h⟩
    unfold splitSiblings splitSiblingChars at h
    obtain ⟨before, rest, hcloses⟩ | hopened := closesAt_or_staysOpen 0 inner.toList
    · obtain ⟨parts, hparts⟩ :=
        exists_splitRest_of_splitClosed inner.toList (splitClosed_of_closesAt hcloses)
      rw [hparts] at h
      obtain ⟨-, rfl⟩ := Prod.mk.inj (Except.ok.inj h)
      rw [String.toList_ofList]
      exact ⟨before, hcloses⟩
    · obtain ⟨fault, hfault, -⟩ := splitRest_of_staysOpen inner.toList hopened
      rw [hfault] at h
      cases h
  · rintro ⟨before, hcloses⟩
    obtain ⟨parts, hparts⟩ :=
      exists_splitRest_of_splitClosed inner.toList (splitClosed_of_closesAt hcloses)
    refine ⟨parts.map String.ofList, ?_⟩
    unfold splitSiblings splitSiblingChars
    rw [hparts]
    simp only [String.ofList_toList]

theorem splitSiblings_of_staysOpen {inner : String} (h : StaysOpen 1 inner.toList) :
    ∃ fault, splitSiblings inner = .error (.invalidSubform fault) ∧
      Lacks inner.toList inner.toList fault := by
  obtain ⟨fault, hfault, hlacks⟩ := splitRest_of_staysOpen inner.toList h
  refine ⟨fault, ?_, hlacks⟩
  unfold splitSiblings splitSiblingChars
  rw [hfault]

theorem Lacks.level_pos {inner rest : List Char} {fault : ReadFault} (h : Lacks inner rest fault) :
    (level 1 rest = 1 ∧ fault = .unclosed (String.ofList (dropBlankEnd inner))) ∨
      (2 ≤ level 1 rest ∧ ∃ before tail, rest = before ++ '(' :: tail ∧ level 1 before = 1 ∧
        StaysOpen 1 tail ∧ fault = .unterminated (excerpt ('(' :: tail))) := by
  cases h with
  | outer h => exact Or.inl ⟨h, rfl⟩
  | @nested before tail split outside opened =>
    refine Or.inr ⟨?_, before, tail, split, outside, opened, rfl⟩
    have hopen : levelAfter 0 '(' = some 1 := rfl
    have hpositive := opened tail (List.prefix_refl tail)
    rw [split, level_append_of_eq_one outside, level_cons hopen]
    unfold level at hpositive ⊢
    omega

theorem readSiblings_eq_splitSiblings (inner : String) :
    readSiblings inner = splitSiblings inner := by
  rw [readSiblings, readRest_eq_splitRest]
  rfl

theorem splitSiblings_ne_reported (inner text : String) :
    splitSiblings inner ≠ .error (.invalidSubform (.reported text)) := by
  intro h
  obtain ⟨before, rest, hcloses⟩ | hopened := closesAt_or_staysOpen 0 inner.toList
  · rw [← String.toList_ofList (l := rest)] at hcloses
    obtain ⟨siblings, hok⟩ := splitSiblings_eq_ok_iff.mpr ⟨before, hcloses⟩
    rw [hok] at h
    cases h
  · obtain ⟨fault, hfault, hlacks⟩ := splitSiblings_of_staysOpen hopened
    rw [hfault] at h
    cases hlacks <;> cases h

/-- The bracket matcher stops at the same place. -/
theorem readForm_eq_ok_iff {inner form after : List Char} :
    readForm ('(' :: inner) = .ok (form, after) ↔
      ∃ before, form = '(' :: (before ++ [')']) ∧ ClosesAt 1 inner before after := by
  rw [readForm]
  constructor
  · intro h
    split at h
    next closing rest hclosed =>
      obtain ⟨rfl, rfl⟩ := Prod.mk.inj (Except.ok.inj h)
      obtain ⟨before, rfl, hcloses⟩ := closesAt_of_splitClosed hclosed
      exact ⟨before, rfl, hcloses⟩
    · cases h
  · rintro ⟨before, rfl, hcloses⟩
    rw [splitClosed_of_closesAt hcloses]

theorem isBlank_of_trimChars {cs : List Char} (h : trimChars cs = []) :
    ∀ c ∈ cs, isBlank c = true := by
  obtain ⟨blanks, hsplit, hblank⟩ := exists_blanks_dropBlankEnd (dropBlank cs)
  have hnone : dropBlankEnd (dropBlank cs) = [] := h
  rw [hnone, List.nil_append] at hsplit
  intro c hc
  rw [← List.takeWhile_append_dropWhile (p := isBlank) (l := cs), List.mem_append] at hc
  obtain hc | hc := hc
  · exact List.mem_takeWhile_imp hc
  · exact hblank c (hsplit ▸ hc)

/-- A text is a form when it is balanced, blanks around it aside. -/
theorem exists_splitForm_iff {text : String} :
    (∃ siblings, splitForm text = .ok siblings) ↔ IsBalanced (trim text).toList := by
  rw [toList_trim]
  constructor
  · rintro ⟨siblings, h⟩
    obtain ⟨parts, hparts, -⟩ := splitForm_eq_ok.mp h
    obtain ⟨inner, hinner⟩ := exists_open_of_splitFormChars hparts
    obtain ⟨before, rest, hcloses⟩ | hopened := closesAt_or_staysOpen 0 inner
    · have hclosed := splitClosed_of_closesAt hcloses
      obtain ⟨siblings', hsiblings⟩ := exists_splitRest_of_splitClosed inner hclosed
      unfold splitFormChars splitSiblingChars at hparts
      simp only [hinner, hsiblings] at hparts
      split at hparts
      next hnone =>
        -- The trimmed text does not end with a blank, so nothing is behind the closing bracket.
        cases hlast : rest.getLast? with
        | none =>
          obtain rfl := List.getLast?_eq_none_iff.mp hlast
          rw [hinner, append_of_splitClosed hclosed, List.append_nil]
          exact isBalanced_of_splitClosed hclosed
        | some c =>
          have hblank := isBlank_of_trimChars hnone c (List.mem_of_getLast? hlast)
          have hmem : c ∈ (trimChars text.toList).getLast? := by
            rw [hinner, append_of_splitClosed hclosed, ← List.cons_append, List.getLast?_append,
              hlast]
            rfl
          rw [isBlank_of_mem_getLast?_trimChars hmem] at hblank
          cases hblank
      · cases hparts
    · obtain ⟨fault, hfault, -⟩ := splitRest_of_staysOpen inner hopened
      unfold splitFormChars splitSiblingChars at hparts
      simp only [hinner, hfault] at hparts
      cases hparts
  · intro h
    obtain ⟨parts, hparts⟩ := exists_splitFormChars_of_isBalanced h
    rw [splitFormChars_trimChars] at hparts
    exact ⟨_, splitForm_eq_ok.mpr ⟨parts, hparts, rfl⟩⟩

/-- The inside of a form is split just when the level falls to zero behind it, and is left where it
does so for the first time, which is where the bracket matcher stops. Otherwise the level at the end
tells whether the form itself or a nested one is not closed, and siblings read one at a time fail
for no other reason. A text is one form just when it closes at its last character. -/
theorem siblings_end_at_level_zero :
    (∀ inner after : String,
      (∃ siblings, splitSiblings inner = .ok (siblings, after)) ↔
        ∃ before, ClosesAt 1 inner.toList before after.toList) ∧
    (∀ inner form after : List Char,
      readForm ('(' :: inner) = .ok (form, after) ↔
        ∃ before, form = '(' :: (before ++ [')']) ∧ ClosesAt 1 inner before after) ∧
    (∀ inner : String,
      (∃ before after, ClosesAt 1 inner.toList before after) ∨ StaysOpen 1 inner.toList) ∧
    (∀ inner : String, StaysOpen 1 inner.toList →
      level 1 inner.toList = 1 ∧
        splitSiblings inner = .error (.invalidSubform
          (.unclosed (String.ofList (dropBlankEnd inner.toList)))) ∨
      2 ≤ level 1 inner.toList ∧ ∃ before tail, inner.toList = before ++ '(' :: tail ∧
        level 1 before = 1 ∧ StaysOpen 1 tail ∧
        splitSiblings inner = .error (.invalidSubform (.unterminated (excerpt ('(' :: tail))))) ∧
    (∀ inner : String, readSiblings inner = splitSiblings inner ∧
      ∀ text, readSiblings inner ≠ .error (.invalidSubform (.reported text))) ∧
    (∀ text : String, (∃ siblings, splitForm text = .ok siblings) ↔
      ∃ inner, (trim text).toList = '(' :: (inner ++ [')']) ∧
        ClosesAt 1 (inner ++ [')']) inner []) := by
  refine ⟨fun _ _ => splitSiblings_eq_ok_iff, fun _ _ _ => readForm_eq_ok_iff,
    fun inner => closesAt_or_staysOpen 0 inner.toList, ?_, ?_, ?_⟩
  · intro inner hopened
    obtain ⟨fault, hfault, hlacks⟩ := splitSiblings_of_staysOpen hopened
    rw [hfault]
    obtain ⟨hlevel, rfl⟩ | ⟨hlevel, before, tail, hsplit, houtside, htail, rfl⟩ := hlacks.level_pos
    · exact Or.inl ⟨hlevel, rfl⟩
    · exact Or.inr ⟨hlevel, before, tail, hsplit, houtside, htail, rfl⟩
  · intro inner
    rw [readSiblings_eq_splitSiblings]
    exact ⟨rfl, splitSiblings_ne_reported inner⟩
  · intro text
    rw [exists_splitForm_iff, isBalanced_iff]

/-- Brackets that are closed inside do not end the form, and one that is not leaves it open. -/
theorem closed_and_open_texts_are_told_apart :
    (∃ siblings, splitSiblings "a (b) c) d" = .ok (siblings, " d")) ∧
    StaysOpen 1 "a (b (c) d".toList ∧
    ∃ before tail, "a (b (c) d".toList = before ++ '(' :: tail ∧ level 1 before = 1 ∧
      StaysOpen 1 tail ∧
      splitSiblings "a (b (c) d" =
        .error (.invalidSubform (.unterminated (excerpt ('(' :: tail)))) := by
  have hclosed : splitClosed 0 "a (b) c) d".toList = some ("a (b) c)".toList, " d".toList) := by
    cbv
  obtain ⟨before, -, hcloses⟩ := closesAt_of_splitClosed hclosed
  have hopened : StaysOpen 1 "a (b (c) d".toList := splitClosed_eq_none_iff.mp (by cbv)
  refine ⟨(siblings_end_at_level_zero.1 _ _).mpr ⟨before, hcloses⟩, hopened, ?_⟩
  obtain ⟨hone, -⟩ | ⟨-, hnested⟩ := siblings_end_at_level_zero.2.2.2.1 _ hopened
  · have htwo : level 1 "a (b (c) d".toList = 2 := by cbv
    rw [htwo] at hone
    cases hone
  · exact hnested

end TextLisp.Text
