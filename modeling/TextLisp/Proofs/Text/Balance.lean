import Mathlib.Data.List.TakeWhile
import TextLisp.Text.Form

namespace TextLisp.Text

/-- A text in brackets that closes where it ends. -/
def IsBalanced (cs : List Char) : Prop :=
  ∃ inner, cs = '(' :: inner ∧ splitClosed 0 inner = some (inner, [])

def IsAtomChars (cs : List Char) : Prop :=
  cs ≠ [] ∧ ∀ c ∈ cs, isAtomChar c = true

/-- An atom is no form. -/
theorem IsAtomChars.ne_open {cs : List Char} (h : IsAtomChars cs) (inner : List Char) :
    cs ≠ '(' :: inner := by
  rintro rfl
  have hopen : isAtomChar '(' = true := h.2 '(' List.mem_cons_self
  exact absurd hopen (by decide)

theorem isAtom_ofList {cs : List Char} : isAtom (String.ofList cs) = true ↔ IsAtomChars cs := by
  simp [isAtom, IsAtomChars]

theorem isBlank_open : isBlank '(' = false := by decide

theorem isBlank_close : isBlank ')' = false := by decide

theorem not_isBlank_of_isAtomChar {c : Char} (h : isAtomChar c = true) : isBlank c = false := by
  simp only [isAtomChar, Bool.and_eq_true, Bool.not_eq_true'] at h
  exact h.1.1

def IsPlain (cs : List Char) : Prop :=
  ∀ c ∈ cs, c ≠ '(' ∧ c ≠ ')'

theorem isPlain_of_isAtomChar {cs : List Char} (h : ∀ c ∈ cs, isAtomChar c = true) :
    IsPlain cs := by
  intro c hc
  have hatom := h c hc
  simp only [isAtomChar, Bool.and_eq_true, bne_iff_ne] at hatom
  exact ⟨hatom.1.2, hatom.2⟩

theorem isPlain_of_isBlank {cs : List Char} (h : ∀ c ∈ cs, isBlank c = true) : IsPlain cs := by
  intro c hc
  have hblank := h c hc
  constructor <;> rintro rfl
  · simp [isBlank_open] at hblank
  · simp [isBlank_close] at hblank

def levelAfter (nested : Nat) (c : Char) : Option Nat :=
  if c = ')' then
    match nested with
    | 0 => none
    | nested + 1 => some nested
  else if c = '(' then some (nested + 1)
  else some nested

theorem levelAfter_plain {c : Char} (h : c ≠ '(' ∧ c ≠ ')') (nested : Nat) :
    levelAfter nested c = some nested := by
  unfold levelAfter
  rw [if_neg h.2, if_neg h.1]

theorem levelAfter_add_succ (opened nested : Nat) (c : Char) :
    levelAfter (opened + (nested + 1)) c =
      some ((levelAfter opened c).elim nested (· + (nested + 1))) := by
  unfold levelAfter
  split
  · cases opened with
    | zero => rw [Nat.zero_add]; rfl
    | succ opened => rw [Nat.succ_add]; rfl
  · split
    · rw [Option.elim_some, Nat.add_right_comm opened 1]
    · rfl

theorem eq_close_of_levelAfter {nested : Nat} {c : Char} (h : levelAfter nested c = none) :
    c = ')' := by
  unfold levelAfter at h
  split at h
  next hclose => exact hclose
  · split at h <;> cases h

theorem splitClosed_cons_of_none {nested : Nat} {c : Char} (h : levelAfter nested c = none)
    (cs : List Char) : splitClosed nested (c :: cs) = some ([c], cs) := by
  rw [splitClosed.eq_def]
  unfold levelAfter at h
  dsimp only
  split at h
  next hclose =>
    rw [if_pos hclose]
    cases nested with
    | zero => rfl
    | succ nested => cases h
  · split at h <;> cases h

/-- The bracket matcher steps from level to level. -/
theorem splitClosed_cons_of_some {nested level : Nat} {c : Char}
    (h : levelAfter nested c = some level) (cs : List Char) :
    splitClosed nested (c :: cs) = (splitClosed level cs).map (consFirst c) := by
  rw [splitClosed.eq_def]
  unfold levelAfter at h
  dsimp only
  split at h
  next hclose =>
    rw [if_pos hclose]
    cases nested with
    | zero => cases h
    | succ nested =>
      obtain rfl := Option.some.inj h
      rfl
  next hclose =>
    rw [if_neg hclose]
    split at h
    next hopen =>
      obtain rfl := Option.some.inj h
      rw [if_pos hopen]
    next hopen =>
      obtain rfl := Option.some.inj h
      rw [if_neg hopen]

/-- A match goes on behind its first character, or ends with it. -/
theorem splitClosed_cons_eq_some {nested : Nat} {c : Char} {cs form rest : List Char}
    (h : splitClosed nested (c :: cs) = some (form, rest)) :
    (levelAfter nested c = none ∧ form = [c] ∧ rest = cs) ∨
      ∃ level tail, levelAfter nested c = some level ∧ form = c :: tail ∧
        splitClosed level cs = some (tail, rest) := by
  cases hlevel : levelAfter nested c with
  | none =>
    rw [splitClosed_cons_of_none hlevel] at h
    obtain ⟨rfl, rfl⟩ := Prod.mk.inj (Option.some.inj h)
    exact Or.inl ⟨rfl, rfl, rfl⟩
  | some level =>
    rw [splitClosed_cons_of_some hlevel] at h
    obtain ⟨⟨tail, rest'⟩, hs, he⟩ := Option.map_eq_some_iff.mp h
    obtain ⟨rfl, rfl⟩ := Prod.mk.inj he
    exact Or.inr ⟨level, tail, rfl, rfl, hs⟩

/-- Brackets are all that the matcher looks at. -/
theorem splitClosed_plain_append {plain : List Char} (hplain : IsPlain plain) (nested : Nat)
    (cs : List Char) : splitClosed nested (plain ++ cs) =
      (splitClosed nested cs).map fun split => (plain ++ split.1, split.2) := by
  induction plain with
  | nil => simp
  | cons c plain ih =>
    have hc := hplain c List.mem_cons_self
    have hrest : IsPlain plain := fun d hd => hplain d (List.mem_cons_of_mem c hd)
    rw [List.cons_append, splitClosed_cons_of_some (levelAfter_plain hc nested), ih hrest,
      Option.map_map]
    rfl

/-- To close `nested + 1` forms and those inside them is to close the latter and then the others. -/
theorem splitClosed_add_succ {opened nested : Nat} {cs form rest : List Char}
    (h : splitClosed (opened + (nested + 1)) cs = some (form, rest)) :
    ∃ inner after outer, splitClosed opened cs = some (inner, after) ∧
      splitClosed nested after = some (outer, rest) ∧ form = inner ++ outer := by
  induction cs generalizing opened form with
  | nil => simp [splitClosed] at h
  | cons c cs ih =>
    obtain ⟨hnone, -⟩ | ⟨level, tail, hlevel, rfl, hs⟩ := splitClosed_cons_eq_some h
    · rw [levelAfter_add_succ] at hnone
      cases hnone
    rw [levelAfter_add_succ] at hlevel
    obtain rfl := Option.some.inj hlevel
    cases hopened : levelAfter opened c with
    | none =>
      rw [hopened] at hs
      exact ⟨[c], cs, tail, splitClosed_cons_of_none hopened cs, hs, rfl⟩
    | some opened' =>
      rw [hopened] at hs
      obtain ⟨inner, after, outer, hinner, houter, rfl⟩ := ih hs
      refine ⟨c :: inner, after, outer, ?_, houter, rfl⟩
      rw [splitClosed_cons_of_some hopened, hinner]
      rfl

/-- What follows the closing bracket plays no part. -/
theorem splitClosed_append {nested : Nat} {cs form rest : List Char}
    (h : splitClosed nested cs = some (form, rest)) (more : List Char) :
    splitClosed nested (form ++ more) = some (form, more) := by
  induction cs generalizing nested form with
  | nil => simp [splitClosed] at h
  | cons c cs ih =>
    obtain ⟨hnone, rfl, -⟩ | ⟨level, tail, hlevel, rfl, hs⟩ := splitClosed_cons_eq_some h
    · rw [List.singleton_append, splitClosed_cons_of_none hnone]
    · rw [List.cons_append, splitClosed_cons_of_some hlevel, ih hs]
      rfl

theorem getLast?_of_splitClosed {nested : Nat} {cs form rest : List Char}
    (h : splitClosed nested cs = some (form, rest)) : form.getLast? = some ')' := by
  induction cs generalizing nested form with
  | nil => simp [splitClosed] at h
  | cons c cs ih =>
    obtain ⟨hnone, rfl, -⟩ | ⟨level, tail, -, rfl, hs⟩ := splitClosed_cons_eq_some h
    · rw [eq_close_of_levelAfter hnone]
      rfl
    · rw [List.getLast?_cons, ih hs]
      rfl

theorem isBalanced_of_splitClosed {cs form rest : List Char}
    (h : splitClosed 0 cs = some (form, rest)) : IsBalanced ('(' :: form) := by
  have hself := splitClosed_append h []
  rw [List.append_nil] at hself
  exact ⟨form, rfl, hself⟩

theorem splitClosed_dropBlank {nested : Nat} {cs form rest : List Char}
    (h : splitClosed nested cs = some (form, rest)) :
    ∃ tail, splitClosed nested (dropBlank cs) = some (tail, rest) := by
  rw [← List.takeWhile_append_dropWhile (p := isBlank) (l := cs), splitClosed_plain_append
    (isPlain_of_isBlank fun _ hc => List.mem_takeWhile_imp hc)] at h
  obtain ⟨⟨tail, rest'⟩, hs, he⟩ := Option.map_eq_some_iff.mp h
  obtain ⟨-, rfl⟩ := Prod.mk.inj he
  exact ⟨tail, hs⟩

/-- To close the form around an opening bracket is to close the nested form first. -/
theorem splitClosed_open {cs form rest : List Char}
    (h : splitClosed 0 ('(' :: cs) = some (form, rest)) :
    ∃ inner after outer, splitClosed 0 cs = some (inner, after) ∧
      splitClosed 0 after = some (outer, rest) := by
  obtain ⟨hnone, -⟩ | ⟨level, tail, hlevel, -, hs⟩ := splitClosed_cons_eq_some h
  · cases hnone
  · obtain rfl : 1 = level := Option.some.inj hlevel
    have hs' : splitClosed (0 + (0 + 1)) cs = some (tail, rest) := hs
    obtain ⟨inner, after, outer, hinner, houter, -⟩ := splitClosed_add_succ hs'
    exact ⟨inner, after, outer, hinner, houter⟩

/-- The sibling loop gets through whatever the matcher gets through, and stops where it does. -/
theorem exists_splitRest_of_splitClosed (inner : List Char) {rest form after : List Char}
    (h : splitClosed 0 rest = some (form, after)) :
    ∃ siblings, splitRest inner rest = .ok (siblings, after) := by
  fun_induction splitRest inner rest generalizing form with
  -- Only blanks are left, and the matcher would not have come to an end.
  | case1 rest hrest =>
    obtain ⟨tail, hs⟩ := splitClosed_dropBlank h
    rw [hrest] at hs
    cases hs
  -- The closing bracket of the form itself.
  | case2 rest cs hrest =>
    obtain ⟨tail, hs⟩ := splitClosed_dropBlank h
    rw [hrest] at hs
    obtain ⟨-, rfl⟩ := Prod.mk.inj (Option.some.inj hs)
    exact ⟨[], rfl⟩
  -- A nested form that does not close, inside one that does.
  | case3 rest cs hclosed hrest _ =>
    obtain ⟨tail, hs⟩ := splitClosed_dropBlank h
    rw [hrest] at hs
    obtain ⟨nestedForm, next, outer, hnested, -⟩ := splitClosed_open hs
    rw [hclosed] at hnested
    cases hnested
  -- A nested form: what the matcher does behind it, it does on the level of the form around it.
  | case4 rest cs nestedForm next hclosed hrest _ ih =>
    obtain ⟨tail, hs⟩ := splitClosed_dropBlank h
    rw [hrest] at hs
    obtain ⟨nestedForm', next', outer, hnested, houter⟩ := splitClosed_open hs
    rw [hclosed] at hnested
    obtain ⟨rfl, rfl⟩ := Prod.mk.inj (Option.some.inj hnested)
    obtain ⟨siblings, hsiblings⟩ := ih houter
    refine ⟨('(' :: nestedForm) :: siblings, ?_⟩
    rw [hsiblings]
    rfl
  -- An atom, which the matcher passes over.
  | case5 rest c cs hrest hclose hopen ih =>
    obtain ⟨tail, hs⟩ := splitClosed_dropBlank h
    have hplain : IsPlain (c :: cs.takeWhile isAtomChar) := by
      intro d hd
      obtain rfl | hd := List.mem_cons.mp hd
      · exact ⟨hopen, hclose⟩
      · exact isPlain_of_isAtomChar (fun _ hc => List.mem_takeWhile_imp hc) d hd
    rw [hrest, ← List.takeWhile_append_dropWhile (p := isAtomChar) (l := cs), ← List.cons_append,
      splitClosed_plain_append hplain] at hs
    obtain ⟨⟨outer, after'⟩, houter, he⟩ := Option.map_eq_some_iff.mp hs
    obtain ⟨-, rfl⟩ := Prod.mk.inj he
    obtain ⟨siblings, hsiblings⟩ := ih houter
    refine ⟨(c :: cs.takeWhile isAtomChar) :: siblings, ?_⟩
    rw [hsiblings]
    rfl

theorem isAtomChars_cons_takeWhile {c : Char} {cs : List Char} (hblank : isBlank c = false)
    (hclose : c ≠ ')') (hopen : c ≠ '(') : IsAtomChars (c :: cs.takeWhile isAtomChar) := by
  refine ⟨List.cons_ne_nil _ _, ?_⟩
  intro d hd
  obtain rfl | hd := List.mem_cons.mp hd
  · simp [isAtomChar, hblank, hclose, hopen]
  · exact List.mem_takeWhile_imp hd

theorem isBlank_of_dropBlank {rest cs : List Char} {c : Char} (h : dropBlank rest = c :: cs) :
    isBlank c = false := by
  have hhead := List.head?_dropWhile_not isBlank rest
  have hdrop : rest.dropWhile isBlank = c :: cs := h
  rw [hdrop] at hhead
  exact hhead

theorem isAtomChars_or_isBalanced_of_mem_splitRest {inner rest tail sibling : List Char}
    {siblings : List (List Char)} (h : splitRest inner rest = .ok (siblings, tail))
    (hmem : sibling ∈ siblings) : IsAtomChars sibling ∨ IsBalanced sibling := by
  fun_induction splitRest inner rest generalizing siblings tail with
  | case1 => cases h
  | case2 =>
    cases h
    cases hmem
  | case3 => cases h
  | case4 rest cs form after hclosed hrest _ ih =>
    obtain ⟨split, hsplit, he⟩ := exists_of_map_eq_ok h
    obtain ⟨rfl, rfl⟩ := Prod.mk.inj he
    obtain rfl | hmem := List.mem_cons.mp hmem
    · exact Or.inr (isBalanced_of_splitClosed hclosed)
    · exact ih hsplit hmem
  | case5 rest c cs hrest hclose hopen ih =>
    obtain ⟨split, hsplit, he⟩ := exists_of_map_eq_ok h
    obtain ⟨rfl, rfl⟩ := Prod.mk.inj he
    obtain rfl | hmem := List.mem_cons.mp hmem
    · exact Or.inl (isAtomChars_cons_takeWhile (isBlank_of_dropBlank hrest) hclose hopen)
    · exact ih hsplit hmem

theorem trimChars_eq_self {cs : List Char} (hhead : ∀ c ∈ cs.head?, isBlank c = false)
    (hlast : ∀ c ∈ cs.getLast?, isBlank c = false) : trimChars cs = cs := by
  have hdrop {ds : List Char} (h : ∀ c ∈ ds.head?, isBlank c = false) :
      ds.dropWhile isBlank = ds := by
    cases ds with
    | nil => rfl
    | cons d ds => exact List.dropWhile_cons_of_neg (by simp [h d rfl])
  have hrev : cs.reverse.dropWhile isBlank = cs.reverse := by
    apply hdrop
    rw [List.head?_reverse]
    exact hlast
  rw [trimChars, dropBlank, hdrop hhead, dropBlankEnd, hrev, List.reverse_reverse]

theorem trimChars_of_isAtomChars {cs : List Char} (h : IsAtomChars cs) : trimChars cs = cs := by
  apply trimChars_eq_self
  · intro c hc
    exact not_isBlank_of_isAtomChar (h.2 c (List.mem_of_mem_head? hc))
  · intro c hc
    exact not_isBlank_of_isAtomChar (h.2 c (List.mem_of_getLast? hc))

theorem trimChars_of_isBalanced {cs : List Char} (h : IsBalanced cs) : trimChars cs = cs := by
  obtain ⟨inner, rfl, hclosed⟩ := h
  apply trimChars_eq_self
  · rintro c ⟨⟩
    exact isBlank_open
  · intro c hc
    rw [List.getLast?_cons, getLast?_of_splitClosed hclosed] at hc
    obtain rfl : ')' = c := Option.some.inj hc
    exact isBlank_close

/-- A bracket-matched slice always splits again. -/
theorem exists_splitFormChars_of_isBalanced {cs : List Char} (h : IsBalanced cs) :
    ∃ siblings, splitFormChars cs = .ok siblings := by
  have htrim := trimChars_of_isBalanced h
  obtain ⟨inner, rfl, hclosed⟩ := h
  obtain ⟨siblings, hsiblings⟩ := exists_splitRest_of_splitClosed inner hclosed
  refine ⟨siblings, ?_⟩
  unfold splitFormChars
  rw [htrim]
  -- The loop stops behind the closing bracket, and there the text ends.
  simp only [splitSiblingChars, hsiblings]
  rfl

theorem isAtomChars_or_isBalanced_of_mem_splitFormChars {text sibling : List Char}
    {siblings : List (List Char)} (h : splitFormChars text = .ok siblings)
    (hmem : sibling ∈ siblings) : IsAtomChars sibling ∨ IsBalanced sibling := by
  unfold splitFormChars at h
  split at h
  next inner _ =>
    split at h
    · cases h
    next split hsplit =>
      split at h
      · cases h
        exact isAtomChars_or_isBalanced_of_mem_splitRest hsplit hmem
      · cases h
  · cases h

theorem exists_open_of_splitFormChars {text : List Char} {siblings : List (List Char)}
    (h : splitFormChars text = .ok siblings) : ∃ inner, trimChars text = '(' :: inner := by
  unfold splitFormChars at h
  split at h
  next inner hinner => exact ⟨inner, hinner⟩
  · cases h

theorem exists_open_of_trimChars (inner : List Char) :
    ∃ rest, trimChars ('(' :: inner) = '(' :: rest := by
  have hdrop : dropBlank ('(' :: inner) = '(' :: inner :=
    List.dropWhile_cons_of_neg (by simp [isBlank_open])
  rw [trimChars, hdrop, dropBlankEnd, List.reverse_cons, List.dropWhile_append]
  split
  · exact ⟨[], by simp [isBlank_open]⟩
  · rw [List.reverse_append]
    exact ⟨_, rfl⟩

theorem isBlank_of_mem_getLast?_trimChars {cs : List Char} {c : Char}
    (h : c ∈ (trimChars cs).getLast?) : isBlank c = false := by
  rw [trimChars, dropBlankEnd, List.getLast?_reverse] at h
  have hnot := List.head?_dropWhile_not isBlank (dropBlank cs).reverse
  rw [Option.mem_def.mp h] at hnot
  exact hnot

theorem trimChars_trimChars (cs : List Char) : trimChars (trimChars cs) = trimChars cs := by
  have hhead : ∀ c ∈ (trimChars cs).head?, isBlank c = false := by
    intro c hc
    have hprefix : trimChars cs <+: dropBlank cs := by
      rw [← List.reverse_suffix, trimChars, dropBlankEnd, List.reverse_reverse]
      exact List.dropWhile_suffix isBlank
    obtain ⟨rest, hrest⟩ := hprefix
    cases htrim : trimChars cs with
    | nil => simp [htrim] at hc
    | cons d ds =>
      rw [htrim] at hc hrest
      obtain rfl : d = c := Option.some.inj hc
      exact isBlank_of_dropBlank hrest.symm
  exact trimChars_eq_self hhead fun c hc => isBlank_of_mem_getLast?_trimChars hc

theorem splitFormChars_trimChars (text : List Char) :
    splitFormChars (trimChars text) = splitFormChars text := by
  unfold splitFormChars
  rw [trimChars_trimChars]

end TextLisp.Text
