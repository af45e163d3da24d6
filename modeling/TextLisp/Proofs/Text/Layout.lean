import Mathlib
import TextLisp.Proofs.Text.Tokens

/-! Layouts. The inside of a form is its siblings with blanks around them, and it is so in one way
only: splitting neither loses nor invents a character, and siblings with blanks between them are
split into those siblings again. -/
namespace TextLisp.Text

@[ext]
structure Placed where
  blanks : List Char
  sibling : List Char

def write (placed : List Placed) : List Char :=
  placed.flatMap fun p => p.blanks ++ p.sibling

structure Placed.IsWhole (p : Placed) : Prop where
  blank : ∀ c ∈ p.blanks, isBlank c = true
  sibling : IsAtomChars p.sibling ∨ IsBalanced p.sibling

/-- Two atoms have blanks between them. -/
def Placed.Apart (p q : Placed) : Prop :=
  IsAtomChars p.sibling → IsAtomChars q.sibling → q.blanks ≠ []

/-- Siblings in a row, and the blanks behind the last of them. -/
structure IsLayout (placed : List Placed) (last : List Char) : Prop where
  whole : ∀ p ∈ placed, p.IsWhole
  apart : placed.IsChain Placed.Apart
  last : ∀ c ∈ last, isBlank c = true

theorem write_cons (p : Placed) (placed : List Placed) (rest : List Char) :
    write (p :: placed) ++ rest = p.blanks ++ (p.sibling ++ (write placed ++ rest)) := by
  rw [write, List.flatMap_cons, List.append_assoc, List.append_assoc]
  rfl

theorem isLayout_cons_iff {p : Placed} {placed : List Placed} {last : List Char} :
    IsLayout (p :: placed) last ↔
      p.IsWhole ∧ (∀ q ∈ placed.head?, p.Apart q) ∧ IsLayout placed last := by
  constructor
  · rintro ⟨hwhole, hapart, hlast⟩
    obtain ⟨hp, hplaced⟩ := List.forall_mem_cons.mp hwhole
    obtain ⟨hhead, htail⟩ := List.isChain_cons.mp hapart
    exact ⟨hp, hhead, hplaced, htail, hlast⟩
  · rintro ⟨hp, hhead, hplaced, htail, hlast⟩
    exact ⟨List.forall_mem_cons.mpr ⟨hp, hplaced⟩, List.isChain_cons.mpr ⟨hhead, htail⟩, hlast⟩

/-- The sibling is what is left when the blanks are dropped. -/
theorem Placed.IsWhole.head_sibling {p : Placed} (h : p.IsWhole) :
    ∃ c cs, p.sibling = c :: cs ∧ isBlank c = false := by
  obtain ⟨hne, hall⟩ | ⟨form, hform, -⟩ := h.sibling
  · obtain ⟨c, cs, hcs⟩ := List.exists_cons_of_ne_nil hne
    exact ⟨c, cs, hcs, not_isBlank_of_isAtomChar (hall c (hcs ▸ List.mem_cons_self))⟩
  · exact ⟨'(', form, hform, isBlank_open⟩

/-- Blanks in front of a character that is not blank are a longest run. -/
theorem blanks_append {blanks : List Char} (h : ∀ c ∈ blanks, isBlank c = true) {c : Char}
    (hc : isBlank c = false) (cs : List Char) :
    (blanks ++ c :: cs).takeWhile isBlank = blanks ∧ dropBlank (blanks ++ c :: cs) = c :: cs := by
  have hstop : ¬ isBlank c = true := Bool.eq_false_iff.mp hc
  constructor
  · rw [List.takeWhile_append_of_pos h, List.takeWhile_cons_of_neg hstop, List.append_nil]
  · rw [dropBlank, List.dropWhile_append_of_pos h, List.dropWhile_cons_of_neg hstop]

/-- One round of the sibling loop. -/
theorem splitRest_of_dropBlank {rest cs : List Char} {c : Char} (h : dropBlank rest = c :: cs)
    (inner : List Char) : splitRest inner rest =
      if c = ')' then .ok ([], cs)
      else if c = '(' then
        match splitClosed 0 cs with
        | none => .error (.unterminated (excerpt (c :: cs)))
        | some (form, after) => (splitRest inner after).map (consFirst (c :: form))
      else
        (splitRest inner (cs.dropWhile isAtomChar)).map
          (consFirst (c :: cs.takeWhile isAtomChar)) := by
  rw [splitRest]
  split
  next hnil =>
    rw [h] at hnil
    cases hnil
  next hcons =>
    obtain ⟨rfl, rfl⟩ := List.cons.inj (h.symm.trans hcons)
    split
    · rfl
    · split
      · split <;> simp only [*]
      · rfl

/-- An atom ends where what is laid out behind it begins. -/
theorem meets_write {p : Placed} {placed : List Placed} {last : List Char}
    (h : IsLayout (p :: placed) last) (hatom : IsAtomChars p.sibling) (after : List Char) :
    Meets p.sibling (write placed ++ (last ++ ')' :: after)) := by
  obtain ⟨-, hhead, hlayout⟩ := isLayout_cons_iff.mp h
  apply meets_of_head?
  intro b hb
  cases placed with
  | nil =>
    cases last with
    | nil =>
      obtain rfl : ')' = b := Option.some.inj hb
      exact isAtomChar_close
    | cons d last =>
      obtain rfl : d = b := Option.some.inj hb
      exact isAtomChar_of_isBlank (hlayout.last d List.mem_cons_self)
  | cons q placed =>
    obtain ⟨hq, -⟩ := isLayout_cons_iff.mp hlayout
    rw [write_cons] at hb
    cases hblanks : q.blanks with
    | cons d blanks =>
      rw [hblanks] at hb
      obtain rfl : d = b := Option.some.inj hb
      exact isAtomChar_of_isBlank (hq.blank d (hblanks ▸ List.mem_cons_self))
    | nil =>
      obtain hatom' | ⟨form, hform, -⟩ := hq.sibling
      · exact absurd hblanks (hhead q rfl hatom hatom')
      · rw [hblanks, hform] at hb
        obtain rfl : '(' = b := Option.some.inj hb
        exact isAtomChar_open

/-- What is laid out is split into the siblings again. -/
theorem splitRest_write (inner : List Char) {placed : List Placed} {last : List Char}
    (h : IsLayout placed last) (after : List Char) :
    splitRest inner (write placed ++ (last ++ ')' :: after)) =
      .ok (placed.map Placed.sibling, after) := by
  induction placed with
  | nil =>
    have hdrop := (blanks_append h.last isBlank_close after).2
    rw [write, List.flatMap_nil, List.nil_append, splitRest_of_dropBlank hdrop, if_pos rfl,
      List.map_nil]
  | cons p placed ih =>
    obtain ⟨hp, -, hlayout⟩ := isLayout_cons_iff.mp h
    rw [write_cons, List.map_cons]
    obtain hatom | ⟨form, hform, hclosed⟩ := hp.sibling
    · have hmeets := meets_write h hatom after
      obtain ⟨c, cs, hcs⟩ := List.exists_cons_of_ne_nil hatom.1
      rw [hcs] at hatom hmeets ⊢
      obtain ⟨hc, hrun⟩ := List.forall_mem_cons.mp hatom.2
      obtain ⟨hopen, hclose⟩ := isPlain_of_isAtomChar hatom.2 c List.mem_cons_self
      have hdrop := (blanks_append hp.blank (not_isBlank_of_isAtomChar hc)
        (cs ++ (write placed ++ (last ++ ')' :: after)))).2
      obtain ⟨htake, hrest⟩ := hmeets.run_append hc
      rw [List.takeWhile_eq_self_iff.mpr hrun] at htake
      rw [List.dropWhile_eq_nil_iff.mpr hrun, List.nil_append] at hrest
      rw [List.cons_append, splitRest_of_dropBlank hdrop, if_neg hclose, if_neg hopen, htake, hrest,
        ih hlayout]
      rfl
    · rw [hform]
      have hdrop := (blanks_append hp.blank isBlank_open
        (form ++ (write placed ++ (last ++ ')' :: after)))).2
      rw [List.cons_append, splitRest_of_dropBlank hdrop, if_neg (by decide), if_pos rfl,
        splitClosed_append hclosed]
      simp only [ih hlayout]
      rfl

/-- What is split is laid out. -/
theorem exists_layout_of_splitRest {inner rest after : List Char} {siblings : List (List Char)}
    (h : splitRest inner rest = .ok (siblings, after)) :
    ∃ placed last, IsLayout placed last ∧ siblings = placed.map Placed.sibling ∧
      rest = write placed ++ (last ++ ')' :: after) := by
  have hblank (text : List Char) : ∀ c ∈ text.takeWhile isBlank, isBlank c = true :=
    fun _ hc => List.mem_takeWhile_imp hc
  have hsplit {text dropped : List Char} (hdrop : dropBlank text = dropped) :
      text = text.takeWhile isBlank ++ dropped := by
    rw [← hdrop]
    exact List.takeWhile_append_dropWhile.symm
  fun_induction splitRest inner rest generalizing siblings after with
  | case1 => cases h
  | case2 rest cs hrest =>
    obtain ⟨rfl, rfl⟩ := Prod.mk.inj (Except.ok.inj h)
    exact ⟨[], rest.takeWhile isBlank,
      ⟨List.forall_mem_nil _, List.IsChain.nil, hblank rest⟩, rfl, hsplit hrest⟩
  | case3 => cases h
  | case4 rest cs form next hclosed hrest _ ih =>
    obtain ⟨⟨siblings', after'⟩, hnext, he⟩ := exists_of_map_eq_ok h
    obtain ⟨rfl, rfl⟩ := Prod.mk.inj he
    obtain ⟨placed, last, hlayout, rfl, rfl⟩ := ih hnext
    have hbalanced : IsBalanced ('(' :: form) := isBalanced_of_splitClosed hclosed
    have hwhole : Placed.IsWhole ⟨rest.takeWhile isBlank, '(' :: form⟩ :=
      ⟨hblank rest, Or.inr hbalanced⟩
    refine ⟨⟨rest.takeWhile isBlank, '(' :: form⟩ :: placed, last,
      isLayout_cons_iff.mpr ⟨hwhole, ?_, hlayout⟩, rfl, ?_⟩
    · intro q _ hatom
      exact absurd rfl (hatom.ne_open form)
    · rw [write_cons, List.cons_append, ← append_of_splitClosed hclosed]
      exact hsplit hrest
  | case5 rest c cs hrest hclose hopen ih =>
    obtain ⟨⟨siblings', after'⟩, hnext, he⟩ := exists_of_map_eq_ok h
    obtain ⟨rfl, rfl⟩ := Prod.mk.inj he
    obtain ⟨placed, last, hlayout, rfl, hwrite⟩ := ih hnext
    have hatom : IsAtomChars (c :: cs.takeWhile isAtomChar) :=
      isAtomChars_cons_takeWhile (isBlank_of_dropBlank hrest) hclose hopen
    have hwhole : Placed.IsWhole ⟨rest.takeWhile isBlank, c :: cs.takeWhile isAtomChar⟩ :=
      ⟨hblank rest, Or.inl hatom⟩
    refine ⟨⟨rest.takeWhile isBlank, c :: cs.takeWhile isAtomChar⟩ :: placed, last,
      isLayout_cons_iff.mpr ⟨hwhole, ?_, hlayout⟩, rfl, ?_⟩
    · -- A second atom that touched the first would have been part of it.
      intro q hq _ hatom' hnil
      obtain ⟨placed, rfl⟩ : ∃ tail, placed = q :: tail := List.head?_eq_some_iff.mp hq
      obtain ⟨d, ds, hd⟩ := List.exists_cons_of_ne_nil hatom'.1
      have hhead : isAtomChar d = true := hatom'.2 d (hd ▸ List.mem_cons_self)
      have hmeets := (meets_takeWhile c cs).head_of_isAtomChars hatom d
      rw [hwrite, write_cons, hnil, hd] at hmeets
      rw [hmeets rfl] at hhead
      cases hhead
    · rw [write_cons, List.cons_append, ← hwrite, List.takeWhile_append_dropWhile]
      exact hsplit hrest

/-- Two layouts of one text with the same siblings have the same blanks. -/
theorem eq_of_write_eq {placed placed' : List Placed} {last last' after after' : List Char}
    (h : IsLayout placed last) (h' : IsLayout placed' last')
    (hsiblings : placed.map Placed.sibling = placed'.map Placed.sibling)
    (hwrite : write placed ++ (last ++ ')' :: after) =
      write placed' ++ (last' ++ ')' :: after')) :
    placed = placed' ∧ last = last' := by
  induction placed generalizing placed' with
  | nil =>
    obtain rfl := List.map_eq_nil_iff.mp hsiblings.symm
    have htake := congrArg (List.takeWhile isBlank) hwrite
    rw [write, List.flatMap_nil, List.nil_append, List.nil_append,
      (blanks_append h.last isBlank_close after).1,
      (blanks_append h'.last isBlank_close after').1] at htake
    exact ⟨rfl, htake⟩
  | cons p placed ih =>
    cases placed' with
    | nil => cases hsiblings
    | cons p' placed' =>
      obtain ⟨hp, -, hlayout⟩ := isLayout_cons_iff.mp h
      obtain ⟨hp', -, hlayout'⟩ := isLayout_cons_iff.mp h'
      obtain ⟨hsibling, hrest⟩ := List.cons.inj hsiblings
      obtain ⟨c, cs, hcs, hc⟩ := hp.head_sibling
      rw [write_cons, write_cons, ← hsibling] at hwrite
      -- Both begin with the longest run of blanks.
      have hblanks : p.blanks = p'.blanks := by
        have htake := congrArg (List.takeWhile isBlank) hwrite
        rw [hcs, List.cons_append, List.cons_append, (blanks_append hp.blank hc _).1,
          (blanks_append hp'.blank hc _).1] at htake
        exact htake
      rw [hblanks, List.append_cancel_left_eq, List.append_cancel_left_eq] at hwrite
      obtain ⟨rfl, rfl⟩ := ih hlayout hlayout' hrest hwrite
      obtain rfl : p = p' := Placed.ext hblanks hsibling
      exact ⟨rfl, rfl⟩

theorem splitSiblings_eq_ok {inner after : String} {siblings : List String} :
    splitSiblings inner = .ok (siblings, after) ↔
      ∃ parts, splitRest inner.toList inner.toList = .ok (parts, after.toList) ∧
        siblings = parts.map String.ofList := by
  unfold splitSiblings splitSiblingChars
  constructor
  · intro h
    split at h
    next parts rest hparts =>
      obtain ⟨rfl, rfl⟩ := Prod.mk.inj (Except.ok.inj h)
      rw [String.toList_ofList]
      exact ⟨parts, hparts, rfl⟩
    · cases h
  · rintro ⟨parts, hparts, rfl⟩
    simp only [hparts, String.ofList_toList]

/-- A form is split as it was laid out. -/
theorem splitForm_write {placed : List Placed} {last : List Char} (h : IsLayout placed last) :
    splitForm (String.ofList ('(' :: (write placed ++ (last ++ [')'])))) =
      .ok (placed.map fun p => String.ofList p.sibling) := by
  have htrim : trimChars ('(' :: (write placed ++ (last ++ [')']))) =
      '(' :: (write placed ++ (last ++ [')'])) := by
    apply trimChars_eq_self
    · rintro c ⟨⟩
      exact isBlank_open
    · intro c hc
      rw [← List.append_assoc, ← List.cons_append, List.getLast?_concat] at hc
      obtain rfl : ')' = c := Option.some.inj hc
      exact isBlank_close
  have hsplit : splitFormChars ('(' :: (write placed ++ (last ++ [')']))) =
      .ok (placed.map Placed.sibling) := by
    unfold splitFormChars splitSiblingChars
    rw [htrim]
    simp only [splitRest_write _ h []]
    rfl
  rw [splitForm, String.toList_ofList, hsplit]
  simp only [List.map_map]
  rfl

/-- Siblings with blanks between them are laid out. -/
theorem isLayout_of_blanks {placed : List Placed} (hwhole : ∀ p ∈ placed, p.IsWhole)
    (hblanks : ∀ p ∈ placed.tail, p.blanks ≠ []) : IsLayout placed [] := by
  refine ⟨hwhole, ?_, List.forall_mem_nil _⟩
  induction placed with
  | nil => exact List.IsChain.nil
  | cons p placed ih =>
    refine List.isChain_cons.mpr ⟨?_, ih (List.forall_mem_cons.mp hwhole).2 ?_⟩
    · intro q hq _ _
      exact hblanks q (List.mem_of_mem_head? hq)
    · intro q hq
      exact hblanks q (List.mem_of_mem_tail hq)

/-- What is split off is all of the text: the siblings, the blanks around them, the closing bracket
and the text behind it. There is but one such layout of a text. Atoms and forms that are written
with blanks between them are split into themselves, and each such form is split again. -/
theorem splitting_is_the_only_layout :
    (∀ (inner after : String) (siblings : List String),
      splitSiblings inner = .ok (siblings, after) ↔
        ∃ placed last, IsLayout placed last ∧
          siblings = placed.map (fun p => String.ofList p.sibling) ∧
          inner.toList = write placed ++ (last ++ ')' :: after.toList)) ∧
    (∀ (placed placed' : List Placed) (last last' after after' : List Char),
      IsLayout placed last → IsLayout placed' last' →
      write placed ++ (last ++ ')' :: after) = write placed' ++ (last' ++ ')' :: after') →
        placed = placed' ∧ last = last' ∧ after = after') ∧
    (∀ placed : List Placed, (∀ p ∈ placed, p.IsWhole) → (∀ p ∈ placed.tail, p.blanks ≠ []) →
      splitForm (String.ofList ('(' :: (write placed ++ [')']))) =
        .ok (placed.map fun p => String.ofList p.sibling)) ∧
    (∀ cs : List Char, IsAtomChars cs ↔ isAtom (String.ofList cs) = true) ∧
    (∀ cs : List Char, IsBalanced cs → ∃ siblings, splitForm (String.ofList cs) = .ok siblings) := by
  refine ⟨?_, ?_, ?_, fun cs => isAtom_ofList.symm, ?_⟩
  · intro inner after siblings
    rw [splitSiblings_eq_ok]
    constructor
    · rintro ⟨parts, hparts, rfl⟩
      obtain ⟨placed, last, hlayout, rfl, hwrite⟩ := exists_layout_of_splitRest hparts
      exact ⟨placed, last, hlayout, List.map_map, hwrite⟩
    · rintro ⟨placed, last, hlayout, rfl, hwrite⟩
      refine ⟨placed.map Placed.sibling, ?_, by rw [List.map_map]; rfl⟩
      rw [hwrite]
      exact splitRest_write _ hlayout after.toList
  · intro placed placed' last last' after after' h h' hwrite
    -- The loop gives one answer, which both layouts say.
    have hsplit := splitRest_write [] h after
    rw [hwrite, splitRest_write [] h' after'] at hsplit
    obtain ⟨hsiblings, rfl⟩ := Prod.mk.inj (Except.ok.inj hsplit)
    obtain ⟨rfl, rfl⟩ := eq_of_write_eq h h' hsiblings.symm hwrite
    exact ⟨rfl, rfl, rfl⟩
  · intro placed hwhole hblanks
    have hform := splitForm_write (isLayout_of_blanks hwhole hblanks)
    rwa [List.nil_append] at hform
  · intro cs h
    obtain ⟨parts, hparts⟩ := exists_splitFormChars_of_isBalanced h
    rw [← String.toList_ofList (l := cs)] at hparts
    exact ⟨_, splitForm_eq_ok.mpr ⟨parts, hparts, rfl⟩⟩

/-- Atoms that touch are one atom, and blanks of any kind keep siblings apart. -/
theorem touching_atoms_are_one_sibling :
    IsLayout [⟨[], ['a', 'b']⟩] [] ∧ ¬ IsLayout [⟨[], ['a']⟩, ⟨[], ['b']⟩] [] ∧
    splitForm "(f\t(g x)\ny)" = .ok ["f", "(g x)", "y"] ∧
    ∃ siblings, splitForm "(g x)" = .ok siblings := by
  have hatom {blanks : List Char} {c : Char} {cs : List Char}
      (h : (c :: cs).all isAtomChar = true) (hblanks : blanks.all isBlank = true) :
      Placed.IsWhole ⟨blanks, c :: cs⟩ :=
    ⟨List.all_eq_true.mp hblanks, Or.inl ⟨List.cons_ne_nil c cs, List.all_eq_true.mp h⟩⟩
  have hform : IsBalanced "(g x)".toList := ⟨"g x)".toList, by cbv, by cbv⟩
  have hone : IsLayout [⟨[], ['a', 'b']⟩] [] :=
    isLayout_of_blanks (List.forall_mem_singleton.mpr (hatom (by decide) rfl)) (by simp)
  refine ⟨hone, ?_, ?_, ?_⟩
  · intro htwo
    have hsame := splitting_is_the_only_layout.2.1 _ _ _ _ [] [] hone htwo rfl
    cases hsame.1
  · have hwhole : ∀ p ∈ [(⟨[], ['f']⟩ : Placed), ⟨['\t'], "(g x)".toList⟩, ⟨['\n'], ['y']⟩],
        p.IsWhole := by
      simp only [List.forall_mem_cons]
      have htab : ['\t'].all isBlank = true := by decide
      exact ⟨hatom (by decide) rfl, ⟨List.all_eq_true.mp htab, Or.inr hform⟩,
        hatom (by decide) (by decide), List.forall_mem_nil _⟩
    have hsplit := splitting_is_the_only_layout.2.2.1 _ hwhole (by simp)
    have hwrite : String.ofList ('(' :: (write [⟨[], ['f']⟩, ⟨['\t'], "(g x)".toList⟩,
        ⟨['\n'], ['y']⟩] ++ [')'])) = "(f\t(g x)\ny)" := by cbv
    rw [hwrite] at hsplit
    simpa using hsplit
  · have hsplit := splitting_is_the_only_layout.2.2.2.2 _ hform
    rwa [String.ofList_toList] at hsplit

end TextLisp.Text
