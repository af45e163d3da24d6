import TextLisp.Proofs.Text.Atoms
import TextLisp.Text.Grammar

namespace TextLisp.Text

theorem tokenChars_open (cs : List Char) : tokenChars ('(' :: cs) = .opening :: tokenChars cs := by
  rw [tokenChars, if_pos rfl]

theorem tokenChars_close (cs : List Char) : tokenChars (')' :: cs) = .closing :: tokenChars cs := by
  rw [tokenChars, if_neg (by decide), if_pos rfl]

theorem tokenChars_blank {c : Char} (h : isBlank c = true) (cs : List Char) :
    tokenChars (c :: cs) = tokenChars cs := by
  obtain ⟨hopen, hclose⟩ := isPlain_of_isBlank (List.forall_mem_singleton.mpr h) c (by simp)
  rw [tokenChars, if_neg hopen, if_neg hclose, if_pos h]

theorem tokenChars_atomChar {c : Char} (h : isAtomChar c = true) (cs : List Char) :
    tokenChars (c :: cs) = .word (String.ofList (c :: cs.takeWhile isAtomChar)) ::
      tokenChars (cs.dropWhile isAtomChar) := by
  obtain ⟨hopen, hclose⟩ := isPlain_of_isAtomChar (List.forall_mem_singleton.mpr h) c (by simp)
  have hblank : ¬ isBlank c = true := Bool.eq_false_iff.mp (not_isBlank_of_isAtomChar h)
  rw [tokenChars, if_neg hopen, if_neg hclose, if_neg hblank]

theorem tokenChars_dropBlank (cs : List Char) : tokenChars (dropBlank cs) = tokenChars cs := by
  induction cs with
  | nil => rfl
  | cons c cs ih =>
    unfold dropBlank at ih ⊢
    rw [List.dropWhile_cons]
    split
    next hblank => rw [ih, tokenChars_blank hblank]
    · rfl

theorem tokenChars_of_isBlank {cs : List Char} (h : ∀ c ∈ cs, isBlank c = true) :
    tokenChars cs = [] := by
  rw [← tokenChars_dropBlank, dropBlank, List.dropWhile_eq_nil_iff.mpr h, tokenChars]

theorem tokenChars_of_isAtomChars {cs : List Char} (h : IsAtomChars cs) :
    tokenChars cs = [.word (String.ofList cs)] := by
  obtain ⟨hne, hall⟩ := h
  cases cs with
  | nil => exact absurd rfl hne
  | cons c cs =>
    have hcs : ∀ d ∈ cs, isAtomChar d = true := fun d hd => hall d (List.mem_cons_of_mem c hd)
    rw [tokenChars_atomChar (hall c List.mem_cons_self), List.takeWhile_eq_self_iff.mpr hcs,
      List.dropWhile_eq_nil_iff.mpr hcs, tokenChars]

theorem tokenChars_of_isAtom {text : String} (h : isAtom text = true) :
    tokenChars text.toList = [.word text] := by
  rw [← String.ofList_toList (s := text), isAtom_ofList] at h
  rw [tokenChars_of_isAtomChars h, String.ofList_toList]

theorem Meets.of_suffix {before after : List Char} (front : List Char)
    (h : Meets (front ++ before) after) : Meets before after := by
  intro a ha b hb
  apply h a _ b hb
  rw [List.getLast?_append, Option.mem_def.mp ha]
  rfl

/-- What follows an atom that ends here does not begin with a character of it. -/
theorem Meets.head_of_isAtomChars {before after : List Char} (h : Meets before after)
    (hbefore : IsAtomChars before) : ∀ b ∈ after.head?, isAtomChar b = false := by
  obtain ⟨hne, hall⟩ := hbefore
  intro b hb
  have hlast : before.getLast hne ∈ before.getLast? := List.getLast?_eq_some_getLast hne
  have hatom : isAtomChar (before.getLast hne) = true := hall _ (List.getLast_mem hne)
  exact Bool.eq_false_iff.mpr fun hb' => h _ hlast b hb ⟨hatom, hb'⟩

/-- A run that reaches the end of the first text does not go on in the second. -/
theorem Meets.run_append {c : Char} {cs after : List Char} (h : Meets (c :: cs) after)
    (hc : isAtomChar c = true) :
    (cs ++ after).takeWhile isAtomChar = cs.takeWhile isAtomChar ∧
      (cs ++ after).dropWhile isAtomChar = cs.dropWhile isAtomChar ++ after := by
  by_cases hall : ∀ d ∈ cs, isAtomChar d = true
  · have hhead : ∀ b ∈ after.head?, isAtomChar b = false :=
      h.head_of_isAtomChars ⟨List.cons_ne_nil c cs, List.forall_mem_cons.mpr ⟨hc, hall⟩⟩
    have hafter : after.takeWhile isAtomChar = [] ∧ after.dropWhile isAtomChar = after := by
      cases after with
      | nil => exact ⟨rfl, rfl⟩
      | cons b after =>
        have hb : ¬ isAtomChar b = true := Bool.eq_false_iff.mp (hhead b rfl)
        exact ⟨List.takeWhile_cons_of_neg hb, List.dropWhile_cons_of_neg hb⟩
    rw [List.takeWhile_append_of_pos hall, List.dropWhile_append_of_pos hall, hafter.1, hafter.2,
      List.append_nil, List.takeWhile_eq_self_iff.mpr hall, List.dropWhile_eq_nil_iff.mpr hall]
    exact ⟨rfl, rfl⟩
  · have hdrop : ¬ (cs.dropWhile isAtomChar).isEmpty = true := by
      rwa [List.isEmpty_iff, List.dropWhile_eq_nil_iff]
    have htake : ¬ (cs.takeWhile isAtomChar).length = cs.length := by
      intro hlength
      have hself := (List.takeWhile_prefix (l := cs) isAtomChar).eq_of_length hlength
      exact hall (List.takeWhile_eq_self_iff.mp hself)
    rw [List.takeWhile_append, if_neg htake, List.dropWhile_append, if_neg hdrop]
    exact ⟨rfl, rfl⟩

/-- Where texts meet at the end of a token, the tokens of both are those of the whole. -/
theorem tokenChars_append {before after : List Char} (h : Meets before after) :
    tokenChars (before ++ after) = tokenChars before ++ tokenChars after := by
  fun_induction tokenChars before with
  | case1 => rfl
  | case2 cs ih =>
    rw [List.cons_append, tokenChars_open, ih (h.of_suffix ['(']), List.cons_append]
  | case3 cs _ ih =>
    rw [List.cons_append, tokenChars_close, ih (h.of_suffix [')']), List.cons_append]
  | case4 c cs _ _ hblank ih =>
    rw [List.cons_append, tokenChars_blank hblank, ih (h.of_suffix [c])]
  | case5 c cs hopen hclose hblank ih =>
    have hatom : isAtomChar c = true := by simp [isAtomChar, hopen, hclose, hblank]
    obtain ⟨htake, hdrop⟩ := h.run_append hatom
    have hsplit : (c :: cs.takeWhile isAtomChar) ++ cs.dropWhile isAtomChar = c :: cs := by
      rw [List.cons_append, List.takeWhile_append_dropWhile]
    rw [← hsplit] at h
    rw [List.cons_append, tokenChars_atomChar hatom, htake, hdrop, ih (h.of_suffix _),
      List.cons_append]

theorem tokenChars_dropBlankEnd (cs : List Char) :
    tokenChars (dropBlankEnd cs) = tokenChars cs := by
  obtain ⟨blanks, hsplit, hblank⟩ := exists_blanks_dropBlankEnd cs
  have happend := tokenChars_append (meets_blanks hblank (dropBlankEnd cs))
  rw [← hsplit, tokenChars_of_isBlank hblank, List.append_nil] at happend
  exact happend.symm

/-- Blanks around a text are no part of its tokens. -/
theorem tokenChars_trimChars (cs : List Char) : tokenChars (trimChars cs) = tokenChars cs := by
  rw [trimChars, tokenChars_dropBlankEnd, tokenChars_dropBlank]

/-- What is left to read begins with the first token. -/
theorem tokenChars_of_dropBlank {cs rest : List Char} {c : Char} (h : dropBlank cs = c :: rest) :
    tokenChars cs =
      if c = '(' then .opening :: tokenChars rest
      else if c = ')' then .closing :: tokenChars rest
      else .word (String.ofList (c :: rest.takeWhile isAtomChar)) ::
        tokenChars (rest.dropWhile isAtomChar) := by
  have hblank : ¬ isBlank c = true := Bool.eq_false_iff.mp (isBlank_of_dropBlank h)
  rw [← tokenChars_dropBlank, h, tokenChars, if_neg hblank]

theorem dropBlank_eq_nil_of_tokenChars {cs : List Char} (h : tokenChars cs = []) :
    dropBlank cs = [] := by
  cases hdrop : dropBlank cs with
  | nil => rfl
  | cons c rest =>
    rw [tokenChars_of_dropBlank hdrop] at h
    split at h
    · cases h
    · split at h <;> cases h

theorem exists_dropBlank_of_tokenChars {cs : List Char} {token : Token} {ts : List Token}
    (h : tokenChars cs = token :: ts) : ∃ c rest, dropBlank cs = c :: rest := by
  rw [← tokenChars_dropBlank] at h
  cases hdrop : dropBlank cs with
  | nil =>
    rw [hdrop, tokenChars] at h
    cases h
  | cons c rest => exact ⟨c, rest, rfl⟩

/-- A text that begins with an opening bracket in tokens begins with one in characters. -/
theorem exists_open_of_tokenChars {cs : List Char} {ts : List Token}
    (h : tokenChars cs = .opening :: ts) :
    ∃ inner, trimChars cs = '(' :: inner ∧ tokenChars inner = ts := by
  obtain ⟨c, rest, hdrop⟩ := exists_dropBlank_of_tokenChars h
  have hopen : c = '(' := by
    rw [tokenChars_of_dropBlank hdrop] at h
    split at h
    next hopen => exact hopen
    · split at h <;> cases h
  subst hopen
  obtain ⟨inner, hinner⟩ := exists_open_of_trimChars rest
  have hself : dropBlank ('(' :: rest) = '(' :: rest :=
    List.dropWhile_cons_of_neg (Bool.eq_false_iff.mp isBlank_open)
  have htrim : trimChars cs = '(' :: inner := by
    rw [← hinner, trimChars, trimChars, hself, hdrop]
  rw [← tokenChars_trimChars, htrim, tokenChars_open] at h
  exact ⟨inner, htrim, (List.cons.inj h).2⟩

theorem dropBlankEnd_append {blanks : List Char} (h : ∀ c ∈ blanks, isBlank c = true)
    (cs : List Char) : dropBlankEnd (cs ++ blanks) = dropBlankEnd cs := by
  have hreverse : ∀ c ∈ blanks.reverse, isBlank c = true :=
    fun c hc => h c (List.mem_reverse.mp hc)
  rw [dropBlankEnd, List.reverse_append, List.dropWhile_append_of_pos hreverse, dropBlankEnd]

/-- A text of one word is an atom with blanks around it. -/
theorem isAtomChars_of_tokenChars {cs : List Char} {text : String}
    (h : tokenChars cs = [.word text]) :
    IsAtomChars (trimChars cs) ∧ String.ofList (trimChars cs) = text := by
  obtain ⟨c, rest, hdrop⟩ := exists_dropBlank_of_tokenChars h
  rw [tokenChars_of_dropBlank hdrop] at h
  split at h
  · cases h
  next hopen =>
    split at h
    · cases h
    next hclose =>
      have hatom : IsAtomChars (c :: rest.takeWhile isAtomChar) :=
        isAtomChars_cons_takeWhile (isBlank_of_dropBlank hdrop) hclose hopen
      have hblank : ∀ d ∈ rest.dropWhile isAtomChar, isBlank d = true :=
        List.dropWhile_eq_nil_iff.mp (dropBlank_eq_nil_of_tokenChars (List.cons.inj h).2)
      have hself : dropBlankEnd (c :: rest.takeWhile isAtomChar) =
          c :: rest.takeWhile isAtomChar := by
        have htrim := trimChars_of_isAtomChars hatom
        rwa [trimChars, dropBlank, List.dropWhile_cons_of_neg
          (Bool.eq_false_iff.mp (isBlank_of_dropBlank hdrop))] at htrim
      have hsplit : c :: rest = (c :: rest.takeWhile isAtomChar) ++ rest.dropWhile isAtomChar := by
        rw [List.cons_append, List.takeWhile_append_dropWhile]
      rw [trimChars, hdrop, hsplit, dropBlankEnd_append hblank, hself]
      exact ⟨hatom, Token.word.inj (List.cons.inj h).1⟩

/-- Siblings, and the bracket behind them, are what the tokens say. -/
theorem tokenChars_of_splitRest {inner rest tail : List Char} {siblings : List (List Char)}
    (h : splitRest inner rest = .ok (siblings, tail)) :
    tokenChars rest = siblings.flatMap tokenChars ++ .closing :: tokenChars tail := by
  fun_induction splitRest inner rest generalizing siblings tail with
  | case1 => cases h
  | case2 rest cs hrest =>
    cases h
    rw [← tokenChars_dropBlank, hrest, tokenChars_close]
    rfl
  | case3 => cases h
  | case4 rest cs form after hclosed hrest _ ih =>
    obtain ⟨split, hsplit, he⟩ := exists_of_map_eq_ok h
    obtain ⟨rfl, rfl⟩ := Prod.mk.inj he
    rw [← tokenChars_dropBlank, hrest, append_of_splitClosed hclosed, ← List.cons_append,
      tokenChars_append (meets_of_splitClosed hclosed), ih hsplit, List.flatMap_cons,
      List.append_assoc]
  | case5 rest c cs hrest hclose hopen ih =>
    obtain ⟨split, hsplit, he⟩ := exists_of_map_eq_ok h
    obtain ⟨rfl, rfl⟩ := Prod.mk.inj he
    rw [← tokenChars_dropBlank, hrest, ← List.takeWhile_append_dropWhile (p := isAtomChar) (l := cs),
      ← List.cons_append, tokenChars_append (meets_takeWhile c cs), ih hsplit, List.flatMap_cons,
      List.append_assoc, List.takeWhile_append_dropWhile]

/-- The tokens behind the bracket that closes a form. As in text, `nested` forms inside it are still
open. -/
def closeTokens (nested : Nat) : List Token → Option (List Token)
  | [] => none
  | .opening :: ts => closeTokens (nested + 1) ts
  | .closing :: ts =>
    match nested with
    | 0 => some ts
    | nested + 1 => closeTokens nested ts
  | .word _ :: ts => closeTokens nested ts

/-- The bracket matcher stops where the tokens say. -/
theorem closeTokens_tokenChars (nested : Nat) (cs : List Char) :
    closeTokens nested (tokenChars cs) =
      (splitClosed nested cs).map fun split => tokenChars split.2 := by
  fun_induction tokenChars cs generalizing nested with
  | case1 => rfl
  | case2 cs ih =>
    have hlevel : levelAfter nested '(' = some (nested + 1) := rfl
    rw [closeTokens, ih, splitClosed_cons_of_some hlevel, Option.map_map]
    rfl
  | case3 cs _ ih =>
    cases nested with
    | zero => rw [closeTokens, splitClosed_cons_of_none rfl, Option.map_some]
    | succ nested =>
      have hlevel : levelAfter (nested + 1) ')' = some nested := rfl
      rw [closeTokens, ih, splitClosed_cons_of_some hlevel, Option.map_map]
      rfl
  | case4 c cs hopen hclose _ ih =>
    rw [ih, splitClosed_cons_of_some (levelAfter_plain ⟨hopen, hclose⟩ nested), Option.map_map]
    rfl
  | case5 c cs hopen hclose hblank ih =>
    have hplain : IsPlain (c :: cs.takeWhile isAtomChar) :=
      isPlain_of_isAtomChar
        (isAtomChars_cons_takeWhile (Bool.eq_false_iff.mpr hblank) hclose hopen).2
    have hsplit : c :: cs = (c :: cs.takeWhile isAtomChar) ++ cs.dropWhile isAtomChar := by
      rw [List.cons_append, List.takeWhile_append_dropWhile]
    rw [closeTokens, ih, hsplit, splitClosed_plain_append hplain, Option.map_map]
    rfl

end TextLisp.Text
