import Mathlib
import TextLisp.Proofs.Text.Tokens
import TextLisp.Proofs.Tree.Spelling

/-! The reader follows the grammar. It never makes tokens, and splits each level of a form anew, but
it accepts the texts whose tokens are those of one datum, and gives the value of that datum. -/
namespace TextLisp

open Text

namespace Sexp

theorem tokens_ne_closing (e : Sexp) (ts ts' : List Token) : e.tokens ++ ts ≠ .closing :: ts' := by
  cases e with
  | word text =>
    rw [tokens]
    rintro ⟨⟩
  | list items =>
    rw [tokens]
    rintro ⟨⟩

mutual

/-- No tokens are derived in two ways, whatever follows them. -/
theorem eq_of_tokens_append : ∀ {e e' : Sexp} {ts ts' : List Token},
    e.tokens ++ ts = e'.tokens ++ ts' → e = e' ∧ ts = ts'
  | .word text, .word text', ts, ts', h => by
    rw [tokens, tokens] at h
    obtain ⟨hword, hrest⟩ := List.cons.inj h
    exact ⟨congrArg word (Token.word.inj hword), hrest⟩
  | .word text, .list items', ts, ts', h => by
    rw [tokens, tokens] at h
    cases h
  | .list items, .word text', ts, ts', h => by
    rw [tokens, tokens] at h
    cases h
  | .list items, .list items', ts, ts', h => by
    rw [tokens, tokens, List.cons_append, List.cons_append, List.append_assoc,
      List.append_assoc] at h
    obtain ⟨hitems, hrest⟩ := items_eq_of_tokens_append (List.cons.inj h).2
    exact ⟨congrArg list hitems, hrest⟩

theorem items_eq_of_tokens_append : ∀ {items items' : List Sexp} {ts ts' : List Token},
    itemTokens items ++ .closing :: ts = itemTokens items' ++ .closing :: ts' →
      items = items' ∧ ts = ts'
  | [], [], ts, ts', h => ⟨rfl, (List.cons.inj h).2⟩
  | [], item' :: items', ts, ts', h => by
    rw [itemTokens, itemTokens, List.append_assoc] at h
    exact absurd h.symm (tokens_ne_closing item' _ _)
  | item :: items, [], ts, ts', h => by
    rw [itemTokens, itemTokens, List.append_assoc] at h
    exact absurd h (tokens_ne_closing item _ _)
  | item :: items, item' :: items', ts, ts', h => by
    rw [itemTokens, itemTokens, List.append_assoc, List.append_assoc] at h
    obtain ⟨hitem, hrest⟩ := eq_of_tokens_append h
    obtain ⟨hitems, hrest⟩ := items_eq_of_tokens_append hrest
    exact ⟨by rw [hitem, hitems], hrest⟩

end

theorem tokens_injective {e e' : Sexp} (h : e.tokens = e'.tokens) : e = e' := by
  rw [← List.append_nil e.tokens, ← List.append_nil e'.tokens] at h
  exact (eq_of_tokens_append h).1

mutual

/-- The bracket matcher passes over a datum. -/
theorem closeTokens_tokens : ∀ (e : Sexp) (nested : Nat) (ts : List Token),
    closeTokens nested (e.tokens ++ ts) = closeTokens nested ts
  | .word text, nested, ts => by
    rw [tokens, List.singleton_append, closeTokens]
  | .list items, nested, ts => by
    rw [tokens, List.cons_append, closeTokens, List.append_assoc, closeTokens_itemTokens items,
      List.singleton_append, closeTokens]

theorem closeTokens_itemTokens : ∀ (items : List Sexp) (nested : Nat) (ts : List Token),
    closeTokens nested (itemTokens items ++ ts) = closeTokens nested ts
  | [], nested, ts => by rw [itemTokens, List.nil_append]
  | item :: items, nested, ts => by
    rw [itemTokens, List.append_assoc, closeTokens_tokens item, closeTokens_itemTokens items]

end

/-- The derivation is one of the tokens of the text, and the value is the one that is meant. -/
def Derives (e : Sexp) (text : List Char) (value : Value) : Prop :=
  e.tokens = tokenChars text ∧ e.value = value

theorem exists_items_of_derives {texts : List (List Char)} {vs : List Value}
    (h : List.Forall₂ (fun text v => ∃ e : Sexp, e.Derives text v) texts vs) :
    ∃ items, itemTokens items = texts.flatMap tokenChars ∧ values items = vs := by
  induction h with
  | nil => exact ⟨[], rfl, rfl⟩
  | cons hhead _ ih =>
    obtain ⟨e, htokens, hvalue⟩ := hhead
    obtain ⟨items, hitems, hvalues⟩ := ih
    refine ⟨e :: items, ?_, ?_⟩
    · rw [itemTokens, htokens, hitems, List.flatMap_cons]
    · rw [values, hvalue, hvalues]

end Sexp

namespace Text

/-- A form has the tokens of its siblings between brackets. -/
theorem tokenChars_of_splitFormChars {text : List Char} {siblings : List (List Char)}
    (h : splitFormChars text = .ok siblings) :
    tokenChars text = .opening :: (siblings.flatMap tokenChars ++ [.closing]) := by
  unfold splitFormChars at h
  split at h
  next inner hinner =>
    split at h
    · cases h
    next split hsplit =>
      split at h
      next hnone =>
        cases h
        have hrest := tokenChars_trimChars split
        rw [hnone, tokenChars] at hrest
        rw [← tokenChars_trimChars, hinner, tokenChars_open, tokenChars_of_splitRest hsplit, hrest]
      · cases h
  · cases h

/-- A text that begins with a bracket and has the tokens of a list is a form. -/
theorem exists_splitFormChars_of_tokenChars {text : List Char} {items : List Sexp}
    (h : tokenChars text = (Sexp.list items).tokens) :
    ∃ siblings, splitFormChars text = .ok siblings := by
  rw [Sexp.tokens] at h
  obtain ⟨inner, hinner, htokens⟩ := exists_open_of_tokenChars h
  have hclose : closeTokens 0 (tokenChars inner) = some [] := by
    rw [htokens, Sexp.closeTokens_itemTokens, closeTokens]
  rw [closeTokens_tokenChars, Option.map_eq_some_iff] at hclose
  obtain ⟨⟨form, rest⟩, hclosed, hrest⟩ := hclose
  obtain ⟨siblings, hsiblings⟩ := exists_splitRest_of_splitClosed inner hclosed
  have hnone : trimChars rest = [] := by
    rw [trimChars, dropBlank_eq_nil_of_tokenChars hrest]
    rfl
  refine ⟨siblings, ?_⟩
  unfold splitFormChars
  rw [hinner]
  simp only [splitSiblingChars, hsiblings]
  rw [if_pos hnone]

end Text

/-- What is read is derived by the grammar. -/
theorem exists_derives_of_readDatum {text : List Char} {v : Value} (h : readDatum text = .ok v) :
    ∃ e : Sexp, e.Derives text v := by
  induction hlength : text.length using Nat.strongRecOn generalizing text v with
  | _ length ih =>
    subst hlength
    by_cases hopen : ∃ inner, trimChars text = '(' :: inner
    · obtain ⟨inner, hinner⟩ := hopen
      cases hsplit : splitFormChars text with
      | error fault =>
        rw [readDatum_of_fault hinner hsplit] at h
        cases h
      | ok siblings =>
        rw [readDatum_of_form hinner hsplit] at h
        obtain ⟨vs, hvs, rfl⟩ := exists_of_map_eq_ok h
        have hread := forall₂_of_mapM_eq_ok hvs
        have hsiblings : List.Forall₂ (fun sibling v => ∃ e : Sexp, e.Derives sibling v)
            siblings vs := by
          have hshorter : ∀ sibling ∈ siblings, sibling.length < text.length :=
            fun sibling hmem => length_lt_of_mem_splitFormChars hsplit hmem
          apply ((List.forall₂_and_left _ _).mpr ⟨hshorter, hread⟩).imp
          rintro sibling v ⟨hlt, hv⟩
          exact ih _ hlt hv rfl
        obtain ⟨items, htokens, hvalues⟩ := Sexp.exists_items_of_derives hsiblings
        refine ⟨.list items, ?_, ?_⟩
        · rw [Sexp.tokens, htokens, tokenChars_of_splitFormChars hsplit]
        · rw [Sexp.value, hvalues]
    · have hword : ∀ inner, trimChars text ≠ '(' :: inner := fun inner h => hopen ⟨inner, h⟩
      rw [readDatum_of_word hword] at h
      split at h
      next hatom =>
        refine ⟨.word (String.ofList (trimChars text)), ?_, ?_⟩
        · rw [Sexp.tokens, ← tokenChars_trimChars,
            tokenChars_of_isAtomChars (isAtom_ofList.mp hatom)]
        · rw [Sexp.value]
          generalize parseNumberExact (String.ofList (trimChars text)) = numeral at h ⊢
          cases numeral <;> exact Except.ok.inj h
      · cases h

/-- What the grammar derives is read. -/
theorem readDatum_of_tokens {text : List Char} {e : Sexp} (h : e.tokens = tokenChars text) :
    readDatum text = .ok e.value := by
  have htree : ∃ tree, Tree.ofChars text = .ok tree := by
    apply Tree.exists_ofChars
    cases e with
    | word word => exact Or.inl (isAtomChars_of_tokenChars h.symm).1
    | list items => exact Or.inr (exists_splitFormChars_of_tokenChars h.symm)
  obtain ⟨tree, htree⟩ := htree
  have hread : readDatum text = .ok tree.datum := by
    rw [Tree.readDatum_eq_map_ofChars, htree]
    rfl
  -- The text is read as something, and there is but one derivation.
  obtain ⟨e', htokens, hvalue⟩ := exists_derives_of_readDatum hread
  obtain rfl := Sexp.tokens_injective (h.trans htokens.symm)
  rw [hread, hvalue]

/-- A text is read as data just when its tokens are those of one datum, and then as the value of
that datum, numerals as numbers and other words as symbols. Any other text is refused. -/
theorem reading_follows_grammar (text : String) :
    ((∃ value, datum text = .ok value) ↔ ∃ e : Sexp, e.tokens = tokens text) ∧
    (∀ e : Sexp, e.tokens = tokens text → datum text = .ok e.value) ∧
    ((¬ ∃ e : Sexp, e.tokens = tokens text) →
      ∃ fault, datum text = .error (.invalidSubform fault)) := by
  have haccept (e : Sexp) (h : e.tokens = tokens text) : datum text = .ok e.value := by
    rw [datum, readDatum_of_tokens h]
    rfl
  have hderive : (∃ value, datum text = .ok value) → ∃ e : Sexp, e.tokens = tokens text := by
    rintro ⟨value, h⟩
    unfold datum at h
    cases hread : readDatum text.toList with
    | error fault =>
      rw [hread] at h
      cases h
    | ok v =>
      obtain ⟨e, htokens, -⟩ := exists_derives_of_readDatum hread
      exact ⟨e, htokens⟩
  have hread : (∃ e : Sexp, e.tokens = tokens text) → ∃ value, datum text = .ok value := by
    rintro ⟨e, h⟩
    exact ⟨e.value, haccept e h⟩
  refine ⟨⟨hderive, hread⟩, haccept, ?_⟩
  intro hnone
  unfold datum at hderive ⊢
  cases hread : readDatum text.toList with
  | error fault => exact ⟨fault, rfl⟩
  | ok v => exact absurd (hderive ⟨v, by rw [hread]; rfl⟩) hnone

/-- Brackets need no blanks around them. -/
theorem nested_list_follows_grammar :
    datum " (a(b) ())" = .ok (.list [.symbol "a", .list [.symbol "b"], .list []]) := by
  have hread := (reading_follows_grammar " (a(b) ())").2.1
    (.list [.word "a", .list [.word "b"], .list []]) (by cbv)
  have ha : parseNumberExact "a" = none := by cbv
  have hb : parseNumberExact "b" = none := by cbv
  simpa only [Sexp.value, Sexp.values, ha, hb] using hread

end TextLisp
