import Mathlib
import TextLisp.Proofs.Evaluator.Operations
import TextLisp.Proofs.Text.Grammar
import TextLisp.Proofs.Value.Alike
import TextLisp.Session

namespace TextLisp

open Text

/-- The text of the double is an atom, and the numeral of that same double. -/
def ReadsBack (x : Float) : Prop :=
  isAtom (renderNumber x) = true ∧ parseNumberExact (renderNumber x) = some x

/-- Lists of names and of numbers of one kind, nested in any way. -/
inductive Value.IsDatum (reads : Float → Prop) : Value → Prop
  | number {x : Float} (h : reads x) : IsDatum reads (.number x)
  | symbol {text : String} (h : isName text = true) : IsDatum reads (.symbol text)
  | list {items : List Value} (h : ∀ v ∈ items, IsDatum reads v) : IsDatum reads (.list items)

namespace Value

variable {reads : Float → Prop}

theorem IsDatum.isName_of_isPartOf {v : Value} (h : v.IsDatum reads) {text : String}
    (hpart : IsPartOf (.symbol text) v) : isName text = true := by
  induction hpart with
  | self =>
    cases h with
    | symbol h => exact h
  | item hmem _ ih =>
    cases h with
    | list h => exact ih (h _ hmem)

theorem IsDatum.mono {reads' : Float → Prop} {v : Value} (h : v.IsDatum reads)
    (hnumbers : ∀ x, IsPartOf (.number x) v → reads' x) : v.IsDatum reads' := by
  induction h with
  | number _ => exact .number (hnumbers _ .self)
  | symbol h => exact .symbol h
  | list _ ih => exact .list fun v hmem => ih v hmem fun x hx => hnumbers x (.item hmem hx)

end Value

namespace Text

/-- The words of a text are atoms. -/
theorem isAtom_of_mem_tokenChars {cs : List Char} {text : String}
    (h : .word text ∈ tokenChars cs) : isAtom text = true := by
  fun_induction tokenChars cs with
  | case1 => cases h
  | case2 cs ih =>
    cases h with
    | tail _ hmem => exact ih hmem
  | case3 cs _ ih =>
    cases h with
    | tail _ hmem => exact ih hmem
  | case4 c cs _ _ _ ih => exact ih h
  | case5 c cs hopen hclose hblank ih =>
    obtain hword | hmem := List.mem_cons.mp h
    · rw [Token.word.inj hword]
      exact isAtom_ofList.mpr
        (isAtomChars_cons_takeWhile (Bool.eq_false_iff.mpr hblank) hclose hopen)
    · exact ih hmem

/-- Texts with a blank between them. -/
theorem tokenChars_append_space (before after : List Char) :
    tokenChars (before ++ ' ' :: after) = tokenChars before ++ tokenChars after := by
  have hmeets : Meets before (' ' :: after) := by
    apply meets_of_head?
    rintro b ⟨⟩
    decide
  rw [tokenChars_append hmeets, tokenChars_blank (by decide)]

theorem tokenChars_append_close (cs : List Char) :
    tokenChars (cs ++ [')']) = tokenChars cs ++ [.closing] := by
  have hmeets : Meets cs [')'] := by
    apply meets_of_head?
    rintro b ⟨⟩
    exact isAtomChar_close
  rw [tokenChars_append hmeets, tokenChars_close, tokenChars]

end Text

namespace Sexp

mutual

/-- What is derived from the words of a text is a datum. -/
theorem isDatum_value : ∀ e : Sexp, (∀ text, .word text ∈ e.tokens → isAtom text = true) →
    e.value.IsDatum fun _ => True
  | .word text, h => by
    have hatom : isAtom text = true := h text (by rw [tokens]; exact List.mem_cons_self)
    rw [value]
    split
    · exact .number trivial
    next hnone => exact .symbol (isName_iff.mpr ⟨hatom, hnone⟩)
  | .list items, h => by
    rw [value]
    apply Value.IsDatum.list
    apply isDatum_values
    intro text hmem
    apply h
    rw [tokens]
    exact List.mem_cons_of_mem _ (List.mem_append_left _ hmem)

theorem isDatum_values : ∀ items : List Sexp,
    (∀ text, .word text ∈ itemTokens items → isAtom text = true) →
      ∀ v ∈ values items, v.IsDatum fun _ => True
  | [], _, v, hmem => by
    rw [values] at hmem
    cases hmem
  | item :: items, h, v, hmem => by
    simp only [itemTokens, List.mem_append] at h
    rw [values] at hmem
    obtain rfl | hmem := List.mem_cons.mp hmem
    · exact isDatum_value item fun text hword => h text (Or.inl hword)
    · exact isDatum_values items (fun text hword => h text (Or.inr hword)) v hmem

end

end Sexp

/-- The tokens of a list's items, written one space apart, are those of each in turn. -/
theorem tokenChars_renderItems (items : List Value) :
    tokenChars (Value.renderItems items).toList =
      (items.map fun v => v.render.toList).flatMap tokenChars := by
  induction items with
  | nil => rw [Value.renderItems, String.toList_empty, tokenChars, List.map_nil, List.flatMap_nil]
  | cons v items ih =>
    cases items with
    | nil =>
      rw [Value.renderItems, List.map_singleton, List.flatMap_singleton]
    | cons w items =>
      rw [Value.renderItems, String.toList_append, String.toList_append, List.append_assoc,
        List.map_cons, List.flatMap_cons, ← ih]
      exact tokenChars_append_space _ _

/-- The written form of a datum is derived by the grammar, and means that datum. -/
theorem exists_derives_render {v : Value} (h : v.IsDatum ReadsBack) :
    ∃ e : Sexp, e.Derives v.render.toList v := by
  induction h with
  | @number x h =>
    refine ⟨.word (renderNumber x), ?_, ?_⟩
    · rw [Value.render, tokenChars_of_isAtom h.1, Sexp.tokens]
    · rw [Sexp.value, h.2]
  | @symbol text h =>
    obtain ⟨hatom, hnone⟩ := isName_iff.mp h
    refine ⟨.word text, ?_, ?_⟩
    · rw [Value.render, tokenChars_of_isAtom hatom, Sexp.tokens]
    · rw [Sexp.value, hnone]
  | @list items _ ih =>
    have hitems : List.Forall₂ (fun text v => ∃ e : Sexp, e.Derives text v)
        (items.map fun v => v.render.toList) items := by
      rw [List.forall₂_map_left_iff, List.forall₂_same]
      exact ih
    obtain ⟨es, htokens, hvalues⟩ := Sexp.exists_items_of_derives hitems
    refine ⟨.list es, ?_, ?_⟩
    · have hlist : (Value.list items).render.toList =
          '(' :: ((Value.renderItems items).toList ++ [')']) := by
        rw [Value.render, String.toList_append, String.toList_append]
        rfl
      rw [hlist, tokenChars_open, tokenChars_append_close, tokenChars_renderItems, Sexp.tokens,
        htokens]
    · rw [Sexp.value, hvalues]

/-- The text of a datum is read as that datum, where its numbers read back. -/
theorem datum_render {v : Value} (h : v.IsDatum ReadsBack) : datum v.render = .ok v := by
  obtain ⟨e, htokens, rfl⟩ := exists_derives_render h
  rw [datum, readDatum_of_tokens htokens]
  rfl

/-- What is read is a datum, whatever its numbers. -/
theorem isDatum_of_readDatum {text : List Char} {v : Value} (h : readDatum text = .ok v) :
    v.IsDatum fun _ => True := by
  obtain ⟨e, htokens, rfl⟩ := exists_derives_of_readDatum h
  apply Sexp.isDatum_value
  intro word hmem
  rw [htokens] at hmem
  exact isAtom_of_mem_tokenChars hmem

/-- What is read from a text is a datum. -/
theorem isDatum_of_datum {text : String} {v : Value} (h : datum text = .ok v) :
    v.IsDatum fun _ => True := by
  unfold datum at h
  cases hread : readDatum text.toList with
  | error fault =>
    rw [hread] at h
    cases h
  | ok w =>
    rw [hread] at h
    obtain rfl : w = v := Except.ok.inj h
    exact isDatum_of_readDatum hread

/-- A symbol is read from its own name. -/
theorem ofList_of_readDatum_symbol {text : List Char} {name : String}
    (h : readDatum text = .ok (.symbol name)) : String.ofList (trimChars text) = name := by
  obtain ⟨e, htokens, hvalue⟩ := exists_derives_of_readDatum h
  cases e with
  | word word =>
    rw [Sexp.value] at hvalue
    split at hvalue
    · cases hvalue
    · obtain rfl := Value.symbol.inj hvalue
      exact (isAtomChars_of_tokenChars htokens.symm).2
  | list items =>
    rw [Sexp.value] at hvalue
    cases hvalue

/-- Quoting the text of a datum leaves an operand that is read as that datum. -/
theorem exists_splitForm_quote {v : Value} (h : v.IsDatum ReadsBack) :
    ∃ expr, splitForm ("(quote " ++ v.render ++ ")") = .ok [Keyword.quote.text, expr] ∧
      datum expr = .ok v := by
  obtain ⟨e, htokens, rfl⟩ := exists_derives_render h
  let line := "(quote " ++ e.value.render ++ ")"
  have hchars : line.toList =
      '(' :: ("quote".toList ++ ' ' :: (e.value.render.toList ++ [')'])) := by
    rw [String.toList_append, String.toList_append]
    rfl
  have hquote : isAtom "quote" = true := by cbv
  have hline : tokenChars line.toList = (Sexp.list [.word "quote", e]).tokens := by
    rw [hchars, tokenChars_open, tokenChars_append_space, tokenChars_append_close,
      tokenChars_of_isAtom hquote, ← htokens]
    simp only [Sexp.tokens, Sexp.itemTokens, List.append_nil, List.append_assoc]
  have hread := readDatum_of_tokens hline.symm
  obtain ⟨parts, hparts⟩ := exists_splitFormChars_of_tokenChars hline
  obtain ⟨inner, hinner⟩ := exists_open_of_splitFormChars hparts
  have hnone : parseNumberExact "quote" = none := by cbv
  rw [readDatum_of_form hinner hparts, Sexp.value, Sexp.values, Sexp.values, Sexp.values, Sexp.value,
    hnone] at hread
  obtain ⟨vs, hvs, hlist⟩ := exists_of_map_eq_ok hread
  obtain rfl := Value.list.inj hlist
  have hpair := forall₂_of_mapM_eq_ok hvs
  obtain _ | ⟨hkeyword, _ | ⟨hexpr, _ | _⟩⟩ := hpair
  rename_i keyword expr
  have htrim : trimChars keyword = keyword := by
    obtain hatom | hbalanced :=
      isAtomChars_or_isBalanced_of_mem_splitFormChars hparts List.mem_cons_self
    · exact trimChars_of_isAtomChars hatom
    · exact trimChars_of_isBalanced hbalanced
  have hname : String.ofList keyword = Keyword.quote.text := by
    rw [← htrim]
    exact ofList_of_readDatum_symbol hkeyword
  refine ⟨String.ofList expr, splitForm_eq_ok.mpr ⟨[keyword, expr], hparts, ?_⟩, ?_⟩
  · rw [List.map_cons, List.map_singleton, hname]
  · rw [datum, String.toList_ofList, hexpr]
    rfl

theorem evaluateLine_quote (host : Host) {limit : Nat} (hlimit : 1 ≤ limit) {v : Value}
    (h : v.IsDatum ReadsBack) (s : Store) :
    (evaluateLine host limit ("(quote " ++ v.render ++ ")") s).result = .ok v ∧
      (evaluateLine host limit ("(quote " ++ v.render ++ ")") s).store = s := by
  obtain ⟨remaining, rfl⟩ := Nat.exists_eq_add_of_le' hlimit
  obtain ⟨expr, hsplit, hdatum⟩ := exists_splitForm_quote h
  have hbody (descend : Descent) (text : String) :
      evaluateSiblings host descend .empty text [Keyword.quote.text, expr] s = ⟨.ok v, s, []⟩ := by
    change Run.ofExcept (datum expr) s = _
    rw [hdatum, Run.ofExcept_apply]
  unfold evaluateLine
  rw [evaluate_of_splitForm hsplit, hbody]
  exact ⟨rfl, rfl⟩

/-- Writing a datum and reading it gives the datum back, also through a form that quotes it, which
any limit admits and which leaves the store alone. In turn what is read from a text is a datum: its
symbols are names, and where its numbers read back, so does the whole. -/
theorem written_data_read_back :
    (∀ v : Value, v.IsDatum ReadsBack → datum v.render = .ok v ∧
      ∀ (host : Host) (limit : Nat) (s : Store), 1 ≤ limit →
        let o := evaluateLine host limit ("(quote " ++ v.render ++ ")") s
        o.result = .ok v ∧ o.store = s) ∧
    (∀ (text : String) (v : Value), datum text = .ok v →
      (∀ name, Value.IsPartOf (.symbol name) v → isName name = true) ∧
      ((∀ x, Value.IsPartOf (.number x) v → ReadsBack x) → datum v.render = .ok v)) := by
  constructor
  · intro v h
    exact ⟨datum_render h, fun host limit s hlimit => evaluateLine_quote host hlimit h s⟩
  · intro text v h
    have hdatum : v.IsDatum fun _ => True := isDatum_of_datum h
    exact ⟨fun _ hpart => hdatum.isName_of_isPartOf hpart,
      fun hnumbers => datum_render (hdatum.mono hnumbers)⟩

/-- A list with a number, an empty list and a list of two names. -/
theorem nested_list_reads_back :
    let v : Value := .list [.number 1.5, .list [], .list [.symbol "a", .symbol "-"]]
    datum "(1.5 () (a -))" = .ok v ∧
      (evaluateLine (fun _ _ => .ok .nil) 1 "(quote (1.5 () (a -)))" Store.initial).result =
        .ok v := by
  intro v
  have hnumber : ReadsBack 1.5 := by
    constructor <;> decide +kernel
  have hnames : ∀ w ∈ [Value.symbol "a", Value.symbol "-"], w.IsDatum ReadsBack :=
    List.forall_mem_cons.mpr ⟨.symbol (by cbv), List.forall_mem_singleton.mpr (.symbol (by cbv))⟩
  have hv : v.IsDatum ReadsBack := by
    apply Value.IsDatum.list
    rw [List.forall_mem_cons, List.forall_mem_cons, List.forall_mem_singleton]
    exact ⟨.number hnumber, .list (List.forall_mem_nil _), .list hnames⟩
  have hrender : v.render = "(1.5 () (a -))" := by decide +kernel
  have hline : "(quote " ++ v.render ++ ")" = "(quote (1.5 () (a -)))" := by
    rw [hrender]
    rfl
  obtain ⟨hread, hquote⟩ := written_data_read_back.1 v hv
  rw [hrender] at hread
  rw [← hline]
  exact ⟨hread, (hquote _ 1 Store.initial (Nat.le_refl 1)).1⟩

end TextLisp
