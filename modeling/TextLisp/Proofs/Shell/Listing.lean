import TextLisp.Proofs.Evaluator.Line
import TextLisp.Proofs.Session.Numerals
import TextLisp.Proofs.Shell.Parts
import TextLisp.Proofs.Shell.Turns
import TextLisp.Proofs.Store.Listing

namespace TextLisp.Shell

open Text

/-- What the lines of a listing say. -/
structure ShowsGlobals (globals : Table Value) (shown : List String) : Prop where
  total : shown.head? = some ("Global bindings (" ++ toString globals.size ++ " total):")
  primitives : ∃ names : List String,
    (∀ name, name ∈ names ↔ ∃ p, globals.get? name = some (.procedure (.primitive p))) ∧
    names.Pairwise (· < ·) ∧
    ShowsPart "Primitives" names.length (fun body => body.flatMap words = names) shown
  values : ∃ bindings : List (String × Value),
    (∀ name value, (name, value) ∈ bindings ↔
      globals.get? name = some value ∧ ∀ p, value ≠ .procedure (.primitive p)) ∧
    (bindingNames bindings).Pairwise (· < ·) ∧
    ShowsPart "Values" bindings.length
      (fun body =>
        body = bindings.map (fun (name, value) => "  " ++ name ++ " = " ++ value.render) ∧
        body.map (fun text => (words text).head?) = bindings.map fun binding => some binding.1)
      shown

theorem isPrimitive_iff {value : Value} :
    isPrimitive value = true ↔ ∃ p, value = .procedure (.primitive p) := by
  constructor
  · intro h
    cases value with
    | procedure p =>
      cases p with
      | primitive p => exact ⟨p, rfl⟩
      | closure c => cases h
    | _ => cases h
  · rintro ⟨p, rfl⟩
    rfl

def primitiveNames (globals : Table Value) : List String :=
  (globals.sorted.filter fun binding => isPrimitive binding.2).map Prod.fst

def otherBindings (globals : Table Value) : List (String × Value) :=
  globals.sorted.filter fun binding => !isPrimitive binding.2

def entryText (binding : String × Value) : String :=
  "  " ++ binding.1 ++ " = " ++ binding.2.render

def top (globals : Table Value) : List String :=
  ["Global bindings (" ++ toString globals.size ++ " total):", ""]

/-- The lines of the names in columns, given those of their rows. An empty one ends them. -/
def primitiveLines (globals : Table Value) (texts : List String) : List String :=
  partLines "Primitives" (primitiveNames globals).length (texts ++ [""])

def valueLines (globals : Table Value) : List String :=
  partLines "Values" (otherBindings globals).length ((otherBindings globals).map entryText)

section

variable {globals : Table Value}

theorem mem_primitiveNames_iff {name : String} :
    name ∈ primitiveNames globals ↔ ∃ p, globals.get? name = some (.procedure (.primitive p)) := by
  simp only [primitiveNames, List.mem_map, List.mem_filter, Prod.exists, exists_and_right,
    exists_eq_right, Table.mem_sorted_iff, isPrimitive_iff]
  constructor
  · rintro ⟨value, hvalue, p, rfl⟩
    exact ⟨p, hvalue⟩
  · rintro ⟨p, hp⟩
    exact ⟨_, hp, p, rfl⟩

theorem mem_otherBindings_iff {name : String} {value : Value} :
    (name, value) ∈ otherBindings globals ↔
      globals.get? name = some value ∧ ∀ p, value ≠ .procedure (.primitive p) := by
  have hother : (!isPrimitive value) = true ↔ ∀ p, value ≠ .procedure (.primitive p) := by
    rw [Bool.not_eq_true', Bool.eq_false_iff, Ne, isPrimitive_iff, not_exists]
  rw [otherBindings, List.mem_filter, Table.mem_sorted_iff, hother]

theorem ascending_primitiveNames : (primitiveNames globals).Pairwise (· < ·) :=
  globals.ascending_sorted.sublist (List.filter_sublist.map Prod.fst)

theorem ascending_otherBindings : (bindingNames (otherBindings globals)).Pairwise (· < ·) :=
  globals.ascending_sorted.sublist (List.filter_sublist.map Prod.fst)

theorem block_partLines (title : String) (count : Nat) (body : List String) :
    block (partLines title count body) =
      if count = 0 then "" else line (heading title count) ++ block body := by
  unfold partLines
  split
  · rfl
  · exact block_append [heading title count] body

theorem listing_eq_block (hne : globals.sorted ≠ []) {texts : List String}
    (hrows : rows (primitiveNames globals) = block texts) :
    listing globals =
      block (top globals ++ (primitiveLines globals texts ++ valueLines globals)) := by
  have htop : block (top globals) =
      line ("Global bindings (" ++ toString globals.size ++ " total):") ++ line "" := by
    simp [block, top]
  have hprimitives : block (primitiveLines globals texts) =
      primitiveSection (primitiveNames globals) := by
    rw [primitiveLines, block_partLines, block_append, ← hrows, ← String.append_assoc]
    simp [primitiveSection, heading, block]
  have hvalues : block (valueLines globals) = valueSection (otherBindings globals) := by
    rw [valueLines, block_partLines]
    simp [valueSection, heading]
    rfl
  have hsize : globals.sorted.length = globals.size := globals.sorted_perm.length_eq
  have hsome : ¬ globals.sorted.isEmpty = true := by simpa using hne
  rw [block_append, block_append, htop, hprimitives, hvalues, listing, if_neg hsome, hsize,
    String.append_assoc]
  rfl

theorem isEntry_entryText {binding : String × Value} (hname : IsWord binding.1)
    (hvalue : Text.IsLine binding.2.render) : IsEntry (entryText binding) := by
  constructor
  case indented => simp [entryText]
  case isLine =>
    have hfront : Text.IsLine ("  " ++ binding.1) :=
      isLine_append.mpr ⟨by decide, hname.isLine⟩
    exact isLine_append.mpr ⟨isLine_append.mpr ⟨hfront, by decide⟩, hvalue⟩

theorem head?_words_entryText {binding : String × Value} (h : IsWord binding.1) :
    (words (entryText binding)).head? = some binding.1 := by
  have hchars : (entryText binding).toList =
      ' ' :: ' ' :: (binding.1.toList ++ ' ' :: '=' :: ' ' :: binding.2.render.toList) := by
    simp [entryText]
  have hhead : ∀ c ∈ (' ' :: '=' :: ' ' :: binding.2.render.toList).head?, isBlank c = true := by
    rintro c ⟨⟩
    exact isBlank_space
  rw [words, hchars, wordChars_cons_blank _ isBlank_space, wordChars_cons_blank _ isBlank_space,
    wordChars_append _ hhead, h.wordChars_eq]
  simp

theorem isLine_top : ∀ text ∈ top globals, Text.IsLine text := by
  have htotal : Text.IsLine ("Global bindings (" ++ toString globals.size ++ " total):") :=
    isLine_append.mpr ⟨isLine_append.mpr ⟨by decide, isLine_toString _⟩, by decide⟩
  exact List.forall_mem_cons.mpr ⟨htotal, by decide⟩

theorem not_heads_top {title : String} (hglobal : (title ++ " (").toList.head? ≠ some 'G')
    (hempty : ¬ Heads title "") : ∀ text ∈ top globals, ¬ Heads title text := by
  have htotal : ("Global bindings (" ++ toString globals.size ++ " total):").toList.head? =
      some 'G' := by simp
  refine List.forall_mem_cons.mpr ⟨?_, List.forall_mem_singleton.mpr hempty⟩
  intro hheads
  exact hglobal (hheads.head?_eq.symm.trans htotal)

section

variable {texts : List String} (htexts : ∀ text ∈ texts, IsEntry text)
include htexts

theorem isLine_primitiveLines : ∀ text ∈ primitiveLines globals texts, Text.IsLine text := by
  refine forall_mem_partLines (isLine_heading (by decide) _) ?_
  exact List.forall_mem_append.mpr ⟨fun text hmem => (htexts text hmem).isLine, by decide⟩

theorem not_heads_primitiveLines :
    ∀ text ∈ primitiveLines globals texts, ¬ Heads "Values" text := by
  refine forall_mem_partLines (not_heads_heading (by decide) _) ?_
  refine List.forall_mem_append.mpr ⟨?_, by decide⟩
  exact fun text hmem => not_heads_of_isEntry (by decide) (htexts text hmem)

end

section

variable (hbindings : ∀ binding ∈ otherBindings globals,
  IsWord binding.1 ∧ Text.IsLine binding.2.render)
include hbindings

theorem isEntry_of_mem_otherBindings :
    ∀ text ∈ (otherBindings globals).map entryText, IsEntry text := by
  intro text htext
  obtain ⟨binding, hmem, rfl⟩ := List.mem_map.mp htext
  exact isEntry_entryText (hbindings binding hmem).1 (hbindings binding hmem).2

theorem isLine_valueLines : ∀ text ∈ valueLines globals, Text.IsLine text := by
  refine forall_mem_partLines (isLine_heading (by decide) _) ?_
  exact fun text hmem => (isEntry_of_mem_otherBindings hbindings text hmem).isLine

theorem not_heads_valueLines : ∀ text ∈ valueLines globals, ¬ Heads "Primitives" text := by
  refine forall_mem_partLines (not_heads_heading (by decide) _) ?_
  intro text hmem
  exact not_heads_of_isEntry (by decide) (isEntry_of_mem_otherBindings hbindings text hmem)

variable {texts : List String} (htexts : ∀ text ∈ texts, IsEntry text)
include htexts

theorem linesOf_listing (hsome : globals.sorted ≠ [])
    (hrows : rows (primitiveNames globals) = block texts) :
    linesOf (listing globals) =
      top globals ++ (primitiveLines globals texts ++ (valueLines globals ++ [""])) := by
  have hlines : ∀ text ∈ top globals ++ (primitiveLines globals texts ++ valueLines globals),
      Text.IsLine text := by
    simp only [List.forall_mem_append]
    exact ⟨isLine_top, isLine_primitiveLines htexts, isLine_valueLines hbindings⟩
  rw [listing_eq_block hsome hrows, linesOf_block hlines, List.append_assoc, List.append_assoc]

theorem showsPart_primitives (hwords : texts.flatMap words = primitiveNames globals) :
    ShowsPart "Primitives" (primitiveNames globals).length
      (fun body => body.flatMap words = primitiveNames globals)
      (top globals ++ (primitiveLines globals texts ++ (valueLines globals ++ [""]))) := by
  have hrest : ∀ text ∈ valueLines globals ++ [""], ¬ Heads "Primitives" text :=
    List.forall_mem_append.mpr ⟨not_heads_valueLines hbindings, by decide⟩
  -- The empty line behind the names ends their part, also when no value is listed below.
  have hgap : texts ++ [""] ++ (valueLines globals ++ [""]) =
      texts ++ "" :: (valueLines globals ++ [""]) := List.append_assoc _ _ _
  exact showsPart_partLines (not_heads_top (by decide) (by decide)) hrest hgap
    (fun text hmem => (htexts text hmem).ne_empty) hwords

theorem showsPart_values :
    ShowsPart "Values" (otherBindings globals).length
      (fun body =>
        body = (otherBindings globals).map
          (fun (name, value) => "  " ++ name ++ " = " ++ value.render) ∧
        body.map (fun text => (words text).head?) =
          (otherBindings globals).map fun binding => some binding.1)
      (top globals ++ (primitiveLines globals texts ++ (valueLines globals ++ [""]))) := by
  have hbefore : ∀ text ∈ top globals ++ primitiveLines globals texts, ¬ Heads "Values" text :=
    List.forall_mem_append.mpr
      ⟨not_heads_top (by decide) (by decide), not_heads_primitiveLines htexts⟩
  have hnames : ((otherBindings globals).map entryText).map (fun text => (words text).head?) =
      (otherBindings globals).map fun binding => some binding.1 := by
    rw [List.map_map]
    apply List.map_congr_left
    intro binding hmem
    exact head?_words_entryText (hbindings binding hmem).1
  have hentries := isEntry_of_mem_otherBindings hbindings
  rw [← List.append_assoc]
  exact showsPart_partLines hbefore (by decide) rfl
    (fun text hmem => (hentries text hmem).ne_empty) ⟨rfl, hnames⟩

end

/-- When names are words and values are written in one line, the listing says what is bound. -/
theorem showsGlobals_listing {bound : String} (hbound : globals.contains bound = true)
    (h : ∀ name value, globals.get? name = some value →
      IsWord name ∧ Text.IsLine value.render) :
    ShowsGlobals globals (linesOf (listing globals)) := by
  have hnames : ∀ name ∈ primitiveNames globals, IsWord name := by
    intro name hmem
    obtain ⟨p, hp⟩ := mem_primitiveNames_iff.mp hmem
    exact (h name _ hp).1
  have hbindings : ∀ binding ∈ otherBindings globals,
      IsWord binding.1 ∧ Text.IsLine binding.2.render := by
    intro binding hmem
    exact h binding.1 binding.2 (mem_otherBindings_iff.mp hmem).1
  have hsome : globals.sorted ≠ [] := by
    obtain ⟨value, hvalue⟩ := Option.isSome_iff_exists.mp hbound
    exact List.ne_nil_of_mem (Table.mem_sorted_iff.mpr hvalue)
  obtain ⟨texts, hrows, htexts, hwords⟩ := exists_rows hnames
  rw [linesOf_listing hbindings htexts hsome hrows]
  exact
    { total := rfl
      primitives := ⟨primitiveNames globals, fun _ => mem_primitiveNames_iff,
        ascending_primitiveNames, showsPart_primitives hbindings htexts hwords⟩
      values := ⟨otherBindings globals, fun _ _ => mem_otherBindings_iff,
        ascending_otherBindings, showsPart_values hbindings htexts⟩ }

end

structure IsListable (s : Store) : Prop where
  bound : ∃ name, s.globals.contains name = true
  named : s.IsNamed
  lines : lines.Holds s

theorem contains_initial : Store.initial.globals.contains "=" = true := by
  show (initialGlobals : Table Value).contains "=" = true
  rw [initialGlobals, Table.ofList, List.foldl_append]
  exact Table.contains_iff_mem_names.mpr (Table.mem_names_insert.mpr (Or.inl rfl))

/-- The store at the start can be listed. -/
theorem isListable_initial : IsListable Store.initial :=
  ⟨⟨"=", contains_initial⟩, isNamed_initial, holds_lines_initial⟩

/-- Evaluating a line keeps the store listable, whether it succeeds or fails. -/
theorem IsListable.evaluateLine {s : Store} (h : IsListable s) {text : String}
    (htext : Text.IsLine text) : IsListable (evaluateLine s text).2 := by
  have hhistory : s.History (TextLisp.evaluateLine host defaultLimit text s).log
      (TextLisp.evaluateLine host defaultLimit text s).store :=
    recordedAt_evaluate host defaultLimit 0 Environment.empty text s
  have hlines := (keeps_lines_evaluateLine host defaultLimit htext s h.lines).1
  obtain ⟨name, hname⟩ := h.bound
  rw [evaluateLine_eq]
  dsimp only
  exact ⟨⟨name, hhistory.keepsNames.contains_globals hname⟩, hhistory.isNamed h.named, hlines⟩

/-- The listing of a listable store is read back as its bindings. -/
theorem IsListable.showsGlobals {s : Store} (h : IsListable s) :
    ShowsGlobals s.globals (linesOf (listing s.globals)) := by
  obtain ⟨bound, hbound⟩ := h.bound
  apply showsGlobals_listing hbound
  intro name value hvalue
  have hname := isName_iff.mp (h.named .globals name value hvalue)
  have hline : value.IsLine := h.lines .globals name value hvalue
  exact ⟨isWord_of_isAtom hname.1, hline.render⟩

theorem IsListable.respond {s s' : Store} (h : IsListable s) {text shown : String}
    (htext : Text.IsLine text) (hrespond : respond s text = (shown, some s')) : IsListable s' := by
  cases hends : endsSession text with
  | true =>
    rw [respond_of_endsSession hends] at hrespond
    cases hrespond
  | false =>
    cases hshow : asksToShow text with
    | true =>
      obtain ⟨_, hshown⟩ := respond_of_asksToShow hshow s
      rw [hshown] at hrespond
      obtain rfl : s = s' := Option.some.inj (Prod.mk.inj hrespond).2
      exact h
    | false =>
      rw [respond_of_expression hends hshow] at hrespond
      obtain rfl : (Shell.evaluateLine s text).2 = s' := Option.some.inj (Prod.mk.inj hrespond).2
      exact h.evaluateLine htext

/-- Typed lines lead to stores that can be listed only. -/
theorem IsListable.of_mem_sessionTurns {texts : List String}
    (htexts : ∀ text ∈ texts, Text.IsLine text) {s : Store} (h : IsListable s) {turn : Turn}
    (hturn : turn ∈ sessionTurns s texts) : IsListable turn.store := by
  fun_induction sessionTurns s texts with
  | case1 => cases hturn
  | case2 => cases hturn
  | case3 s text rest shown s' hrespond ih =>
    obtain ⟨htext, hrest⟩ := List.forall_mem_cons.mp htexts
    obtain rfl | hturn := List.mem_cons.mp hturn
    · exact h
    · exact ih hrest (h.respond htext hrespond) hturn

/-- Whatever lines have been typed, the listing that a session shows says what is bound. -/
theorem listing_shows_globals {texts : List String} (h : ∀ text ∈ texts, '\n' ∉ text.toList)
    {turn : Turn} (hturn : turn ∈ sessionTurns Store.initial texts) :
    (turn.text = ":env" → turn.printed = listing turn.store.globals) ∧
      ShowsGlobals turn.store.globals (linesOf (listing turn.store.globals)) := by
  refine ⟨?_, (isListable_initial.of_mem_sessionTurns h hturn).showsGlobals⟩
  intro htext
  rw [printed_of_mem_sessionTurns hturn, htext]
  rfl

/-- A primitive that has been overwritten is listed with its new value. -/
theorem globals_are_listed_after_assignment :
    ∃ turn ∈ sessionTurns Store.initial ["(set! car nil)", ":env"],
      turn.store = (evaluateLine Store.initial "(set! car nil)").2 ∧
      turn.printed = listing turn.store.globals ∧
        ShowsGlobals turn.store.globals (linesOf (listing turn.store.globals)) := by
  have hlines : ∀ text ∈ ["(set! car nil)", ":env"], '\n' ∉ text.toList := by decide
  have hlast (s : Store) : ⟨s, ":env", listing s.globals⟩ ∈ sessionTurns s [":env"] :=
    List.mem_cons_self
  have hturn : ⟨(evaluateLine Store.initial "(set! car nil)").2, ":env",
      listing (evaluateLine Store.initial "(set! car nil)").2.globals⟩ ∈
      sessionTurns Store.initial ["(set! car nil)", ":env"] := by
    rw [sessionTurns_of_expression _ _ (by decide) (by decide)]
    exact List.mem_cons_of_mem _ (hlast _)
  obtain ⟨hprinted, hshows⟩ := listing_shows_globals hlines hturn
  exact ⟨_, hturn, rfl, hprinted rfl, hshows⟩

end TextLisp.Shell
