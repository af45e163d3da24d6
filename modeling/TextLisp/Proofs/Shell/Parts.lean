import TextLisp.Proofs.Shell.Columns

/-! The parts of a text that is read line by line. A part has a heading that says what is listed and
how many items there are, and it goes on to the next empty line. -/
namespace TextLisp.Shell

open Text

/-- The lines of a text. A text that ends with a newline has an empty one behind it. -/
def linesOf (text : String) : List String :=
  (splitLines text.toList).map String.ofList

def heading (title : String) (count : Nat) : String :=
  title ++ " (" ++ toString count ++ "):"

def Heads (title text : String) : Prop :=
  (title ++ " (").toList <+: text.toList

instance (title text : String) : Decidable (Heads title text) :=
  inferInstanceAs (Decidable (_ <+: _))

structure Part where
  heading : String
  body : List String

/-- The first part with the given title. It goes on to the next empty line. -/
def part? (title : String) : List String → Option Part
  | [] => none
  | text :: texts =>
    if Heads title text then some ⟨text, texts.takeWhile (· != "")⟩ else part? title texts

/-- Without items the part is left out. Otherwise it is there, its heading says how many items there
are, and its lines are as they should be. -/
def ShowsPart (title : String) (count : Nat) (isBody : List String → Prop)
    (shown : List String) : Prop :=
  if count = 0 then part? title shown = none
  else ∃ body, part? title shown = some ⟨heading title count, body⟩ ∧ isBody body

/-- What is printed as lines is read back as those lines, with an empty one behind. -/
theorem linesOf_block {texts : List String} (h : ∀ text ∈ texts, Text.IsLine text) :
    linesOf (block texts) = texts ++ [""] := by
  rw [linesOf, splitLines_block h, List.map_append, List.map_map]
  simp [Function.comp_def]

section

variable {title : String}

theorem heads_heading (count : Nat) : Heads title (heading title count) := by
  rw [Heads, heading, String.append_assoc, String.toList_append (s := title ++ " (")]
  exact List.prefix_append _ _

theorem Heads.head?_eq {text : String} (h : Heads title text) :
    text.toList.head? = (title ++ " (").toList.head? := by
  obtain ⟨rest, hrest⟩ := h
  rw [← hrest, String.toList_append, List.append_assoc]
  cases title.toList <;> rfl

/-- An entry is indented, and a title is not. -/
theorem not_heads_of_isEntry (htitle : (title ++ " (").toList.head? ≠ some ' ') {text : String}
    (h : IsEntry text) : ¬ Heads title text := by
  intro hheads
  rw [← hheads.head?_eq, h.indented] at htitle
  exact htitle rfl

theorem part?_append {texts : List String} (h : ∀ text ∈ texts, ¬ Heads title text)
    (rest : List String) : part? title (texts ++ rest) = part? title rest := by
  induction texts with
  | nil => rfl
  | cons text texts ih =>
    obtain ⟨htext, htexts⟩ := List.forall_mem_cons.mp h
    rw [List.cons_append, part?, if_neg htext, ih htexts]

theorem part?_eq_none {texts : List String} (h : ∀ text ∈ texts, ¬ Heads title text) :
    part? title texts = none := by
  rw [← List.append_nil texts, part?_append h, part?]

theorem part?_heading {body : List String} (h : ∀ text ∈ body, text ≠ "") (count : Nat)
    (rest : List String) :
    part? title (heading title count :: (body ++ "" :: rest)) =
      some ⟨heading title count, body⟩ := by
  have hbody : (body ++ "" :: rest).takeWhile (· != "") = body := by
    have hall : ∀ text ∈ body, (text != "") = true := fun text hmem => bne_iff_ne.mpr (h text hmem)
    rw [List.takeWhile_append_of_pos hall]
    simp
  rw [part?, if_pos (heads_heading count), hbody]

def partLines (title : String) (count : Nat) (body : List String) : List String :=
  if count = 0 then [] else heading title count :: body

theorem forall_mem_partLines {P : String → Prop} {count : Nat} {body : List String}
    (hheading : P (heading title count)) (hbody : ∀ text ∈ body, P text) :
    ∀ text ∈ partLines title count body, P text := by
  unfold partLines
  split
  · exact List.forall_mem_nil _
  · exact List.forall_mem_cons.mpr ⟨hheading, hbody⟩

theorem isLine_heading (h : Text.IsLine title) (count : Nat) :
    Text.IsLine (heading title count) := by
  have hfront : Text.IsLine (title ++ " (") := isLine_append.mpr ⟨h, by decide⟩
  exact isLine_append.mpr ⟨isLine_append.mpr ⟨hfront, isLine_toString count⟩, by decide⟩

theorem not_heads_heading {other : String}
    (h : (title ++ " (").toList.head? ≠ (other ++ " (").toList.head?) (count : Nat) :
    ¬ Heads title (heading other count) := by
  intro hheads
  exact h (hheads.head?_eq.symm.trans (heads_heading count).head?_eq)

/-- A part that is printed is found and read back, wherever it stands among lines that do not look
like its heading. -/
theorem showsPart_partLines {before lines body rest rest' : List String} {count : Nat}
    {isBody : List String → Prop} (hbefore : ∀ text ∈ before, ¬ Heads title text)
    (hrest : ∀ text ∈ rest, ¬ Heads title text) (hlines : lines ++ rest = body ++ "" :: rest')
    (hbody : ∀ text ∈ body, text ≠ "") (hisBody : isBody body) :
    ShowsPart title count isBody (before ++ (partLines title count lines ++ rest)) := by
  rw [ShowsPart, part?_append hbefore]
  by_cases hcount : count = 0
  · rw [if_pos hcount, partLines, if_pos hcount, List.nil_append]
    exact part?_eq_none hrest
  · rw [if_neg hcount, partLines, if_neg hcount, List.cons_append, hlines]
    exact ⟨body, part?_heading hbody count rest', hisBody⟩

end

end TextLisp.Shell
