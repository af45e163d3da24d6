import TextLisp.Error

/-! Bracketed text. A form is split into its siblings, each an atom or a form of its own, and a
nested form stays text. -/
namespace TextLisp.Text

def isBlank (c : Char) : Bool :=
  (0x09 ≤ c.toNat && c.toNat ≤ 0x0D) || c.toNat == 0x20 || c.toNat == 0x85 ||
    c.toNat == 0xA0 || c.toNat == 0x1680 || (0x2000 ≤ c.toNat && c.toNat ≤ 0x200A) ||
    c.toNat == 0x2028 || c.toNat == 0x2029 || c.toNat == 0x202F || c.toNat == 0x205F ||
    c.toNat == 0x3000

def dropBlank (cs : List Char) : List Char :=
  cs.dropWhile isBlank

def dropBlankEnd (cs : List Char) : List Char :=
  (cs.reverse.dropWhile isBlank).reverse

def trimChars (cs : List Char) : List Char :=
  dropBlankEnd (dropBlank cs)

def trim (text : String) : String :=
  String.ofList (trimChars text.toList)

theorem length_dropBlank_le (cs : List Char) : (dropBlank cs).length ≤ cs.length :=
  (List.dropWhile_suffix isBlank).length_le

theorem length_dropBlankEnd_le (cs : List Char) : (dropBlankEnd cs).length ≤ cs.length := by
  have h := (List.dropWhile_suffix (l := cs.reverse) isBlank).length_le
  simpa only [dropBlankEnd, List.length_reverse] using h

theorem length_trimChars_le (cs : List Char) : (trimChars cs).length ≤ cs.length :=
  Nat.le_trans (length_dropBlankEnd_le _) (length_dropBlank_le cs)

def isAtomChar (c : Char) : Bool :=
  !isBlank c && c != '(' && c != ')'

def isAtom (text : String) : Bool :=
  text.toList != [] && text.toList.all isAtomChar

def consFirst {α β : Type} (x : α) (split : List α × β) : List α × β :=
  (x :: split.1, split.2)

/-- The characters up to the bracket that closes a form, and the characters after it. `nested` is
the number of forms inside it that are still open. -/
def splitClosed (nested : Nat) : List Char → Option (List Char × List Char)
  | [] => none
  | c :: cs =>
    if c = ')' then
      match nested with
      | 0 => some ([c], cs)
      | nested + 1 => (splitClosed nested cs).map (consFirst c)
    else if c = '(' then (splitClosed (nested + 1) cs).map (consFirst c)
    else (splitClosed nested cs).map (consFirst c)

/-- The bracket matcher cuts and loses nothing. -/
theorem append_of_splitClosed {nested : Nat} {cs inner rest : List Char}
    (h : splitClosed nested cs = some (inner, rest)) : cs = inner ++ rest := by
  induction cs generalizing nested inner rest with
  | nil => simp [splitClosed] at h
  | cons c cs ih =>
    have step {n : Nat} (hn : (splitClosed n cs).map (consFirst c) = some (inner, rest)) :
        c :: cs = inner ++ rest := by
      obtain ⟨⟨i, r⟩, hs, he⟩ := Option.map_eq_some_iff.mp hn
      obtain ⟨rfl, rfl⟩ := Prod.mk.inj he
      exact congrArg (c :: ·) (ih hs)
    unfold splitClosed at h
    split at h
    · split at h
      · obtain ⟨rfl, rfl⟩ := Prod.mk.inj (Option.some.inj h)
        rfl
      · exact step h
    · split at h
      · exact step h
      · exact step h

def excerpt (cs : List Char) : String :=
  String.ofList (cs.take 20)

/-- Splits the inside of a form at the bracket that closes it. `inner` is all that follows the
opening bracket, and `rest` the part not yet split. -/
def splitRest (inner rest : List Char) : Except ReadFault (List (List Char) × List Char) :=
  match _hrest : dropBlank rest with
  | [] => .error (.unclosed (String.ofList (dropBlankEnd inner)))
  | c :: cs =>
    if c = ')' then .ok ([], cs)
    else if c = '(' then
      match _hclosed : splitClosed 0 cs with
      | none => .error (.unterminated (excerpt (c :: cs)))
      | some (form, after) => (splitRest inner after).map (consFirst (c :: form))
    else
      (splitRest inner (cs.dropWhile isAtomChar)).map (consFirst (c :: cs.takeWhile isAtomChar))
termination_by rest.length
decreasing_by
  · have hle := length_dropBlank_le rest
    obtain rfl := append_of_splitClosed _hclosed
    simp only [_hrest, List.length_cons, List.length_append] at hle
    omega
  · have hle := length_dropBlank_le rest
    have hdrop := (List.dropWhile_suffix (l := cs) isAtomChar).length_le
    simp only [_hrest, List.length_cons] at hle
    omega

theorem exists_of_map_eq_ok {ε α β : Type} {x : Except ε α} {f : α → β} {b : β}
    (h : x.map f = .ok b) : ∃ a, x = .ok a ∧ f a = b := by
  cases x with
  | error e => cases h
  | ok a => exact ⟨a, rfl, Except.ok.inj h⟩

theorem length_le_of_mem_splitRest {inner rest : List Char} {siblings : List (List Char)}
    {tail sibling : List Char} (h : splitRest inner rest = .ok (siblings, tail))
    (hmem : sibling ∈ siblings) : sibling.length ≤ rest.length := by
  fun_induction splitRest inner rest generalizing siblings tail with
  | case1 => cases h
  | case2 =>
    cases h
    cases hmem
  | case3 => cases h
  | case4 rest cs form after hclosed hrest _ ih =>
    have hle := length_dropBlank_le rest
    obtain rfl := append_of_splitClosed hclosed
    simp only [hrest, List.length_cons, List.length_append] at hle
    obtain ⟨split, hsplit, he⟩ := exists_of_map_eq_ok h
    obtain ⟨rfl, rfl⟩ := Prod.mk.inj he
    rcases List.mem_cons.mp hmem with rfl | hmem
    · simp only [List.length_cons]
      omega
    · have := ih hsplit hmem
      omega
  | case5 rest c cs hrest _ _ ih =>
    have hle := length_dropBlank_le rest
    simp only [hrest, List.length_cons] at hle
    obtain ⟨split, hsplit, he⟩ := exists_of_map_eq_ok h
    obtain ⟨rfl, rfl⟩ := Prod.mk.inj he
    rcases List.mem_cons.mp hmem with rfl | hmem
    · have := (List.takeWhile_prefix (l := cs) isAtomChar).length_le
      simp only [List.length_cons]
      omega
    · have := ih hsplit hmem
      have := (List.dropWhile_suffix (l := cs) isAtomChar).length_le
      omega

def splitSiblingChars (inner : List Char) : Except ReadFault (List (List Char) × List Char) :=
  splitRest inner inner

def splitFormChars (text : List Char) : Except ReadFault (List (List Char)) :=
  match trimChars text with
  | '(' :: inner =>
    match splitSiblingChars inner with
    | .error fault => .error fault
    | .ok (siblings, rest) =>
      if trimChars rest = [] then .ok siblings
      else .error (.trailing (String.ofList (trimChars rest)))
  | other => .error (.notAForm (String.ofList other))

/-- Siblings are shorter than their form, so whatever recurs on siblings ends. -/
theorem length_lt_of_mem_splitFormChars {text : List Char} {siblings : List (List Char)}
    {sibling : List Char} (h : splitFormChars text = .ok siblings) (hmem : sibling ∈ siblings) :
    sibling.length < text.length := by
  have htrim := length_trimChars_le text
  unfold splitFormChars at h
  split at h
  next inner hinner =>
    rw [hinner, List.length_cons] at htrim
    split at h
    · cases h
    next split hsplit =>
      split at h
      · cases h
        have := length_le_of_mem_splitRest hsplit hmem
        omega
      · cases h
  · cases h

/-- The siblings inside a form, read from the text after its opening bracket, and the text after
the form. -/
def splitSiblings (inner : String) : Except Error (List String × String) :=
  match splitSiblingChars inner.toList with
  | .ok (siblings, rest) => .ok (siblings.map String.ofList, String.ofList rest)
  | .error fault => .error (.invalidSubform fault)

def splitForm (text : String) : Except Error (List String) :=
  match splitFormChars text.toList with
  | .ok siblings => .ok (siblings.map String.ofList)
  | .error fault => .error (.invalidSubform fault)

end TextLisp.Text
