import TextLisp.Text.Form

namespace TextLisp.Text

inductive SiblingFault where
  /-- The form that begins the text does not end. -/
  | unterminated (text : List Char)
  /-- The text begins with what is no part of any sibling. -/
  | unexpected (text : List Char)
  /-- More text would have to be known. -/
  | incomplete
  deriving DecidableEq, Repr

def SiblingFault.report : SiblingFault → ReadFault
  | unterminated text => .unterminated (excerpt text)
  | unexpected text => .reported ("not a valid sub-expression near '" ++ excerpt text ++ "'")
  | incomplete => .reported "incomplete input"

def isLayoutChar (c : Char) : Bool :=
  c == ' ' || c == '\t' || c == '\r' || c == '\n'

def readForm (text : List Char) : Except SiblingFault (List Char × List Char) :=
  match text with
  | '(' :: inner =>
    match splitClosed 0 inner with
    | some (form, after) => .ok ('(' :: form, after)
    | none => .error (.unterminated text)
  | _ => .error (.unexpected text)

def readAtom (text : List Char) : Except SiblingFault (List Char × List Char) :=
  match text.takeWhile isAtomChar with
  | [] => .error (.unexpected text)
  | c :: cs => .ok (c :: cs, text.dropWhile isAtomChar)

/-- Reads a form, or an atom where no form begins. A form that does not end is not tried as an
atom. -/
def readSibling (text : List Char) : Except SiblingFault (List Char × List Char) :=
  let text := text.dropWhile isLayoutChar
  match readForm text with
  | .error (.unexpected _) => readAtom text
  | outcome => outcome

theorem length_lt_of_readForm {text sibling after : List Char}
    (h : readForm text = .ok (sibling, after)) : after.length < text.length := by
  unfold readForm at h
  split at h
  next inner =>
    split at h
    next form rest hclosed =>
      obtain ⟨rfl, rfl⟩ := Prod.mk.inj (Except.ok.inj h)
      obtain rfl := append_of_splitClosed hclosed
      simp only [List.length_cons, List.length_append]
      omega
    · cases h
  · cases h

theorem length_lt_of_readAtom {text sibling after : List Char}
    (h : readAtom text = .ok (sibling, after)) : after.length < text.length := by
  have hsplit := congrArg List.length (List.takeWhile_append_dropWhile (p := isAtomChar) (l := text))
  unfold readAtom at h
  split at h
  · cases h
  next c cs hatom =>
    obtain ⟨-, rfl⟩ := Prod.mk.inj (Except.ok.inj h)
    rw [hatom, List.length_append, List.length_cons] at hsplit
    omega

theorem length_lt_of_readSibling {text sibling after : List Char}
    (h : readSibling text = .ok (sibling, after)) : after.length < text.length := by
  have hle := (List.dropWhile_suffix (l := text) isLayoutChar).length_le
  unfold readSibling at h
  dsimp only at h
  split at h
  · exact Nat.lt_of_lt_of_le (length_lt_of_readAtom h) hle
  · exact Nat.lt_of_lt_of_le (length_lt_of_readForm h) hle

/-- Reads siblings until the form that they are the inside of closes. `inner` is the whole inside,
and `rest` the part not yet read. -/
def readRest (inner rest : List Char) : Except ReadFault (List (List Char) × List Char) :=
  match _hrest : dropBlank rest with
  | [] => .error (.unclosed (String.ofList (dropBlankEnd inner)))
  | c :: cs =>
    if c = ')' then .ok ([], cs)
    else
      match _hread : readSibling (c :: cs) with
      | .error fault => .error fault.report
      | .ok (sibling, after) => (readRest inner after).map (consFirst sibling)
termination_by rest.length
decreasing_by
  have hle := length_dropBlank_le rest
  have hlt := length_lt_of_readSibling _hread
  rw [_hrest] at hle
  omega

def readSiblings (inner : String) : Except Error (List String × String) :=
  match readRest inner.toList inner.toList with
  | .ok (siblings, rest) => .ok (siblings.map String.ofList, String.ofList rest)
  | .error fault => .error (.invalidSubform fault)

end TextLisp.Text
