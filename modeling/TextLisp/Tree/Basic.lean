import TextLisp.Numeral
import TextLisp.Text.Form
import TextLisp.Value.Basic

namespace TextLisp

open Text

/-- An atom, or a form with the trees of its siblings. Each keeps its text. -/
inductive Tree where
  | atom (text : String)
  | node (text : String) (children : List Tree)

namespace Tree

def text : Tree → String
  | atom text => text
  | node text _ => text

def ofChars (text : List Char) : Except ReadFault Tree :=
  match trimChars text with
  | '(' :: inner =>
    match _h : splitFormChars text with
    | .error fault => .error fault
    | .ok siblings => do
      let children ← siblings.attach.mapM fun ⟨sibling, _⟩ => ofChars sibling
      return node (String.ofList ('(' :: inner)) children
  | word =>
    if isAtom (String.ofList word) then .ok (atom (String.ofList word))
    else .error (.strayDelimiter (String.ofList word))
termination_by text.length
decreasing_by exact length_lt_of_mem_splitFormChars _h ‹_›

theorem ofChars_of_form {text inner : List Char} {siblings : List (List Char)}
    (hinner : trimChars text = '(' :: inner) (h : splitFormChars text = .ok siblings) :
    ofChars text =
      (siblings.mapM ofChars).map (node (String.ofList ('(' :: inner))) := by
  rw [ofChars]
  split
  next inner' hinner' =>
    rw [hinner] at hinner'
    cases hinner'
    split
    next h' =>
      rw [h] at h'
      cases h'
    next parts h' =>
      rw [h] at h'
      cases h'
      simp only [List.mapM_subtype, List.unattach_attach]
      rfl
  next hne => exact absurd hinner (hne inner)

theorem ofChars_of_fault {text inner : List Char} {fault : ReadFault}
    (hinner : trimChars text = '(' :: inner) (h : splitFormChars text = .error fault) :
    ofChars text = .error fault := by
  rw [ofChars]
  split
  next =>
    split
    next h' => exact congrArg Except.error (Except.error.inj (h'.symm.trans h))
    next parts h' =>
      rw [h] at h'
      cases h'
  next hne => exact absurd hinner (hne inner)

theorem ofChars_of_word {text : List Char} (h : ∀ inner, trimChars text ≠ '(' :: inner) :
    ofChars text =
      if isAtom (String.ofList (trimChars text)) then .ok (atom (String.ofList (trimChars text)))
      else .error (.strayDelimiter (String.ofList (trimChars text))) := by
  rw [ofChars]
  split
  next inner hinner => exact absurd hinner (h inner)
  · rfl

def read (text : String) : Except ReadFault Tree :=
  ofChars text.toList

mutual

def datum {β : Type} : Tree → Value β
  | atom text =>
    match parseNumberExact text with
    | some x => .number x
    | none => .symbol text
  | node _ children => .list (data children)

def data {β : Type} : List Tree → List (Value β)
  | [] => []
  | tree :: trees => datum tree :: data trees

end

end Tree

end TextLisp
