import TextLisp.Numeral
import TextLisp.Text.Form
import TextLisp.Value.Basic

namespace TextLisp

open Text

/-- Reads a text as data. A form becomes the list of its siblings' data, a numeral a number, and
any other atom a symbol. -/
def readDatum (text : List Char) : Except ReadFault Value :=
  match trimChars text with
  | '(' :: _ =>
    match _h : splitFormChars text with
    | .error fault => .error fault
    | .ok siblings => do
      let items ← siblings.attach.mapM fun ⟨sibling, _⟩ => readDatum sibling
      return .list items
  | atom =>
    let name := String.ofList atom
    if isAtom name then
      match parseNumberExact name with
      | some x => .ok (.number x)
      | none => .ok (.symbol name)
    else .error (.strayDelimiter name)
termination_by text.length
decreasing_by exact length_lt_of_mem_splitFormChars _h ‹_›

/-- A form is the list of what its siblings are. -/
theorem readDatum_of_form {text inner : List Char} {siblings : List (List Char)}
    (hinner : trimChars text = '(' :: inner) (h : splitFormChars text = .ok siblings) :
    readDatum text = (siblings.mapM readDatum).map Value.list := by
  rw [readDatum]
  split
  next =>
    split
    next h' =>
      rw [h] at h'
      cases h'
    next parts h' =>
      rw [h] at h'
      cases h'
      simp only [List.mapM_subtype, List.unattach_attach]
      rfl
  next hne => exact absurd hinner (hne inner)

theorem readDatum_of_fault {text inner : List Char} {fault : ReadFault}
    (hinner : trimChars text = '(' :: inner) (h : splitFormChars text = .error fault) :
    readDatum text = .error fault := by
  rw [readDatum]
  split
  next =>
    split
    next h' => exact congrArg Except.error (Except.error.inj (h'.symm.trans h))
    next parts h' =>
      rw [h] at h'
      cases h'
  next hne => exact absurd hinner (hne inner)

/-- Where no form begins there is one word, or the text is refused. -/
theorem readDatum_of_word {text : List Char} (h : ∀ inner, trimChars text ≠ '(' :: inner) :
    readDatum text =
      if isAtom (String.ofList (trimChars text)) then
        match parseNumberExact (String.ofList (trimChars text)) with
        | some x => .ok (.number x)
        | none => .ok (.symbol (String.ofList (trimChars text)))
      else .error (.strayDelimiter (String.ofList (trimChars text))) := by
  rw [readDatum]
  split
  next inner hinner => exact absurd hinner (h inner)
  · rfl

def datum (text : String) : Except Error Value :=
  (readDatum text.toList).mapError .invalidSubform

end TextLisp
