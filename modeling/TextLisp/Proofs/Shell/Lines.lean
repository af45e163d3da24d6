import TextLisp.Proofs.Text.Line
import TextLisp.Shell.Basic

namespace TextLisp

theorem Text.trimChars_append {blanks : List Char} (h : ∀ c ∈ blanks, isBlank c = true)
    (cs : List Char) : trimChars (cs ++ blanks) = trimChars cs := by
  rw [trimChars, trimChars, dropBlank, List.dropWhile_append]
  split
  next hempty =>
    have hcs : dropBlank cs = [] := List.isEmpty_iff.mp hempty
    rw [hcs, List.dropWhile_eq_nil_iff.mpr h]
  next => exact dropBlankEnd_append h _

namespace Shell

section

variable {texts : List String}

theorem splitLines_append {cs : List Char} (h : '\n' ∉ cs) (rest : List Char) :
    splitLines (cs ++ '\n' :: rest) = cs :: splitLines rest := by
  induction cs with
  | nil => exact if_pos rfl
  | cons c cs ih =>
    obtain ⟨hc, hcs⟩ := not_or.mp (mt List.mem_cons.mpr h)
    rw [List.cons_append, splitLines, if_neg (Ne.symm hc), ih hcs]

/-- The last newline has an empty piece behind it. -/
theorem splitLines_block (h : ∀ text ∈ texts, Text.IsLine text) :
    splitLines (block texts).toList = texts.map String.toList ++ [[]] := by
  induction texts with
  | nil => rfl
  | cons text texts ih =>
    obtain ⟨htext, htexts⟩ := List.forall_mem_cons.mp h
    have hblock : (block (text :: texts)).toList =
        text.toList ++ '\n' :: (block texts).toList := by
      simp [block, line]
    rw [hblock, splitLines_append htext, ih htexts]
    rfl

/-- A file of lines is taken as those lines, trimmed and without the blank ones. -/
theorem fileLines_block (h : ∀ text ∈ texts, Text.IsLine text) :
    fileLines (block texts) = (texts.map Text.trim).filter (· != "") := by
  rw [fileLines, splitLines_block h, List.map_append, List.filter_append, List.map_map]
  exact List.append_nil _

theorem endLines_append_nil (pieces : List (List Char)) :
    endLines (pieces ++ [[]]) = pieces.map fun cs => line (String.ofList cs) := by
  induction pieces with
  | nil => rfl
  | cons piece pieces ih =>
    rw [List.map_cons, ← ih]
    -- `endLines` looks at one piece more to find the last one.
    cases pieces <;> rfl

/-- An input of lines comes in as those lines. -/
theorem inputLines_block (h : ∀ text ∈ texts, Text.IsLine text) :
    inputLines (block texts) = texts.map line := by
  rw [inputLines, splitLines_block h, endLines_append_nil, List.map_map]
  simp

end

/-- What may be lost at the end of a line is blank. -/
theorem trim_dropReturn (text : String) : Text.trim (dropReturn text) = Text.trim text := by
  rw [dropReturn]
  split
  next hlast =>
    obtain ⟨front, hfront⟩ := List.getLast?_eq_some_iff.mp hlast
    have hreturn : ∀ c ∈ ['\r'], Text.isBlank c = true := List.forall_mem_singleton.mpr rfl
    rw [hfront, List.dropLast_concat, Text.trim, Text.trim, String.toList_ofList, hfront,
      Text.trimChars_append hreturn]
  next => rfl

end Shell
end TextLisp
