import TextLisp.Numeral
import TextLisp.Text.Form
import TextLisp.Value.Basic

namespace TextLisp

inductive Token where
  | opening
  | closing
  | word (text : String)
  deriving DecidableEq, Repr

namespace Text

def tokenChars : List Char → List Token
  | [] => []
  | c :: cs =>
    if c = '(' then .opening :: tokenChars cs
    else if c = ')' then .closing :: tokenChars cs
    else if isBlank c then tokenChars cs
    else
      .word (String.ofList (c :: cs.takeWhile isAtomChar)) :: tokenChars (cs.dropWhile isAtomChar)
termination_by cs => cs.length
decreasing_by
  all_goals simp only [List.length_cons]
  · omega
  · omega
  · omega
  · have := (List.dropWhile_suffix (l := cs) isAtomChar).length_le
    omega

def tokens (text : String) : List Token :=
  tokenChars text.toList

end Text

inductive Sexp where
  | word (text : String)
  | list (items : List Sexp)

namespace Sexp

mutual

def tokens : Sexp → List Token
  | word text => [.word text]
  | list items => .opening :: (itemTokens items ++ [.closing])

def itemTokens : List Sexp → List Token
  | [] => []
  | item :: items => tokens item ++ itemTokens items

end

mutual

def value : Sexp → Value
  | word text =>
    match parseNumberExact text with
    | some x => .number x
    | none => .symbol text
  | list items => .list (values items)

def values : List Sexp → List Value
  | [] => []
  | item :: items => value item :: values items

end

end Sexp

end TextLisp
