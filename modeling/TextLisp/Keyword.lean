import TextLisp.Numeral
import TextLisp.Text.Form
import TextLisp.Value.Basic

namespace TextLisp

inductive Keyword where
  | define | conditional | quote | lambda | assign
  deriving DecidableEq, Repr

namespace Keyword

def text : Keyword → String
  | define => "define"
  | conditional => "if"
  | quote => "quote"
  | lambda => "lambda"
  | assign => "set!"

def all : List Keyword :=
  [define, conditional, quote, lambda, assign]

def ofText? (text : String) : Option Keyword :=
  all.find? fun keyword => keyword.text == text

def refuse {α : Type} (keyword : Keyword) (fault : FormFault) : Except Error α :=
  .error (.malformedForm keyword.text fault)

end Keyword

def isBracketed (text : String) : Bool :=
  text.toList.head? == some '('

def isName (text : String) : Bool :=
  Text.isAtom text && (parseNumberExact text).isNone

def requireName (keyword : Keyword) (text : String) : Except Error Unit :=
  if isName text then .ok () else keyword.refuse (.notAName text)

def requireBindable {β : Type} (keyword : Keyword) (value : Value β) : Except Error Unit :=
  if value.isUnspecified then keyword.refuse .noValue else .ok ()

def requireDistinct (before : List String) : List String → Except Error Unit
  | [] => .ok ()
  | name :: names => do
    requireName .lambda name
    if before.contains name then Keyword.lambda.refuse (.duplicateParameter name)
    else requireDistinct (name :: before) names

def parameterNames (text : String) : Except Error (List String) :=
  if isBracketed text then do
    let names ← Text.splitForm text
    requireDistinct [] names
    return names
  else Keyword.lambda.refuse (.unbracketedParameters text)

end TextLisp
