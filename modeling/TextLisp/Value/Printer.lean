import TextLisp.Decimal
import TextLisp.Value.Basic

namespace TextLisp.Value

variable {β : Type}

mutual

def render : Value β → String
  | number x => renderNumber x
  | symbol text => text
  | list items => "(" ++ renderItems items ++ ")"
  | bool true => "#t"
  | bool false => "#f"
  | nil => "nil"
  | procedure (.primitive p) => "#<builtin:" ++ p.id ++ ">"
  | procedure (.closure c) => "#<lambda " ++ c.params ++ ">"
  | aliasTo target => "#<alias:" ++ target ++ ">"
  | unspecified => "#<unspecified>"

def renderItems : List (Value β) → String
  | [] => ""
  | [v] => render v
  | v :: w :: rest => render v ++ " " ++ renderItems (w :: rest)

end

mutual

def describe : Value → String
  | number x => "Number(" ++ renderNumber x ++ ")"
  | symbol text => "Symbol(" ++ text ++ ")"
  | list items => "List([" ++ describeItems items ++ "])"
  | bool true => "Bool(true)"
  | bool false => "Bool(false)"
  | nil => "Nil"
  | procedure (.primitive p) => "Primitive(" ++ p.id ++ ")"
  | procedure (.closure c) => "Closure(params=" ++ c.params ++ ", body=" ++ c.body ++ ")"
  | aliasTo target => "Alias(" ++ target ++ ")"
  | unspecified => "Unspecified"

def describeItems : List Value → String
  | [] => ""
  | [v] => describe v
  | v :: w :: rest => describe v ++ ", " ++ describeItems (w :: rest)

end

end TextLisp.Value
