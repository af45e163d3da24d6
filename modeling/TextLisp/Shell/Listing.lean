import TextLisp.Run
import TextLisp.Shell.Messages
import TextLisp.Text.Form

namespace TextLisp.Shell

def cell (name : String) : List Char :=
  ' ' :: ' ' :: name.toList ++ List.replicate (10 - name.length) ' '

def row (names : List String) : String :=
  line (String.ofList (Text.dropBlankEnd (names.flatMap cell)))

def rows : List String → String
  | a :: b :: c :: d :: rest => row [a, b, c, d] ++ rows rest
  | [] => ""
  | names => row names

def isPrimitive : Value → Bool
  | .procedure (.primitive _) => true
  | _ => false

def primitiveSection (names : List String) : String :=
  if names.isEmpty then ""
  else line ("Primitives (" ++ toString names.length ++ "):") ++ rows names ++ line ""

def valueSection (bindings : List (String × Value)) : String :=
  if bindings.isEmpty then ""
  else
    line ("Values (" ++ toString bindings.length ++ "):") ++
      block (bindings.map fun (name, value) => "  " ++ name ++ " = " ++ value.render)

/-- The listing of all globals. Whether a name counts as a primitive is decided by its current
value. -/
def listing (globals : Table Value) : String :=
  let bindings := globals.sorted
  if bindings.isEmpty then line "Environment is empty."
  else
    line ("Global bindings (" ++ toString bindings.length ++ " total):") ++ line "" ++
      primitiveSection ((bindings.filter fun binding => isPrimitive binding.2).map Prod.fst) ++
      valueSection (bindings.filter fun binding => !isPrimitive binding.2)

end TextLisp.Shell
