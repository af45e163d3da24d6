namespace TextLisp

inductive Arity where
  | any
  | exact (count : Nat)
  | atLeast (count : Nat)
  deriving DecidableEq, Repr

namespace Arity

def Accepts : Arity → Nat → Prop
  | .any, _ => True
  | .exact count, got => got = count
  | .atLeast count, got => count ≤ got

instance (arity : Arity) (got : Nat) : Decidable (arity.Accepts got) := by
  cases arity <;> unfold Accepts <;> infer_instance

def render : Arity → String
  | .any => "any number of"
  | .exact count => toString count
  | .atLeast count => "at least " ++ toString count

def describe : Arity → String
  | .any => "Any"
  | .exact count => "Exact(" ++ toString count ++ ")"
  | .atLeast count => "AtLeast(" ++ toString count ++ ")"

end Arity

inductive Kind where
  | number | symbol | list | boolean | nil | procedure | aliasTo | unspecified
  deriving DecidableEq, Repr

def Kind.name : Kind → String
  | .number => "number"
  | .symbol => "symbol"
  | .list => "list"
  | .boolean => "boolean"
  | .nil => "nil"
  | .procedure => "procedure"
  | .aliasTo => "alias"
  | .unspecified => "unspecified"

/-- Why a text is not what the reader expects at its place. A form is bracketed text. -/
inductive ReadFault where
  /-- A nested form does not end; the text begins with its opening bracket. -/
  | unterminated (excerpt : String)
  /-- The outer form does not end; the text is what follows its opening bracket. -/
  | unclosed (inner : String)
  /-- The text does not begin with a bracket. -/
  | notAForm (text : String)
  /-- Text follows the form. -/
  | trailing (rest : String)
  /-- The text is neither one atom nor one form, where data is read. -/
  | strayDelimiter (text : String)
  /-- The text is neither one atom nor one form, where it is evaluated. -/
  | notSingle (text : String)
  /-- A fault reported by the embedding program. -/
  | reported (text : String)
  deriving DecidableEq, Repr

inductive FormFault where
  | operandCount (expected got : Nat)
  | notAName (text : String)
  | noValue
  | unbracketedParameters (text : String)
  | duplicateParameter (name : String)
  /-- A fault reported by the embedding program. -/
  | reported (text : String)
  deriving DecidableEq, Repr

inductive Expectation where
  | numbers | number | nonEmptyList | listTail
  deriving DecidableEq, Repr

/-- Why a value cannot be used where it stands. The value itself is kept as its kind and text. -/
inductive TypeFault where
  | argument (operation : String) (expected : Expectation) (kind : Kind) (shown : String)
  | notProcedure (kind : Kind) (shown : String)
  /-- A fault reported by a host procedure or the embedding program. -/
  | reported (text : String)
  deriving DecidableEq, Repr

inductive Error where
  | malformedForm (form : String) (fault : FormFault)
  | unboundVariable (name : String)
  | redefinition (name : String)
  | arityMismatch (expected : Arity) (got : Nat)
  | invalidSubform (fault : ReadFault)
  | noInterpretation (text : String)
  | typeMismatch (fault : TypeFault)
  | depthExceeded (limit : Nat)
  deriving DecidableEq, Repr

def ReadFault.message : ReadFault → String
  | .unterminated excerpt => "unterminated form '" ++ excerpt ++ "'"
  | .unclosed inner => "missing ')' to close '(" ++ inner ++ "'"
  | .notAForm text => "expected '(' at '" ++ text ++ "'"
  | .trailing rest => "unexpected input after form: '" ++ rest ++ "'"
  | .strayDelimiter text => "stray delimiter in '" ++ text ++ "'"
  | .notSingle text => "not a single expression: '" ++ text ++ "'"
  | .reported text => text

def FormFault.message : FormFault → String
  | .operandCount expected got =>
    "expected " ++ toString expected ++ " sub-expressions, got " ++ toString got
  | .notAName text => "expected a name, got '" ++ text ++ "'"
  | .noValue => "value expression produced no value"
  | .unbracketedParameters text => "parameter list must be bracketed, got '" ++ text ++ "'"
  | .duplicateParameter name => "duplicate parameter '" ++ name ++ "'"
  | .reported text => text

def Expectation.text : Expectation → String
  | .numbers => "numbers"
  | .number => "a number"
  | .nonEmptyList => "a non-empty list"
  | .listTail => "a list as second argument"

def TypeFault.message : TypeFault → String
  | .argument operation expected kind shown =>
    operation ++ " expects " ++ expected.text ++ ", got " ++ kind.name ++ " " ++ shown
  | .notProcedure kind shown => "cannot apply " ++ kind.name ++ " " ++ shown
  | .reported text => text

namespace Error

def message : Error → String
  | malformedForm form fault => "malformed " ++ form ++ ": " ++ fault.message
  | unboundVariable name => "unbound variable: " ++ name
  | redefinition name => "cannot redefine " ++ name
  | arityMismatch expected got =>
    "invalid number of arguments: expected " ++ expected.render ++ ", got " ++ toString got
  | invalidSubform fault => "invalid sub-expression: " ++ fault.message
  | noInterpretation text => "input invalid for all interpreters: " ++ text
  | typeMismatch fault => "type error: " ++ fault.message
  | depthExceeded limit => "evaluation depth limit exceeded (max: " ++ toString limit ++ ")"

/-- Faults of the language are those of the text itself. A wrong type and an exhausted depth
belong to the run. -/
def isSyntax : Error → Bool
  | typeMismatch _ | depthExceeded _ => false
  | _ => true

end Error

def Arity.check (arity : Arity) (got : Nat) : Except Error Unit :=
  if arity.Accepts got then .ok () else .error (.arityMismatch arity got)

end TextLisp
