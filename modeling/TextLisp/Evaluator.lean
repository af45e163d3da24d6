import TextLisp.Datum
import TextLisp.Keyword
import TextLisp.Run

/-! Evaluation of text. A form is split when it is reached, and the text of a closure's body is
split again at every call. -/
namespace TextLisp

variable {ε β : Type}

abbrev Descent (ε : Type := String) (β : Type := String) := Environment → ε → RunOver β (Value β)

/-- What an atom stands for: the value that it names, else the numeral that it is. -/
def atomValue (env : Environment) (s : Store β) (text : String) : Except Error (Value β) :=
  if text == "" then .error (.noInterpretation "")
  else if !Text.isAtom text then .error (.invalidSubform (.notSingle text))
  else
    match env.resolve s text with
    | .ok value => .ok value
    | .error name =>
      if name != text then .error (.unboundVariable name)
      else
        match parseNumberExact text with
        | some x => .ok (.number x)
        | none =>
          if looksNumeric text then .error (.noInterpretation text)
          else .error (.unboundVariable text)

def evaluateAtom (env : Environment) (text : String) : RunOver β (Value β) := do
  let s ← Run.store
  Run.ofExcept (atomValue env s text)

def requireUnbound (globals : Table (Value β)) (name : String) : Except Error Unit :=
  if globals.contains name then .error (.redefinition name) else .ok ()

def requireNew (name : String) : RunOver β Unit := do
  Run.ofExcept (requireName .define name)
  let s ← Run.store
  Run.ofExcept (requireUnbound s.globals name)

def bindGlobal (name : String) (value : Value β) : RunOver β (Value β) := do
  Run.ofExcept (requireBindable .define value)
  Run.record (.define name value.render)
  Run.update fun s => s.define name value
  return .unspecified

def evaluateDefine (descend : Descent) (env : Environment) : List String → Run Value
  | [name, expr] => do
    requireNew name
    let value ← descend env expr
    bindGlobal name value
  | operands => Run.ofExcept (Keyword.define.refuse (.operandCount 2 operands.length))

def locate (env : Environment) (name : String) : RunOver β Owner := do
  Run.ofExcept (requireName .assign name)
  let s ← Run.store
  match env.owner? s name with
  | none => Run.fail (.unboundVariable name)
  | some owner => return owner

def overwrite (owner : Owner) (name : String) (value : Value β) : RunOver β (Value β) := do
  Run.ofExcept (requireBindable .assign value)
  Run.record (.assign name value.render)
  Run.update fun s => s.assign owner name value
  return .unspecified

/-- `(set! name expr)` overwrites the innermost binding of a name. The owner of the name is found
before the expression is evaluated. -/
def evaluateAssign (descend : Descent) (env : Environment) : List String → Run Value
  | [name, expr] => do
    let owner ← locate env name
    let value ← descend env expr
    overwrite owner name value
  | operands => Run.ofExcept (Keyword.assign.refuse (.operandCount 2 operands.length))

/-- `(if test first second)` evaluates one branch only. -/
def evaluateConditional (descend : Descent ε β) (env : Environment) :
    List ε → RunOver β (Value β)
  | [test, first, second] => do
    let value ← descend env test
    descend env (if value.isTrue then first else second)
  | operands => Run.ofExcept (Keyword.conditional.refuse (.operandCount 3 operands.length))

def evaluateQuote : List String → Run Value
  | [expr] => Run.ofExcept (datum expr)
  | operands => Run.ofExcept (Keyword.quote.refuse (.operandCount 1 operands.length))

def makeClosure (params : String) (body : β) (env : Environment) : RunOver β (Value β) := do
  Run.record (.lambda params env.depth)
  Run.newClosure params body env

def evaluateLambda (env : Environment) : List String → Run Value
  | [params, body] => do
    let _ ← Run.ofExcept (parameterNames params)
    makeClosure params body env
  | operands => Run.ofExcept (Keyword.lambda.refuse (.operandCount 2 operands.length))

def evaluateOperands (descend : Descent ε β) (env : Environment) :
    List ε → RunOver β (List (Value β))
  | [] => return []
  | operand :: operands => do
    let value ← descend env operand
    let values ← evaluateOperands descend env operands
    return value :: values

/-- Binds parameters to arguments in a frame of their own. Without parameters no frame is added. -/
def bindParameters (scope : Environment) (names : List String) (args : List (Value β)) :
    RunOver β Environment :=
  if names.isEmpty then return scope else Run.extend scope (names.zip args)

def enterClosure (scope : Environment) (params body : String) (names : List String)
    (args : List (Value β)) : RunOver β Environment := do
  Run.ofExcept ((Arity.exact names.length).check args.length)
  Run.record (.apply params args.length body)
  bindParameters scope names args

/-- Applies a closure. The body sees the parameters, then the caller's frames, then the captured
ones. -/
def applyClosure (descend : Descent) (env : Environment) (c : Closure) (args : List Value) :
    Run Value := do
  let names ← Run.ofExcept (parameterNames c.params)
  let inner ← enterClosure (env.splice c.env) c.params c.body names args
  descend inner c.body

def applyProcedure (host : Host β) (call : Closure β → List (Value β) → RunOver β (Value β))
    (args : List (Value β)) : Procedure β → RunOver β (Value β)
  | .primitive p => do
    Run.ofExcept (p.arity.check args.length)
    Run.ofExcept (p.operation.apply host args)
  | .closure c => call c args

/-- Applies what a head stands for. What is no procedure is refused before any operand is
evaluated. -/
def applyHead (host : Host β) (call : Closure β → List (Value β) → RunOver β (Value β))
    (descend : Descent ε β) (env : Environment) (operands : List ε) :
    Value β → RunOver β (Value β)
  | .procedure p => do
    let args ← evaluateOperands descend env operands
    applyProcedure host call args p
  | other => Run.fail (.typeMismatch (.notProcedure other.kind other.render))

def evaluateApplication (host : Host β) (call : Closure β → List (Value β) → RunOver β (Value β))
    (descend : Descent ε β) (env : Environment) (head : ε) (operands : List ε) :
    RunOver β (Value β) := do
  let value ← descend env head
  applyHead host call descend env operands value

/-- Evaluates a form of which the siblings are known. Keywords are looked at before any binding, so
no binding hides a special form. -/
def evaluateSiblings (host : Host) (descend : Descent) (env : Environment) (text : String) :
    List String → Run Value
  | [] => Run.fail (.noInterpretation text)
  | head :: operands =>
    match Keyword.ofText? head with
    | some .define => evaluateDefine descend env operands
    | some .conditional => evaluateConditional descend env operands
    | some .quote => evaluateQuote operands
    | some .lambda => evaluateLambda env operands
    | some .assign => evaluateAssign descend env operands
    | none => evaluateApplication host (applyClosure descend env) descend env head operands

def evaluateForm (host : Host) (descend : Descent) (env : Environment) (text : String) :
    Run Value := do
  let siblings ← Run.ofExcept (Text.splitForm text)
  evaluateSiblings host descend env text siblings

def evaluateText (host : Host) (descend : Descent) (depth : Nat) (env : Environment)
    (text : String) : Run Value := do
  let text := Text.trim text
  Run.record (.evaluate depth text)
  if isBracketed text then evaluateForm host descend env text else evaluateAtom env text

/-- Evaluates a text at a depth, with `remaining` levels left before the limit. Every
sub-expression is one level deeper. With no level left the evaluation fails, and the depth it
reports is the limit. -/
def evaluate (host : Host) : (remaining depth : Nat) → Descent
  | 0, depth, _, _ => Run.fail (.depthExceeded depth)
  | remaining + 1, depth, env, text =>
    evaluateText host (evaluate host remaining (depth + 1)) depth env text

def defaultLimit : Nat := 320

def evaluateLine (host : Host) (limit : Nat) (line : String) : Run Value :=
  evaluate host limit 0 Environment.empty line

end TextLisp
