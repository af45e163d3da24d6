import TextLisp.Evaluator
import TextLisp.Tree.Basic

/-! Evaluation of trees. Closures hold the names and the tree that were read when they were made, so
no text is split while the program runs. -/
namespace TextLisp

structure Code where
  names : List String
  text : String
  tree : Tree

namespace Tree

abbrev TreeDescent := Descent Tree Code

def evaluateDefine (descend : TreeDescent) (env : Environment) :
    List Tree → RunOver Code (Value Code)
  | [name, expr] => do
    requireNew name.text
    let value ← descend env expr
    bindGlobal name.text value
  | operands => Run.ofExcept (Keyword.define.refuse (.operandCount 2 operands.length))

def evaluateAssign (descend : TreeDescent) (env : Environment) :
    List Tree → RunOver Code (Value Code)
  | [name, expr] => do
    let owner ← locate env name.text
    let value ← descend env expr
    overwrite owner name.text value
  | operands => Run.ofExcept (Keyword.assign.refuse (.operandCount 2 operands.length))

def evaluateQuote : List Tree → RunOver Code (Value Code)
  | [expr] => return expr.datum
  | operands => Run.ofExcept (Keyword.quote.refuse (.operandCount 1 operands.length))

def parameterNames : Tree → Except Error (List String)
  | node _ children => do
    requireDistinct [] (children.map Tree.text)
    return children.map Tree.text
  | atom text => Keyword.lambda.refuse (.unbracketedParameters text)

def evaluateLambda (env : Environment) : List Tree → RunOver Code (Value Code)
  | [params, body] => do
    let names ← Run.ofExcept params.parameterNames
    makeClosure params.text ⟨names, body.text, body⟩ env
  | operands => Run.ofExcept (Keyword.lambda.refuse (.operandCount 2 operands.length))

/-- Applies a closure. Its names and its tree are used as they are. -/
def applyClosure (descend : TreeDescent) (env : Environment) (c : Closure Code)
    (args : List (Value Code)) : RunOver Code (Value Code) := do
  let inner ← enterClosure (env.splice c.env) c.params c.body.text c.body.names args
  descend inner c.body.tree

def evaluateSiblings (host : Host Code) (descend : TreeDescent) (env : Environment)
    (text : String) : List Tree → RunOver Code (Value Code)
  | [] => Run.fail (.noInterpretation text)
  | head :: operands =>
    match Keyword.ofText? head.text with
    | some .define => evaluateDefine descend env operands
    | some .conditional => evaluateConditional descend env operands
    | some .quote => evaluateQuote operands
    | some .lambda => evaluateLambda env operands
    | some .assign => evaluateAssign descend env operands
    | none => evaluateApplication host (applyClosure descend env) descend env head operands

def evaluateTree (host : Host Code) (descend : TreeDescent) (depth : Nat) (env : Environment)
    (tree : Tree) : RunOver Code (Value Code) := do
  Run.record (.evaluate depth tree.text)
  match tree with
  | atom text => evaluateAtom env text
  | node text children => evaluateSiblings host descend env text children

def evaluate (host : Host Code) : (remaining depth : Nat) → TreeDescent
  | 0, depth, _, _ => Run.fail (.depthExceeded depth)
  | remaining + 1, depth, env, tree =>
    evaluateTree host (evaluate host remaining (depth + 1)) depth env tree

end Tree

end TextLisp
