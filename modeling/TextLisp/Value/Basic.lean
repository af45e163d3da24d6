import TextLisp.Error

/-! Values: data, procedures, and the two marks that are not data, aliases and the result of
binding forms. What the body of a closure is kept as is left open. It is text unless something else
is said. -/
namespace TextLisp

inductive Builtin where
  | add | sub | mul | div | abs | expt | max | min
  | less | lessEq | greater | greaterEq
  | car | cdr | cons | list | isNull
  | equal | not
  deriving DecidableEq, Repr

/-- What a primitive does: an operation of the language, or a host procedure by its name in the
embedding program. -/
inductive Operation where
  | builtin (operation : Builtin)
  | host (name : String)
  deriving DecidableEq, Repr

structure Primitive where
  id : String
  arity : Arity
  operation : Operation
  deriving DecidableEq, Repr

structure Environment where
  frames : List Nat
  deriving DecidableEq, Repr

/-- A procedure made by `lambda`. The captured chain shares its tables with the place where the
closure was made. -/
structure Closure (β : Type := String) where
  identity : Nat
  params : String
  body : β
  env : Environment
  deriving DecidableEq, Repr

inductive Procedure (β : Type := String) where
  | primitive (p : Primitive)
  | closure (c : Closure β)
  deriving DecidableEq, Repr

def Procedure.equal {β : Type} : Procedure β → Procedure β → Bool
  | .primitive a, .primitive b => a.id == b.id
  | .closure a, .closure b => a.identity == b.identity
  | _, _ => false

inductive Value (β : Type := String) where
  | number (x : Float)
  | symbol (text : String)
  | list (items : List (Value β))
  | bool (b : Bool)
  | nil
  | procedure (p : Procedure β)
  /-- A binding that stands for another global name. -/
  | aliasTo (target : String)
  /-- What `define` and `set!` produce. -/
  | unspecified

namespace Value

variable {β : Type}

def ofInt (n : Int) : Value β :=
  number (Float.ofInt n)

def kind : Value β → Kind
  | number _ => .number
  | symbol _ => .symbol
  | list _ => .list
  | bool _ => .boolean
  | nil => .nil
  | procedure _ => .procedure
  | aliasTo _ => .aliasTo
  | unspecified => .unspecified

def isTrue : Value β → Bool
  | bool false => false
  | nil => false
  | _ => true

def isUnspecified : Value β → Bool
  | unspecified => true
  | _ => false

mutual

/-- Equality as the language sees it. Numbers are compared as doubles, and the unspecified mark
equals nothing. -/
def equal : Value β → Value β → Bool
  | number a, number b => a == b
  | symbol a, symbol b => a == b
  | list as, list bs => equalItems as bs
  | bool a, bool b => a == b
  | nil, nil => true
  | procedure a, procedure b => a.equal b
  | aliasTo a, aliasTo b => a == b
  | _, _ => false

def equalItems : List (Value β) → List (Value β) → Bool
  | [], [] => true
  | a :: as, b :: bs => equal a b && equalItems as bs
  | _, _ => false

end

end Value

end TextLisp
