import TextLisp.Table
import TextLisp.Value.Printer

namespace TextLisp

variable {β : Type}

namespace Value

def toNumber (operation : String) (expected : Expectation) : Value β → Except Error Float
  | .number x => .ok x
  | v => .error (.typeMismatch (.argument operation expected v.kind v.render))

/-- The numbers that an operation asks for. The first argument of another kind is reported. -/
def toNumbers (operation : String) : List (Value β) → Except Error (List Float)
  | [] => .ok []
  | v :: vs => do
    let x ← v.toNumber operation .numbers
    let xs ← toNumbers operation vs
    return x :: xs

def toNonEmpty (operation : String) : Value β → Except Error (Value β × List (Value β))
  | .list (v :: vs) => .ok (v, vs)
  | v => .error (.typeMismatch (.argument operation .nonEmptyList v.kind v.render))

def isEmpty : Value β → Bool
  | .nil => true
  | .list items => items.isEmpty
  | _ => false

end Value

def chained (related : Float → Float → Bool) : List Float → Bool
  | x :: y :: rest => related x y && chained related (y :: rest)
  | _ => true

def sum (xs : List Float) : Float :=
  xs.foldl (· + ·) 0

def product (xs : List Float) : Float :=
  xs.foldl (· * ·) 1

/-- The first number less the sum of the others. A single number is negated. -/
def difference : List Float → Option Float
  | [] => none
  | [x] => some (-x)
  | x :: xs => some (x - sum xs)

/-- The first number over the product of the others. A single number is inverted. -/
def quotient : List Float → Option Float
  | [] => none
  | [x] => some (1 / x)
  | x :: xs => some (x / product xs)

/-- The greatest number. A number replaces the one so far when it is at least as great, so of two
zeros the later one counts, and those that compare with nothing are passed over. -/
def greatest (xs : List Float) : Float :=
  xs.foldl (fun best x => if best ≤ x then x else best) (-1 / 0)

/-- The least number. Of two zeros the later one counts here too. -/
def least (xs : List Float) : Float :=
  xs.foldl (fun best x => if x ≤ best then x else best) (1 / 0)

namespace Builtin

def id : Builtin → String
  | add => "+"
  | sub => "-"
  | mul => "*"
  | div => "/"
  | abs => "abs"
  | expt => "expt"
  | max => "max"
  | min => "min"
  | less => "<"
  | lessEq => "<="
  | greater => ">"
  | greaterEq => ">="
  | car => "car"
  | cdr => "cdr"
  | cons => "cons"
  | list => "list"
  | isNull => "null?"
  | equal => "equal?"
  | not => "not"

def arity : Builtin → Arity
  | add | mul | list => .any
  | sub | div | max | min => .atLeast 1
  | less | lessEq | greater | greaterEq => .atLeast 2
  | abs | car | cdr | isNull | not => .exact 1
  | expt | cons | equal => .exact 2

def all : List Builtin :=
  [add, sub, mul, div, abs, expt, max, min, less, lessEq, greater, greaterEq,
    car, cdr, cons, list, isNull, equal, not]

def ofId? (name : String) : Option Builtin :=
  all.find? fun operation => operation.id == name

def toValue (operation : Builtin) : Value β :=
  .procedure (.primitive ⟨operation.id, operation.arity, .builtin operation⟩)

def relation : Builtin → Float → Float → Bool
  | less => fun x y => x < y
  | lessEq => fun x y => x ≤ y
  | greater => fun x y => y < x
  | greaterEq => fun x y => y ≤ x
  | _ => fun _ _ => false

def refuseCount (arity : Arity) (args : List (Value β)) : Except Error (Value β) :=
  .error (.arityMismatch arity args.length)

/-- What is calculated from the numbers that all arguments are. Some calculations need one to begin
with. -/
def onNumbers (operation : String) (f : List Float → Option (Value β)) (args : List (Value β)) :
    Except Error (Value β) := do
  let xs ← Value.toNumbers operation args
  match f xs with
  | some v => return v
  | none => refuseCount (.atLeast 1) args

def onOne (f : Value β → Except Error (Value β)) : List (Value β) → Except Error (Value β)
  | [v] => f v
  | args => refuseCount (.exact 1) args

def onTwo (f : Value β → Value β → Except Error (Value β)) :
    List (Value β) → Except Error (Value β)
  | [v, w] => f v w
  | args => refuseCount (.exact 2) args

/-- The list with an item in front. Nil stands for the empty one. -/
def attach (item : Value β) : Value β → Except Error (Value β)
  | .list items => .ok (.list (item :: items))
  | .nil => .ok (.list [item])
  | v => .error (.typeMismatch (.argument cons.id .listTail v.kind v.render))

def apply (operation : Builtin) (args : List (Value β)) : Except Error (Value β) :=
  match operation with
  | add => onNumbers operation.id (fun xs => some (.number (sum xs))) args
  | mul => onNumbers operation.id (fun xs => some (.number (product xs))) args
  | sub => onNumbers operation.id (fun xs => (difference xs).map .number) args
  | div => onNumbers operation.id (fun xs => (quotient xs).map .number) args
  | max => onNumbers operation.id (fun xs => some (.number (greatest xs))) args
  | min => onNumbers operation.id (fun xs => some (.number (least xs))) args
  | less | lessEq | greater | greaterEq =>
    onNumbers operation.id (fun xs => some (.bool (chained operation.relation xs))) args
  | abs => args |> onOne fun v => do
    let x ← v.toNumber operation.id .number
    return .number x.abs
  | expt => args |> onTwo fun v w => do
    let x ← v.toNumber operation.id .number
    let y ← w.toNumber operation.id .number
    return .number (x.pow y)
  | car => args |> onOne fun v => do
    let parts ← v.toNonEmpty operation.id
    return parts.1
  | cdr => args |> onOne fun v => do
    let parts ← v.toNonEmpty operation.id
    return .list parts.2
  | cons => onTwo attach args
  | list => .ok (.list args)
  | isNull => onOne (fun v => .ok (.bool v.isEmpty)) args
  | equal => onTwo (fun v w => .ok (.bool (v.equal w))) args
  | not => onOne (fun v => .ok (.bool !v.isTrue)) args

/-- Folded numbers: an argument that is no number fails first, and then the count may be refused. -/
theorem onNumbers_cases (operation : String) (f : List Float → Option (Value β))
    (args : List (Value β)) :
    (∃ e, Value.toNumbers operation args = .error e ∧ onNumbers operation f args = .error e) ∨
      ∃ xs, Value.toNumbers operation args = .ok xs ∧
        ((∃ v, f xs = some v ∧ onNumbers operation f args = .ok v) ∨
          f xs = none ∧ onNumbers operation f args = refuseCount (.atLeast 1) args) := by
  unfold onNumbers
  cases hxs : Value.toNumbers operation args with
  | error e => exact Or.inl ⟨e, rfl, rfl⟩
  | ok xs =>
    refine Or.inr ⟨xs, rfl, ?_⟩
    simp only [bind, Except.bind]
    cases f xs with
    | some v => exact Or.inl ⟨v, rfl, rfl⟩
    | none => exact Or.inr ⟨rfl, rfl⟩

theorem onOne_cases (f : Value β → Except Error (Value β)) (args : List (Value β)) :
    (∃ v, args = [v] ∧ onOne f args = f v) ∨
      args.length ≠ 1 ∧ onOne f args = refuseCount (.exact 1) args := by
  match args with
  | [v] => exact Or.inl ⟨v, rfl, rfl⟩
  | [] => exact Or.inr ⟨Nat.zero_ne_one, rfl⟩
  | v :: w :: rest => exact Or.inr ⟨by simp, rfl⟩

theorem onTwo_cases (f : Value β → Value β → Except Error (Value β)) (args : List (Value β)) :
    (∃ v w, args = [v, w] ∧ onTwo f args = f v w) ∨
      args.length ≠ 2 ∧ onTwo f args = refuseCount (.exact 2) args := by
  match args with
  | [v, w] => exact Or.inl ⟨v, w, rfl, rfl⟩
  | [] | [v] => exact Or.inr ⟨by simp, rfl⟩
  | v :: w :: u :: rest => exact Or.inr ⟨by simp, rfl⟩

end Builtin

/-- The procedures that the embedding program supplies, by name. -/
abbrev Host (β : Type := String) := String → List (Value β) → Except Error (Value β)

def Operation.apply (host : Host β) : Operation → List (Value β) → Except Error (Value β)
  | .builtin operation, args => operation.apply args
  | .host name, args => host name args

def constants : List (String × Value β) :=
  [("pi", .number 3.141592653589793), ("#t", .bool true), ("#f", .bool false), ("nil", .nil)]

def aliases : List (String × String) :=
  [("=", "equal?")]

def initialGlobals : Table (Value β) :=
  Table.ofList (Builtin.all.map (fun operation => (operation.id, operation.toValue)) ++
    constants ++ aliases.map fun (name, target) => (name, .aliasTo target))

end TextLisp
