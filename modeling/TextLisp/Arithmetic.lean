import TextLisp.Builtin
import TextLisp.Text.Grammar

namespace TextLisp

structure NumeralAtom where
  text : String
  value : Float
  isAtom : Text.isAtom text = true
  parses : parseNumberExact text = some value

inductive Operator where
  | add | sub | mul | div
  deriving DecidableEq, Repr

namespace Operator

def builtin : Operator → Builtin
  | add => .add
  | sub => .sub
  | mul => .mul
  | div => .div

/-- The number that an operator makes of one number and the others behind it. Sums and products
are folded from the left, from zero and from one. A single number is negated or inverted, and
otherwise the first number meets the sum or the product of the others. -/
def combine : Operator → Float → List Float → Float
  | add, x, xs => (x :: xs).foldl (· + ·) 0
  | mul, x, xs => (x :: xs).foldl (· * ·) 1
  | sub, x, [] => -x
  | sub, x, y :: ys => x - (y :: ys).foldl (· + ·) 0
  | div, x, [] => 1 / x
  | div, x, y :: ys => x / (y :: ys).foldl (· * ·) 1

end Operator

inductive Arithmetic where
  | numeral (n : NumeralAtom)
  | node (operator : Operator) (first : Arithmetic) (rest : List Arithmetic)

namespace Arithmetic

mutual

def value : Arithmetic → Float
  | numeral n => n.value
  | node operator first rest => operator.combine first.value (values rest)

def values : List Arithmetic → List Float
  | [] => []
  | e :: es => e.value :: values es

end

mutual

def height : Arithmetic → Nat
  | numeral _ => 0
  | node _ first rest => max (first.height + 1) (levels rest)

def levels : List Arithmetic → Nat
  | [] => 0
  | e :: es => max (e.height + 1) (levels es)

end

mutual

def sexp : Arithmetic → Sexp
  | numeral n => .word n.text
  | node operator first rest =>
    .list (.word operator.builtin.id :: first.sexp :: sexps rest)

def sexps : List Arithmetic → List Sexp
  | [] => []
  | e :: es => e.sexp :: sexps es

end

/-- The text is one of the expression: brackets and atoms are those of its form, in that order, with
any blanks between them that keep the atoms apart. -/
def IsWritten (e : Arithmetic) (text : String) : Prop :=
  Text.tokens text = e.sexp.tokens

end Arithmetic

end TextLisp
