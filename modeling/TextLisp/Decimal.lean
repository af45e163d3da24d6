namespace TextLisp

/-- A positive double as `m * 2^q`. The gap below it is half the gap above when `m` is the least
significand of a binade other than the lowest. -/
structure Binary where
  m : Nat
  q : Int
  narrowBelow : Bool
  deriving DecidableEq, Repr

structure Decimal where
  coefficient : Nat
  exponent : Int
  deriving DecidableEq, Repr

namespace Binary

def ofFields (exponent fraction : Nat) : Binary :=
  if exponent = 0 then ⟨fraction, -1074, false⟩
  else ⟨fraction + Nat.pow 2 52, (exponent : Int) - 1075, fraction = 0 ∧ 1 < exponent⟩

def scale (b : Binary) (e : Int) : Nat :=
  Nat.pow 2 (b.q - 2).toNat * Nat.pow 10 (-e).toNat

def grid (b : Binary) (e : Int) : Nat :=
  Nat.pow 10 e.toNat * Nat.pow 2 (2 - b.q).toNat

def lowQuarters (b : Binary) : Nat :=
  if b.narrowBelow then 4 * b.m - 1 else 4 * b.m - 2

def highQuarters (b : Binary) : Nat :=
  4 * b.m + 2

/-- Whether `c * 10^e` lies between the midpoints to the neighbours. The midpoints themselves
read back when the significand is even. -/
def ReadsBack (b : Binary) (c : Nat) (e : Int) : Prop :=
  if b.m % 2 = 0 then
    b.lowQuarters * b.scale e ≤ c * b.grid e ∧ c * b.grid e ≤ b.highQuarters * b.scale e
  else
    b.lowQuarters * b.scale e < c * b.grid e ∧ c * b.grid e < b.highQuarters * b.scale e

instance (b : Binary) (c : Nat) (e : Int) : Decidable (b.ReadsBack c e) := by
  unfold ReadsBack
  infer_instance

def below (b : Binary) (e : Int) : Nat :=
  4 * b.m * b.scale e / b.grid e

def nearerBelow (b : Binary) (e : Int) : Bool :=
  2 * (4 * b.m * b.scale e) < (2 * b.below e + 1) * b.grid e

/-- The point of the grid `10^e` that reads back, the nearer of two. A tie goes up. -/
def onGrid? (b : Binary) (e : Int) : Option Nat :=
  if b.ReadsBack (b.below e) e then
    if b.ReadsBack (b.below e + 1) e ∧ b.nearerBelow e = false then some (b.below e + 1)
    else some (b.below e)
  else if b.ReadsBack (b.below e + 1) e then some (b.below e + 1)
  else none

/-- The first hit on the grids `10^e`, `10^(e-1)`, and so on. When none has one within the count,
the decimal below the value on the last grid. -/
def search (b : Binary) : Nat → Int → Decimal
  | 0, e => ⟨b.below e, e⟩
  | count + 1, e =>
    match b.onGrid? e with
    | some c => ⟨c, e⟩
    | none => b.search count (e - 1)

def startExponent (b : Binary) : Int :=
  (b.q + b.m.log2 + 1) * 3 / 10 + 2

/-- The decimal with the fewest digits that reads back. Seventeen digits always suffice, and the
start is at most a few grids above the first. -/
def shortest (b : Binary) : Decimal :=
  b.search 26 b.startExponent

end Binary

def zeros (count : Nat) : List Char :=
  List.replicate count '0'

def Decimal.positional (d : Decimal) : List Char :=
  let digits := (Nat.repr d.coefficient).toList
  let places := (-d.exponent).toNat
  if places = 0 then digits ++ zeros d.exponent.toNat
  else if digits.length ≤ places then '0' :: '.' :: zeros (places - digits.length) ++ digits
  else digits.take (digits.length - places) ++ '.' :: digits.drop (digits.length - places)

def renderNumber (x : Float) : String :=
  let bits := x.toBits.toNat
  let sign := if bits / Nat.pow 2 63 = 1 then "-" else ""
  let exponent := bits / Nat.pow 2 52 % Nat.pow 2 11
  let fraction := bits % Nat.pow 2 52
  if exponent = 2047 then
    if fraction = 0 then sign ++ "inf" else "NaN"
  else if exponent = 0 ∧ fraction = 0 then sign ++ "0"
  else sign ++ String.ofList (Binary.ofFields exponent fraction).shortest.positional

end TextLisp
