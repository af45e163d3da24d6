namespace TextLisp

/-- The parts of a numeral. Every list of digits is non-empty. -/
structure Numeral where
  negative : Bool
  integer : List Char
  fraction : Option (List Char)
  /-- The exponent's sign, set when it is negative, and its digits. -/
  exponent : Option (Bool × List Char)
  deriving DecidableEq, Repr

namespace Numeral

/-- The longest run of decimal digits at the front, when there is one. Only ASCII digits count. -/
def digits? (cs : List Char) : Option (List Char × List Char) :=
  match cs.takeWhile Char.isDigit with
  | [] => none
  | d :: ds => some (d :: ds, cs.dropWhile Char.isDigit)

/-- An optional point with digits. A point without digits is left unread. -/
def readFraction (cs : List Char) : Option (List Char) × List Char :=
  match cs with
  | '.' :: rest =>
    match digits? rest with
    | some (ds, rest') => (some ds, rest')
    | none => (none, cs)
  | _ => (none, cs)

def readSign : List Char → Bool × List Char
  | '-' :: rest => (true, rest)
  | '+' :: rest => (false, rest)
  | cs => (false, cs)

/-- An optional exponent. One without digits is left unread. -/
def readExponent (cs : List Char) : Option (Bool × List Char) × List Char :=
  match cs with
  | c :: rest =>
    if c = 'e' ∨ c = 'E' then
      match digits? (readSign rest).2 with
      | some (ds, rest') => (some ((readSign rest).1, ds), rest')
      | none => (none, cs)
    else (none, cs)
  | [] => (none, cs)

def dropSpace : List Char → List Char
  | ' ' :: rest => rest
  | cs => cs

def readMinus : List Char → Bool × List Char
  | '-' :: rest => (true, rest)
  | cs => (false, cs)

def read? (cs : List Char) : Option (Numeral × List Char) :=
  let (negative, afterSign) := readMinus (dropSpace cs)
  match digits? afterSign with
  | none => none
  | some (integer, afterInteger) =>
    let (fraction, afterFraction) := readFraction afterInteger
    let (exponent, rest) := readExponent afterFraction
    some (⟨negative, integer, fraction, exponent⟩, rest)

def digitValue (c : Char) : Float :=
  Float.ofNat (c.toNat - '0'.toNat)

def accumulate (digits : List Char) : Float :=
  digits.foldl (fun total c => total * 10 + digitValue c) 0

def scale (digits : List Char) : Float :=
  digits.foldl (fun product _ => product * 10) 1

def mantissa (n : Numeral) : Float :=
  match n.fraction with
  | none => accumulate n.integer
  | some ds => accumulate n.integer + accumulate ds / scale ds

def magnitude (n : Numeral) : Float :=
  match n.exponent with
  | none => n.mantissa
  | some (true, ds) => n.mantissa * Float.pow 10 (-accumulate ds)
  | some (false, ds) => n.mantissa * Float.pow 10 (accumulate ds)

def value (n : Numeral) : Float :=
  if n.negative then -n.magnitude else n.magnitude

end Numeral

def parseNumber (text : String) : Option (Float × String) :=
  (Numeral.read? text.toList).map fun (n, rest) => (n.value, String.ofList rest)

def parseNumberExact (text : String) : Option Float :=
  match Numeral.read? text.toList with
  | some (n, []) => some n.value
  | _ => none

def looksNumeric (text : String) : Bool :=
  match text.toList with
  | '-' :: c :: _ => c.isDigit || c == '.'
  | c :: _ => c.isDigit || c == '.'
  | [] => false

end TextLisp
