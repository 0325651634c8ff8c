import StepBinding.Number.Binary64
import StepBinding.Text.CharClass

/-! Numerals as texts are turned into numbers: digits of any script, single underscores
between digits, an optional sign, and for doubles a point, an exponent, or the words for
infinity and not-a-number in any case. A whole number in base ten has a bounded number of
digits, zeros at its start included; other bases and doubles have no bound. -/

namespace StepBinding.Number.Numeral

open Text.CharClass

/-- A digit of any script in the given base; letters are digits above nine. -/
def digitValue? (base : Nat) (c : Char) : Option Nat :=
  match decimalValue? c with
  | some n => if n < base then some n else none
  | none => if isHexDigit c && hexValue c < base then some (hexValue c) else none

/-- A run of digits as its values; an underscore is passed over only between two digits. -/
def digitRun (base : Nat) : List Char → List Nat × List Char
  | [] => ([], [])
  | c :: cs =>
    match digitValue? base c with
    | none => ([], c :: cs)
    | some n =>
      match cs with
      | '_' :: d :: rest =>
        if (digitValue? base d).isSome then
          let (ns, after) := digitRun base (d :: rest)
          (n :: ns, after)
        else ([n], '_' :: d :: rest)
      | cs =>
        let (ns, after) := digitRun base cs
        (n :: ns, after)
termination_by cs => cs.length

def valueOf (base : Nat) (digits : List Nat) : Nat := digits.foldl (fun n d => n * base + d) 0

/-- A whole text of digits. -/
def digits? (base : Nat) (cs : List Char) : Option Nat :=
  match digitRun base cs with
  | ([], _) => none
  | (ns, []) => some (valueOf base ns)
  | _ => none

/-- The most digits of a whole number in base ten. -/
def maxDigits : Nat := 4300

/-- A whole text of not too many digits in base ten. -/
def decimal? (cs : List Char) : Option Nat :=
  if (digitRun 10 cs).1.length ≤ maxDigits then digits? 10 cs else none

/-- A leading minus, which may be a plus, and the rest. -/
def signOf : List Char → Bool × List Char
  | '-' :: cs => (true, cs)
  | '+' :: cs => (false, cs)
  | cs => (false, cs)

/-- A whole number in base ten. -/
def int? (text : String) : Option Int :=
  let (negative, cs) := signOf (trim text).toList
  (decimal? cs).map fun n => if negative then -(n : Int) else n

/-- Whether a text starts like a whole number in base sixteen. -/
def isHex : List Char → Bool
  | '0' :: x :: _ => x == 'x' || x == 'X'
  | _ => false

/-- A whole number in base sixteen after its two leading characters. -/
def hex? (cs : List Char) : Option Int :=
  let body := match cs.drop 2 with
    | '_' :: rest => rest
    | rest => rest
  (digits? 16 body).map Int.ofNat

/-- The nearest double to `n · 10 ^ power`, infinite if it is too large. -/
def ofDecimal (negative : Bool) (n : Nat) (power : Int) : Float :=
  let size := (Nat.toDigits 10 n).length + power
  if n = 0 ∨ size < -400 then Binary64.signed negative 0
  else if 400 < size then Binary64.infinity negative
  else
    let (num, den) := if power < 0 then (n, pow10 (-power).toNat) else (n * pow10 power.toNat, 1)
    (Binary64.ofQuotient? negative num den).getD (Binary64.infinity negative)

/-- The power of ten written after a decimal, or zero. -/
def power? : List Char → Option Int
  | [] => some 0
  | e :: cs =>
    if e == 'e' || e == 'E' then
      let (negative, cs) := signOf cs
      (digits? 10 cs).map fun n => if negative then -(n : Int) else n
    else none

/-- Digits with at most one point among them, then the power of ten. -/
def unsigned? (negative : Bool) (cs : List Char) : Option Float :=
  let (whole, rest) := digitRun 10 cs
  let (fraction, rest) := match rest with
    | '.' :: more => digitRun 10 more
    | _ => ([], rest)
  if whole.isEmpty && fraction.isEmpty then none
  else (power? rest).map fun power =>
    ofDecimal negative (valueOf 10 (whole ++ fraction)) (power - fraction.length)

def asciiLower (cs : List Char) : String := String.ofList (cs.map Char.toLower)

/-- A double. -/
def float? (text : String) : Option Float :=
  let (negative, cs) := signOf (trim text).toList
  let word := asciiLower cs
  if word = "inf" ∨ word = "infinity" then some (Binary64.infinity negative)
  else if word = "nan" then some Binary64.nan
  else unsigned? negative cs

end StepBinding.Number.Numeral
