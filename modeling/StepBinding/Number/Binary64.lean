/-! Double-precision numbers as exact dyadic fractions. A finite number is a sign with a
natural significand times a power of two; a quotient of natural numbers is rounded to
the nearest such number, a tie to the even significand. -/

namespace StepBinding.Number

def pow2 (n : Nat) : Nat := Nat.pow 2 n

def pow10 (n : Nat) : Nat := Nat.pow 10 n

namespace Binary64

/-- What the bits of a double say. -/
inductive Parts
  | nan
  | infinite (negative : Bool)
  | finite (negative : Bool) (significand : Nat) (exponent : Int)
deriving DecidableEq, Repr

/-- The smallest exponent of a significand. -/
def leastExponent : Int := -1074

def parts (x : Float) : Parts :=
  let bits := x.toBits.toNat
  let negative := bits / pow2 63 == 1
  let field : Nat := bits / pow2 52 % pow2 11
  let fraction := bits % pow2 52
  if field = 2047 then (if fraction = 0 then .infinite negative else .nan)
  else if field = 0 then .finite negative fraction leastExponent
  else .finite negative (pow2 52 + fraction) ((field : Int) - 1075)

def isNaN (x : Float) : Bool := parts x == .nan

def isFinite (x : Float) : Bool :=
  match parts x with
  | .finite .. => true
  | _ => false

/-- The nearest natural number to a quotient, a tie to the even one. -/
def roundDiv (num den : Nat) : Nat :=
  let q := num / den
  let r := 2 * (num % den)
  if r < den then q else if den < r then q + 1 else q + q % 2

/-- A quotient as numerator and denominator after division by a power of two. -/
def scaled (num den : Nat) (exponent : Int) : Nat × Nat :=
  if exponent < 0 then (num * pow2 (-exponent).toNat, den) else (num, den * pow2 exponent.toNat)

/-- The exponent at which the quotient has a significand of 53 bits, or the smallest one. -/
def exponentFor (num den : Nat) : Int :=
  let guess := max ((num.log2 : Int) - den.log2 - 53) leastExponent
  let (n, d) := scaled num den guess
  if n / d < pow2 53 then guess else guess + 1

/-- The bits of the nearest double to a quotient, without sign; `none` if it is too large. -/
def quotientBits? (num den : Nat) : Option Nat :=
  let exponent := exponentFor num den
  let (n, d) := scaled num den exponent
  let significand := roundDiv n d
  let bits :=
    if significand < pow2 52 then significand
    else (exponent + 1074).toNat * pow2 52 + significand
  if bits < 2047 * pow2 52 then some bits else none

def signed (negative : Bool) (bits : Nat) : Float :=
  Float.ofBits (UInt64.ofNat (if negative then pow2 63 + bits else bits))

def nan : Float := signed false (2047 * pow2 52 + pow2 51)

def infinity (negative : Bool) : Float := signed negative (2047 * pow2 52)

/-- The nearest double to a signed quotient; `none` if it is too large. -/
def ofQuotient? (negative : Bool) (num den : Nat) : Option Float :=
  (quotientBits? num den).map (signed negative)

/-- The nearest double to an integer; `none` if it is too large. -/
def ofInt? (n : Int) : Option Float := ofQuotient? (n < 0) n.natAbs 1

/-- A finite number as a signed numerator over a denominator. -/
def toQuotient? (x : Float) : Option (Int × Nat) :=
  match parts x with
  | .finite negative m e =>
    let (n, d) := scaled m 1 (-e)
    some (if negative then -(n : Int) else n, d)
  | _ => none

end Binary64

end StepBinding.Number
