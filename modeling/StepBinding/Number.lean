import StepBinding.Number.Layout
import StepBinding.Number.Numeral

/-! Numbers of programs. A number is an integer of any size or a double. Sums,
differences and products of integers are exact; otherwise integers are rounded to doubles
first. A double with an integral value below `2 ^ 53` becomes an integer, so there is no
negative zero. Comparison is exact. An integer can be too large for a text. -/

namespace StepBinding

inductive Number
  | int (n : Int)
  | float (x : Float)
deriving Inhabited

namespace Number

/-- Why an operation has no result. -/
inductive Fault
  /-- An integer beyond the range of doubles. -/
  | tooLarge
  /-- Not-a-number where an integer is needed. -/
  | notANumber
  /-- An infinity where an integer is needed. -/
  | infinite
  /-- A negative power of zero. -/
  | zeroToNegative
  /-- A power beyond the range of doubles. -/
  | powerTooLarge
  /-- A text of digits that is not a number. -/
  | badNumeral
  /-- An integer with more digits than a numeral has. -/
  | tooManyDigits
  /-- A number of places that is negative or too large. -/
  | badPlaces
deriving DecidableEq, Repr

def nan : Number := float Binary64.nan

def infinity : Number := float (Binary64.infinity false)

/-- A double, as an integer if it is one below `2 ^ 53`. -/
def norm (x : Float) : Number :=
  match Binary64.toQuotient? x with
  | some (num, den) =>
    let n := num / den
    if n * den = num ∧ n.natAbs < pow2 53 then int n else float x
  | none => float x

def toFloat : Number → Except Fault Float
  | int n => match Binary64.ofInt? n with
    | some x => .ok x
    | none => .error .tooLarge
  | float x => .ok x

/-- An integer too large for a double has no answer. -/
def isNaN (a : Number) : Except Fault Bool := return Binary64.isNaN (← a.toFloat)

/-- Neither infinite nor not-a-number. -/
def isFinite : Number → Bool
  | int _ => true
  | float x => Binary64.isFinite x

/-- An integer operation, or the double operation if one side is a double. -/
def arith (onInts : Int → Int → Int) (onFloats : Float → Float → Float) :
    Number → Number → Except Fault Number
  | int a, int b => .ok (int (onInts a b))
  | a, b => return norm (onFloats (← a.toFloat) (← b.toFloat))

def add : Number → Number → Except Fault Number := arith (· + ·) (· + ·)

def sub : Number → Number → Except Fault Number := arith (· - ·) (· - ·)

def mul : Number → Number → Except Fault Number := arith (· * ·) (· * ·)

def neg : Number → Number
  | int n => int (-n)
  | float x => norm (-x)

/-- A quotient, or the sign of an infinity. -/
def extent? : Number → Option ((Int × Nat) ⊕ Bool)
  | int n => some (.inl (n, 1))
  | float x => match Binary64.parts x with
    | .nan => none
    | .infinite negative => some (.inr negative)
    | .finite .. => (Binary64.toQuotient? x).map .inl

/-- Exact comparison; `none` if one side is not a number. -/
def compare? : Number → Number → Option Ordering
  | int a, int b => some (compare a b)
  | a, b =>
    match a.extent?, b.extent? with
    | none, _ | _, none => none
    | some (.inl x), some (.inl y) => some (compare (x.1 * y.2) (y.1 * x.2))
    | some (.inl _), some (.inr negative) => some (if negative then .gt else .lt)
    | some (.inr negative), some (.inl _) => some (if negative then .lt else .gt)
    | some (.inr p), some (.inr q) => some (if p = q then .eq else if p then .lt else .gt)

def equal (a b : Number) : Bool := compare? a b == some .eq

def isZero (a : Number) : Bool := equal a (int 0)

def isNegative (a : Number) : Bool := compare? a (int 0) == some .lt

/-- Whether the bits of a number have a minus sign. -/
def hasMinus : Number → Bool
  | int n => n < 0
  | float x => match Binary64.parts x with
    | .finite negative .. | .infinite negative => negative
    | .nan => false

/-- Division; by zero it is infinite, and not a number for zero itself. -/
def div (a b : Number) : Except Fault Number :=
  if isZero b then
    if isZero a then .ok nan
    else do
      let x ← a.toFloat
      if Binary64.isNaN x then return nan
      return float (Binary64.infinity (hasMinus a != hasMinus b))
  else match a, b with
    | int m, int n =>
      match Binary64.ofQuotient? ((m < 0) != (n < 0)) m.natAbs n.natAbs with
      | some x => .ok (norm x)
      | none => .error .tooLarge
    | a, b => return norm ((← a.toFloat) / (← b.toFloat))

/-- The remainder of division towards zero, exact on doubles. -/
def mod (a b : Number) : Except Fault Number := do
  if isZero b then return nan
  let x ← a.toFloat
  if Binary64.isNaN x then return nan
  let y ← b.toFloat
  if Binary64.isNaN y then return nan
  match Binary64.toQuotient? x, Binary64.toQuotient? y with
  | none, _ => return nan
  | some _, none => return norm x
  | some (n, d), some (m, e) =>
    let r := (n * e).tmod (m * d)
    return norm ((Binary64.ofQuotient? (r < 0) r.natAbs (d * e)).getD x)

/-- Rounds the quotient of a finite double; anything else stays. -/
def rounded (round : Int → Nat → Int) : Number → Number
  | int n => int n
  | float x => match Binary64.toQuotient? x with
    | some (num, den) => int (round num den)
    | none => float x

def floor : Number → Number := rounded fun num den => num / den

def ceil : Number → Number := rounded fun num den => -(-num / den)

/-- The floor of a number increased by a half as a double. -/
def round (a : Number) : Except Fault Number :=
  if a.isFinite then return floor (float ((← a.toFloat) + 0.5)) else .ok a

def abs : Number → Number
  | int n => int n.natAbs
  | float x => float x.abs

def sqrt (a : Number) : Except Fault Number :=
  if isNegative a then .ok nan
  else do
    let x ← a.toFloat
    return if Binary64.isNaN x then nan else norm x.sqrt

/-- A power of doubles. A negative power of zero and a finite power beyond the range of
doubles have no result. -/
def pow (a b : Number) : Except Fault Number := do
  let x ← a.toFloat
  let y ← b.toFloat
  if x == 0 && y < 0 && Binary64.isFinite y then throw .zeroToNegative
  let z := x.pow y
  if Binary64.isFinite x && Binary64.isFinite y && !Binary64.isFinite z then throw .powerTooLarge
  return norm z

/-- The first greatest of some numbers in the given order, starting from the first one. -/
def best (replaces : Ordering) (empty : Number) : List Number → Number
  | [] => empty
  | a :: as =>
    let pick (m x : Number) : Number := if compare? x m == some replaces then x else m
    match as.foldl pick a with
    | float x => norm x
    | int n => int n

def max : List Number → Number := best .gt (float (Binary64.infinity true))

def min : List Number → Number := best .lt infinity

/-- The integer part. -/
def truncate : Number → Except Fault Int
  | int n => .ok n
  | float x => match Binary64.parts x, Binary64.toQuotient? x with
    | _, some (num, den) => .ok (num.tdiv den)
    | .nan, none => .error .notANumber
    | _, none => .error .infinite

/-- The integer that a number is, if it is one. -/
def integer? : Number → Option Int
  | int n => some n
  | float x => match Binary64.toQuotient? x with
    | some (num, den) => if num % den = 0 then some (num / den) else none
    | none => none

/-- The least natural number without a text. -/
def textBound : Nat := pow10 Numeral.maxDigits

def intText (n : Int) : Except Fault String :=
  if n.natAbs < textBound then .ok (toString n) else .error .tooManyDigits

/-- The text of a number. -/
def text : Number → Except Fault String
  | int n => intText n
  | float x => match norm x with
    | int n => intText n
    | float y => .ok (Layout.float Layout.plain y)

/-- The text of a number with a fixed number of places. A number of places that is no word
is refused before the number is looked at, one that is no half word after it. -/
def fixed (a : Number) (places : Int) : Except Fault String :=
  if places < 0 ∨ pow2 63 ≤ places then .error .badPlaces
  else do
    let x ← a.toFloat
    if pow2 31 ≤ places then throw .badPlaces
    return Layout.fixed places.toNat x

/-- A literal of a program: in base sixteen, a double, or in base ten. -/
def ofLiteral (text : String) : Except Fault Number :=
  let cs := text.toList
  let number :=
    if Numeral.isHex cs then (Numeral.hex? (Text.CharClass.trim text).toList).map int
    else if cs.any fun c => c == '.' || c == 'e' || c == 'E' then (Numeral.float? text).map norm
    else (Numeral.int? text).map int
  match number with
  | some n => .ok n
  | none => .error .badNumeral

/-- The number a text stands for: zero for a blank one, not-a-number for no numeral. -/
def ofText (text : String) : Number :=
  let trimmed := Text.CharClass.trim text
  if trimmed.isEmpty then int 0
  else if Numeral.isHex trimmed.toList then ((Numeral.hex? trimmed.toList).map int).getD nan
  else ((Numeral.float? trimmed).map norm).getD nan

/-- The integer at the start of a text. -/
def ofLeadingDigits (text : String) : Except Fault Number :=
  let cs := (Text.CharClass.trim text).toList
  let digits := (cs.dropWhile fun c => c == '+' || c == '-').takeWhile Text.CharClass.isDigit
  if digits.isEmpty then .ok nan
  else match Numeral.decimal? digits with
    | none => .error .badNumeral
    | some n => .ok (int (if cs.head? == some '-' then -(n : Int) else n))

end Number

end StepBinding
