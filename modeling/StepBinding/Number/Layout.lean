import StepBinding.Number.Shortest

/-! How numbers are written. Doubles are written with the fewest digits that read back,
positionally where the first digit stands for a power of ten from `10 ^ -4` up to
`10 ^ 15`, and with an exponent of two digits or more otherwise. A fixed number of places
is rounded from the exact value, a tie to the even digit. -/

namespace StepBinding.Number.Layout

open Binary64 Shortest

/-- The choices that a written double depends on. -/
structure Style where
  leastPower : Int
  powerLimit : Int
  exponentWidth : Nat
  keepsPoint : Bool

/-- Values of programs. -/
def plain : Style :=
  { leastPower := -4, powerLimit := 16, exponentWidth := 2, keepsPoint := true }

def padLeft (width : Nat) (cs : List Char) : List Char :=
  List.replicate (width - cs.length) '0' ++ cs

/-- Digits with the point after the given number of them. -/
def positional (style : Style) (d : Decimal) : List Char :=
  if d.point ≤ 0 then '0' :: '.' :: (List.replicate (-d.point).toNat '0' ++ d.digits)
  else
    let n := d.point.toNat
    let whole := d.digits.take n ++ List.replicate (n - d.digits.length) '0'
    match d.digits.drop n with
    | [] => whole ++ (if style.keepsPoint then ['.', '0'] else [])
    | rest => whole ++ '.' :: rest

/-- One digit, the others after the point, and the power of ten. -/
def scientific (style : Style) (d : Decimal) : List Char :=
  let power := d.point - 1
  let head := match d.digits with
    | [] => ['0']
    | [c] => [c]
    | c :: cs => c :: '.' :: cs
  head ++ 'e' :: (if power < 0 then '-' else '+')
    :: padLeft style.exponentWidth (Nat.toDigits 10 power.natAbs)

def decimalText (style : Style) (d : Decimal) : List Char :=
  if style.leastPower ≤ d.point - 1 ∧ d.point - 1 < style.powerLimit then positional style d
  else scientific style d

def withSign (negative : Bool) (cs : List Char) : String :=
  String.ofList (if negative then '-' :: cs else cs)

/-- The text of a double. -/
def float (style : Style) (x : Float) : String :=
  match parts x with
  | .nan => "NaN"
  | .infinite negative => withSign negative "Infinity".toList
  | .finite negative m e =>
    if m = 0 then withSign negative ['0', '.', '0']
    else
      let (num, den) := scaled m 1 (-e)
      let bits := x.toBits.toNat % pow2 63
      withSign negative (decimalText style (decimal bits num den))

/-- The text of a double with a fixed number of places. -/
def fixed (places : Nat) (x : Float) : String :=
  match parts x with
  | .nan => "nan"
  | .infinite negative => withSign negative "inf".toList
  | .finite negative m e =>
    let (num, den) := scaled m 1 (-e)
    let digits := padLeft (places + 1) (Nat.toDigits 10 (roundDiv (num * pow10 places) den))
    let n := digits.length - places
    withSign negative
      (digits.take n ++ (if places = 0 then [] else '.' :: digits.drop n))

end StepBinding.Number.Layout
