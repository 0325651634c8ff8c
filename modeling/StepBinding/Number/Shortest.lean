import StepBinding.Number.Binary64

/-! The fewest decimal digits that read back as a given double, and the nearest such
decimal. For each number of digits the two neighbours of the value on that decimal grid
are tried; seventeen digits always suffice. -/

namespace StepBinding.Number.Shortest

open Binary64

/-- The decimal `0.d₁d₂… · 10 ^ point`. -/
structure Decimal where
  digits : List Char
  point : Int
deriving DecidableEq, Repr

/-- How many decimal digits stand before the point of a quotient; not positive below a tenth. -/
def pointOf (num den : Nat) : Int :=
  let digits (n : Nat) : Int := (Nat.toDigits 10 n).length
  let guess := digits num - digits den
  let reached := if guess < 0 then den ≤ num * pow10 (-guess).toNat else den * pow10 guess.toNat ≤ num
  if reached then guess + 1 else guess

/-- A quotient in units of a power of ten. -/
def inUnits (num den : Nat) (unit : Int) : Nat × Nat :=
  if unit < 0 then (num * pow10 (-unit).toNat, den) else (num, den * pow10 unit.toNat)

/-- Whether a multiple of a power of ten reads back as the number with these bits. -/
def readsBack (bits : Nat) (multiple : Nat) (unit : Int) : Bool :=
  let (n, d) := if unit < 0 then (multiple, pow10 (-unit).toNat) else (multiple * pow10 unit.toNat, 1)
  quotientBits? n d == some bits

/-- The neighbour on the grid of a unit that reads back, the nearer one first. -/
def neighbour? (bits num den : Nat) (unit : Int) : Option Nat :=
  let (n, d) := inUnits num den unit
  let below := n / d
  let nearest := roundDiv n d
  let other := if nearest = below then below + 1 else below
  [nearest, other].find? fun k => readsBack bits k unit

/-- Tries grids with more and more digits. -/
def search (bits num den : Nat) (point : Int) : List Nat → Nat × Int
  | [] => (0, point)
  | count :: counts =>
    match neighbour? bits num den (point - count) with
    | some k => (k, point - count)
    | none => search bits num den point counts

def trimZeros (digits : List Char) : List Char :=
  (digits.reverse.dropWhile (· == '0')).reverse

/-- The shortest decimal of a positive number given by its bits and its exact value. -/
def decimal (bits num den : Nat) : Decimal :=
  let (k, unit) := search bits num den (pointOf num den) ((List.range 17).map (· + 1))
  let digits := Nat.toDigits 10 k
  { digits := trimZeros digits, point := unit + digits.length }

end StepBinding.Number.Shortest
