/-! Patterns of file names. In the shape of a name a star stands for any characters, a question mark
for one, and brackets for one of a set of characters. A pattern of a path has one part for each
directory and one for the name; the part `**` stands for directories at any depth. -/

namespace StepBinding.Pattern

/-- A piece of the shape of a name. -/
inductive Piece
  | star
  | any
  | char (c : Char)
  /-- A character of a set, or one outside of it. From the last character of each run to the first of
  the next one goes a range. -/
  | set (outside : Bool) (runs : List (List Char))
deriving DecidableEq, Repr

/-- Whether a character is in one of the runs or in a range between two. -/
def inRuns (c : Char) : List (List Char) → Bool
  | [] => false
  | [run] => run.contains c
  | run :: next :: runs =>
    run.contains c || (run.getLast?.any (· ≤ c) && next.head?.any (c ≤ ·)) || inRuns c (next :: runs)

def Piece.accepts (c : Char) : Piece → Bool
  | .star => false
  | .any => true
  | .char d => c == d
  | .set outside runs => inRuns c runs != outside

/-- The runs of characters between hyphens. A hyphen among the next `n` characters is one of the run,
and so is one at the very end. -/
def runsFrom (run : List Char) : Nat → List Char → List (List Char)
  | _, [] => [run]
  | 0, ['-'] => [run ++ ['-']]
  | 0, '-' :: cs => run :: runsFrom [] 2 cs
  | n, c :: cs => runsFrom (run ++ [c]) (n - 1) cs

/-- Takes out ranges that go down. -/
def withoutEmpty : List (List Char) → List (List Char)
  | [] => []
  | run :: runs =>
    match withoutEmpty runs with
    | [] => [run]
    | next :: more =>
      if next.head?.any fun c => run.getLast?.any (c < ·) then (run.dropLast ++ next.tail) :: more
      else run :: next :: more

/-- The set that stands in brackets. -/
def setOf (cs : List Char) : Piece :=
  match withoutEmpty (runsFrom [] (if cs.head? = some '!' then 2 else 1) cs) with
  | [['!']] => .any
  -- the hyphen of the range is the first character of the set then
  | ['!'] :: run :: runs => .set true (('-' :: run) :: runs)
  | ('!' :: run) :: runs => .set true (run :: runs)
  | runs => .set false runs

/-- How many characters stand before the closing bracket of a set, if there is one. -/
def setLength? (cs : List Char) : Option Nat :=
  let lead := match cs with
    | '!' :: ']' :: _ => 2
    | '!' :: _ | ']' :: _ => 1
    | _ => 0
  let n := lead + ((cs.drop lead).takeWhile (· != ']')).length
  if n < cs.length then some n else none

/-- The pieces of a shape, after some characters that belong to a set. -/
def piecesFrom : Nat → List Char → List Piece
  | _, [] => []
  | n + 1, _ :: cs => piecesFrom n cs
  | 0, '*' :: cs => .star :: piecesFrom 0 cs
  | 0, '?' :: cs => .any :: piecesFrom 0 cs
  | 0, '[' :: cs =>
    match setLength? cs with
    | some n => setOf (cs.take n) :: piecesFrom (n + 1) cs
    | none => .char '[' :: piecesFrom 0 cs
  | 0, c :: cs => .char c :: piecesFrom 0 cs

/-- The ends of a text, the whole text first. -/
def ends : List Char → List (List Char)
  | [] => [[]]
  | c :: cs => (c :: cs) :: ends cs

/-- Whether a name has a shape. -/
def fits : List Piece → List Char → Bool
  | [], cs => cs.isEmpty
  | .star :: ps, cs => (ends cs).any (fits ps)
  | p :: ps, c :: cs => p.accepts c && fits ps cs
  | _ :: _, [] => false

/-- A part of a pattern of a path. -/
inductive Part
  /-- Directories at any depth. -/
  | deep
  | name (text : String)
  | shape (pieces : List Piece)
  /-- Nothing more, but a directory. -/
  | here
deriving DecidableEq, Repr

/-- Why a text is no pattern. -/
inductive Fault
  | absolute
  /-- Two stars beside other characters. -/
  | stars
deriving DecidableEq, Repr

def hasStars : List Char → Bool
  | '*' :: '*' :: _ => true
  | _ :: cs => hasStars cs
  | [] => false

def Part.ofText (text : String) : Except Fault Part :=
  if text = "**" then .ok .deep
  else if hasStars text.toList then .error .stars
  else if text.toList.any fun c => c == '*' || c == '?' || c == '[' then
    .ok (.shape (piecesFrom 0 text.toList))
  else .ok (.name text)

end StepBinding.Pattern
