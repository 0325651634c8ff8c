import StepBinding.Text.Unicode

/-! Character classes of program text: letters, digits, blanks, line ends and
printable characters, and the case mappings. -/

namespace StepBinding.Text.CharClass

/-- Whether the code point of `c` lies in one of the closed ranges. -/
def inRanges (ranges : List (Nat × Nat)) (c : Char) : Bool :=
  ranges.any fun r => r.1 ≤ c.toNat && c.toNat ≤ r.2

def isLetter (c : Char) : Bool := Unicode.includes Unicode.letters c

def isDigit (c : Char) : Bool :=
  Unicode.includes Unicode.decimals c || Unicode.includes Unicode.raised c

def isAlphanumeric (c : Char) : Bool :=
  isLetter c || isDigit c || Unicode.includes Unicode.numerics c

def isSpace (c : Char) : Bool := Unicode.includes Unicode.blanks c

def isPrintable (c : Char) : Bool := Unicode.includes Unicode.printables c

/-- Characters that end a line of text when it is cut for display. -/
def isLineEnd (c : Char) : Bool :=
  inRanges [(0x0A, 0x0D), (0x1C, 0x1E), (0x85, 0x85), (0x2028, 0x2029)] c

def isHexDigit (c : Char) : Bool :=
  inRanges [(0x30, 0x39), (0x41, 0x46), (0x61, 0x66)] c

/-- The value of a digit of any base up to sixteen. -/
def hexValue (c : Char) : Nat :=
  if c.toNat ≤ 0x39 then c.toNat - 0x30
  else if c.toNat ≤ 0x46 then c.toNat - 0x37
  else c.toNat - 0x57

def decimalValue? (c : Char) : Option Nat :=
  (Unicode.place? Unicode.decimals c.toNat).map (· % 10)

/-- The first character of an identifier. -/
def isWordStart (c : Char) : Bool := isLetter c || c == '_' || c == '$'

/-- A character after the first one of an identifier. -/
def isWordPart (c : Char) : Bool := isAlphanumeric c || c == '_' || c == '$'

/-- The capital form, which may be longer than one character. -/
def upper (c : Char) : List Char :=
  match Unicode.longCapitals.lookup c.toNat with
  | some points => points.map Char.ofNat
  | none =>
    let runs := Unicode.otherCapitals ++ Unicode.letterPairs.map (·.back)
    [(runs.findSome? (·.form? c)).getD c]

/-- The small form, without regard to the characters around it. -/
def lower (c : Char) : List Char :=
  -- the one letter whose small form has two characters
  if c.toNat == 0x130 then ['i', Char.ofNat 0x307]
  else [((Unicode.otherSmalls ++ Unicode.letterPairs).findSome? (·.form? c)).getD c]

def toUpper (s : String) : String := String.ofList (s.toList.flatMap upper)

/-- Whether the text, read away from a sigma, meets a cased letter first. -/
private def meetsCased : List Char → Bool
  | [] => false
  | c :: cs =>
    if Unicode.includes Unicode.ignorables c then meetsCased cs
    else Unicode.includes Unicode.cased c

/-- Small forms in order; a capital sigma that ends a word takes its final form. `before` holds the
characters already passed, the nearest first. -/
private def lowerFrom (before : List Char) : List Char → List Char
  | [] => []
  | c :: cs =>
    let small :=
      if c.toNat == 0x3A3 && meetsCased before && !meetsCased cs then [Char.ofNat 0x3C2]
      else lower c
    small ++ lowerFrom (c :: before) cs

def toLower (s : String) : String := String.ofList (lowerFrom [] s.toList)

/-- The text without the blanks at its start. -/
def trimStart (s : String) : String := String.ofList (s.toList.dropWhile isSpace)

/-- The text without the blanks at its end. -/
def trimEnd (s : String) : String :=
  String.ofList (s.toList.reverse.dropWhile isSpace).reverse

def trim (s : String) : String := trimEnd (trimStart s)

end StepBinding.Text.CharClass
