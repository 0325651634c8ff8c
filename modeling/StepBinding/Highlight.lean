import StepBinding.Text.Lines

/-! Listings in colour. A text is cut into pieces, each of a class, by rules that are
tried in order; texts in quotes and templates have rules of their own. A character that no
rule takes is marked as an error. On a terminal some classes have a colour. -/

namespace StepBinding.Highlight

open Text.CharClass

/-- What a piece of text is. -/
inductive Shade
  | text
  | commentLine | commentBlock
  | declarator | keyword | constant
  | binding
  | builtin | pseudo | name
  | double | single | template | escape | interpolation
  | hex | float | integer
  | operator | punctuation
  | error
deriving DecidableEq, Repr

/-- Which rules are in force. -/
inductive Region
  | root
  | double
  | single
  | template
  | interpolation
deriving DecidableEq, Repr

/-- What a rule takes: pieces by their lengths, and the regions that are open afterwards. -/
structure Taken where
  pieces : List (Shade × Nat)
  regions : List Region

namespace Taken

def length (t : Taken) : Nat := t.pieces.foldr (fun p n => p.2 + n) 0

end Taken

/-- Characters of words. -/
def isWord (c : Char) : Bool := isAlphanumeric c || c == '_'

def isNameStart (c : Char) : Bool := c.isAlpha || c == '_' || c == '$'

def isNamePart (c : Char) : Bool := isWord c || c == '$'

/-- Whether no word goes on here. -/
def wordEnds (rest : List Char) : Bool := !(rest.head?.any isWord)

def count (p : Char → Bool) (cs : List Char) : Nat := (cs.takeWhile p).length

/-- The first word of a list that the text starts with and that ends there. -/
def wordIn? (words : List String) (cs : List Char) : Option Nat :=
  (words.find? fun w => w.toList.isPrefixOf cs && wordEnds (cs.drop w.length)).map String.length

def declarators : List String := ["const", "let", "var"]

def keywords : List String :=
  ["return", "if", "else", "while", "for", "of", "break", "continue", "throw", "new", "typeof",
   "void"]

def constants : List String := ["true", "false", "null", "undefined"]

def builtins : List String := ["console", "Math", "JSON", "Object", "Array"]

def longOperators : List String :=
  ["===", "!==", "==", "!=", "<=", ">=", "&&", "||", "??", "++", "--", "+=", "-=", "*=", "/=",
   "%="]

def operatorChars : List Char := "+-*/%<>!?=.".toList

def punctuationChars : List Char := "(),;[]\x7b\x7d:".toList

/-- How far a block comment goes on. -/
def commentEnd? : List Char → Option Nat
  | '*' :: '/' :: _ => some 2
  | _ :: cs => (commentEnd? cs).map (· + 1)
  | [] => none

/-- The length of a block comment. -/
def blockComment? : List Char → Option Nat
  | '/' :: '*' :: cs => (commentEnd? cs).map (· + 2)
  | _ => none

/-- A keyword with a name in parentheses, as it opens a step binding. -/
def marker? (cs : List Char) : Option (List (Shade × Nat)) := do
  let word ← declarators.find? fun w => w.toList.isPrefixOf cs
  let cs := cs.drop word.length
  let a := count isSpace cs
  match cs.drop a with
  | '(' :: cs =>
    let b := count isSpace cs
    let cs := cs.drop b
    if !(cs.head?.any isNameStart) then none
    let n := count isNamePart cs
    let cs := cs.drop n
    let c := count isSpace cs
    match cs.drop c with
    | ')' :: _ => some [(.declarator, word.length), (.text, a), (.punctuation, 1), (.text, b),
        (.binding, n), (.text, c), (.punctuation, 1)]
    | _ => none
  | _ => none

/-- The length of an exponent. -/
def exponent (cs : List Char) : Nat :=
  match cs with
  | e :: rest =>
    if e == 'e' || e == 'E' then
      let sign := match rest with
        | s :: _ => if s == '+' || s == '-' then 1 else 0
        | [] => 0
      let digits := count Char.isDigit (rest.drop sign)
      if digits = 0 then 0 else 1 + sign + digits
    else 0
  | [] => 0

def hex? : List Char → Option Nat
  | '0' :: x :: cs =>
    if (x == 'x' || x == 'X') && cs.head?.any isHexDigit then some (2 + count isHexDigit cs) else none
  | _ => none

def float? (cs : List Char) : Option Nat :=
  let whole := count Char.isDigit cs
  match cs.drop whole with
  | '.' :: rest =>
    let places := count Char.isDigit rest
    if places = 0 then none else some (whole + 1 + places + exponent (rest.drop places))
  | _ => none

def integer? (cs : List Char) : Option Nat :=
  let n := count Char.isDigit cs
  if n = 0 then none else some (n + exponent (cs.drop n))

/-- A count that is not zero. -/
def some? (n : Nat) : Option Nat := if n = 0 then none else some n

def char? (chars : List Char) (cs : List Char) : Option Nat :=
  if cs.head?.any chars.contains then some 1 else none

/-- The pieces that a rule of plain text takes; `fresh` says that no word ends here. -/
def rootPieces? (fresh : Bool) (cs : List Char) : Option (List (Shade × Nat)) :=
  let one (shade : Shade) (n : Option Nat) : Option (List (Shade × Nat)) :=
    n.map fun n => [(shade, n)]
  let ifFresh (found : Option (List (Shade × Nat))) := if fresh then found else none
  one .text (some? (count isSpace cs))
  <|> one .commentLine (if ['/', '/'].isPrefixOf cs then some (count (· != '\n') cs) else none)
  <|> one .commentBlock (blockComment? cs)
  <|> ifFresh (marker? cs)
  <|> one .hex (hex? cs)
  <|> one .float (float? cs)
  <|> one .integer (integer? cs)
  <|> one .declarator (wordIn? ("function" :: declarators) cs)
  <|> one .keyword (wordIn? keywords cs)
  <|> ifFresh (one .constant (wordIn? constants cs))
  <|> ifFresh (one .pseudo (wordIn? ["this"] cs))
  <|> ifFresh (one .builtin (wordIn? builtins cs))
  <|> one .punctuation (if ['=', '>'].isPrefixOf cs then some 2 else none)
  <|> one .operator ((longOperators.find? fun o => o.toList.isPrefixOf cs).map String.length)
  <|> one .operator (char? operatorChars cs)
  <|> one .name (if cs.head?.any isNameStart then some (count isNamePart cs) else none)
  <|> one .punctuation (char? punctuationChars cs)

/-- A backslash with the character after it, unless that is a line feed. -/
def escape? : List Char → Option Nat
  | '\\' :: c :: _ => if c == '\n' then none else some 2
  | _ => none

/-- What the rules of a text in quotes take. -/
def quoted? (shade : Shade) (quote : Char) (outer : List Region) (regions : List Region)
    (cs : List Char) : Option Taken :=
  ((escape? cs).map fun n => ⟨[(.escape, n)], regions⟩)
  <|> ((some? (count (fun c => c != quote && c != '\\') cs)).map fun n => ⟨[(shade, n)], regions⟩)
  <|> ((char? [quote] cs).map fun n => ⟨[(shade, n)], outer⟩)

def opensInterpolation : List Char → Bool
  | '$' :: '\x7b' :: _ => true
  | _ => false

/-- What the rules of the open region take. -/
def take? (fresh : Bool) (regions : List Region) (cs : List Char) : Option Taken :=
  let outer := regions.tail
  match regions.head?.getD .root with
  | .root =>
    match cs with
    | '"' :: _ => some ⟨[(.double, 1)], .double :: regions⟩
    | '\x27' :: _ => some ⟨[(.single, 1)], .single :: regions⟩
    | '\x60' :: _ => some ⟨[(.template, 1)], .template :: regions⟩
    | cs => (rootPieces? fresh cs).map fun pieces => ⟨pieces, regions⟩
  | .double => quoted? .double '"' outer regions cs
  | .single => quoted? .single '\x27' outer regions cs
  | .template =>
    ((escape? cs).map fun n => ⟨[(.escape, n)], regions⟩)
    <|> (if opensInterpolation cs then
        some ⟨[(.interpolation, 2)], .interpolation :: regions⟩ else none)
    <|> ((some? (count (fun c => c != '\x60' && c != '\\' && c != '$') cs)).map fun n =>
        ⟨[(.template, n)], regions⟩)
    <|> ((char? ['$'] cs).map fun n => ⟨[(.template, n)], regions⟩)
    <|> ((char? ['\x60'] cs).map fun n => ⟨[(.template, n)], outer⟩)
  | .interpolation =>
    ((char? ['\x7d'] cs).map fun n => ⟨[(.interpolation, n)], outer⟩)
    <|> ((some? (count (· != '\x7d') cs)).map fun n => ⟨[(.name, n)], regions⟩)

/-- A piece of a listing. -/
structure Piece where
  shade : Shade
  text : String
deriving DecidableEq, Repr

/-- The texts of pieces by their lengths; empty ones are left out. -/
def cut : List (Shade × Nat) → List Char → List Piece
  | [], _ => []
  | (shade, n) :: ps, cs =>
    if n = 0 then cut ps cs else ⟨shade, String.ofList (cs.take n)⟩ :: cut ps (cs.drop n)

/-- The pieces of a text from a place on, after the character before it. -/
def piecesFrom (regions : List Region) (before : Option Char) (cs : List Char) : List Piece :=
  match cs with
  | [] => []
  | c :: rest =>
    let taken := (take? (!before.any isWord) regions (c :: rest)).getD ⟨[(.error, 1)], regions⟩
    let n := taken.length - 1
    cut taken.pieces (c :: rest)
      ++ piecesFrom taken.regions ((c :: rest)[n]?) (rest.drop n)
termination_by cs.length
decreasing_by
  simp only [List.length_drop, List.length_cons]
  omega

/-- The text that is listed: with line feeds only, none at the start and one at the end. -/
def listed (code : String) : List Char :=
  let cs := match code.toList with
    | '\uFEFF' :: cs => cs
    | cs => cs
  let trimmed := (Text.Lines.normalize cs).dropWhile (· == '\n')
  (trimmed.reverse.dropWhile (· == '\n')).reverse ++ ['\n']

/-- The pieces of a program text. -/
def pieces (code : String) : List Piece := piecesFrom [.root] none (listed code)

/-- The terminal code that starts the colour of a class. -/
def color? : Shade → Option String
  | .commentLine | .commentBlock => some "\x1b[37m"
  | .declarator | .keyword | .constant | .hex | .float | .integer => some "\x1b[34m"
  | .builtin | .pseudo => some "\x1b[36m"
  | .binding => some "\x1b[31m"
  | .double | .single | .template | .escape | .interpolation => some "\x1b[33m"
  | .error => some "\x1b[04m\x1b[91m"
  | .text | .name | .operator | .punctuation => none

/-- A piece in its colour, line by line; line feeds stay outside. -/
def paint (p : Piece) : String :=
  String.join ((Text.Lines.splitKeeping p.text.toList).map fun line =>
    let body := String.ofList ((line.reverse.dropWhile (· == '\n')).reverse)
    let shown := match color? p.shade with
      | some color => color ++ body ++ "\x1b[39;49;00m"
      | none => body
    if line.getLast? == some '\n' then shown ++ "\n" else shown)

/-- A listing for a terminal, or the text itself without colour. -/
def listing (color : Bool) (code : String) : String :=
  if color then String.join ((pieces code).map paint) else code

end StepBinding.Highlight
