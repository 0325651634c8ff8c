import StepBinding.Text.CharClass

/-! Lines of a text. For display a text is cut at every line end, a carriage return
followed by a line feed counting as one; a line end at the very end opens no
further line. Reading a file turns both other forms of line end into a line feed. -/

namespace StepBinding.Text.Lines

open CharClass

/-- Puts a character at the front of the first line. -/
def prepend (c : Char) : List (List Char) → List (List Char)
  | [] => [[c]]
  | line :: lines => (c :: line) :: lines

/-- The lines of a text with their line ends. -/
def splitKeeping : List Char → List (List Char)
  | [] => []
  | '\r' :: '\n' :: cs => ['\r', '\n'] :: splitKeeping cs
  | c :: cs => if isLineEnd c then [c] :: splitKeeping cs else prepend c (splitKeeping cs)

/-- A line without the line end it may carry. -/
def dropEnd (line : List Char) : List Char := line.filter fun c => !isLineEnd c

/-- The lines of a text, without their line ends. -/
def split (s : String) : List String :=
  (splitKeeping s.toList).map fun line => String.ofList (dropEnd line)

/-- Every line end of the forms CR LF and CR becomes LF. -/
def normalize : List Char → List Char
  | [] => []
  | '\r' :: '\n' :: cs => '\n' :: normalize cs
  | '\r' :: cs => '\n' :: normalize cs
  | c :: cs => c :: normalize cs

def normalized (s : String) : String := String.ofList (normalize s.toList)

end StepBinding.Text.Lines
