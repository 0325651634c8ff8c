/-! Positions in a source text and the ranges between them. Lines and columns count
from one, columns in characters, and a range includes both of its ends. -/

namespace StepBinding

structure Position where
  line : Nat
  column : Nat
deriving DecidableEq, Repr, Inhabited

namespace Position

def start : Position := ⟨1, 1⟩

/-- The position after reading `c`; only a line feed starts a line. -/
def next (p : Position) (c : Char) : Position :=
  if c == '\n' then ⟨p.line + 1, 1⟩ else ⟨p.line, p.column + 1⟩

/-- The position after reading a text. -/
def after (p : Position) (text : List Char) : Position := text.foldl next p

/-- The position of the character before this one, as far as the line reaches. -/
def previous (p : Position) : Position := ⟨p.line, if p.column > 1 then p.column - 1 else 1⟩

def before (p q : Position) : Bool :=
  p.line < q.line || (p.line == q.line && p.column < q.column)

end Position

/-- A range of a named source text. -/
structure Span where
  file : String
  start : Position
  stop : Position
deriving DecidableEq, Repr, Inhabited

namespace Span

/-- The range of a single position. -/
def point (file : String) (p : Position) : Span := ⟨file, p, p⟩

/-- From the start of the first range to the end of the second. -/
def through (a b : Span) : Span := ⟨a.file, a.start, b.stop⟩

/-- Where a range starts, as shown in reports. -/
def describe (s : Span) : String := s!"{s.file}:{s.start.line}:{s.start.column}"

end Span

end StepBinding
