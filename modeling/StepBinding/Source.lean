import StepBinding.Span
import StepBinding.Text.Lines

/-! A named source text and its lines, which count from one. A range of positions covers
a part of one line, or the end of its first line, whole lines and the start of its last. -/

namespace StepBinding

structure SourceText where
  text : String
  name : String := "<stdin>"

namespace SourceText

/-- A text as it is read from a file: every line ends in a line feed. -/
def ofFile (name text : String) : SourceText := ⟨Text.Lines.normalized text, name⟩

def lines (s : SourceText) : List String := Text.Lines.split s.text

/-- The line of a number, if there is one. -/
def lineIn? (lines : List String) : Nat → Option String
  | 0 => none
  | n + 1 => lines[n]?

/-- The line of a number; empty if there is none. -/
def lineAt (s : SourceText) (n : Nat) : String := (lineIn? s.lines n).getD ""

/-- The characters from one index up to another; a negative index counts from the end. -/
def slice (cs : List Char) (start stop : Int) : String :=
  let place (i : Int) : Nat := (if i < 0 then i + cs.length else i).toNat
  String.ofList ((cs.take (place stop)).drop (place start))

/-- The text between two columns of a line, or from a column of one line up to a column of a later
one. Columns are indices plus one at the start. -/
def between (s : SourceText) (line column stopLine stopColumn : Int) : String :=
  let lineOf (n : Int) : List Char := (s.lineAt n.toNat).toList
  if line = stopLine then slice (lineOf line) (column - 1) stopColumn
  else "\n".intercalate ((List.range (stopLine + 1 - line).toNat).map fun (i : Nat) =>
    let cs := lineOf (line + i)
    if i = 0 then slice cs (column - 1) cs.length
    else if line + i = stopLine then slice cs 0 stopColumn
    else String.ofList cs)

/-- The text that a range covers. -/
def textOf (s : SourceText) (start stop : Position) : String :=
  s.between start.line start.column stop.line stop.column

end SourceText

end StepBinding
