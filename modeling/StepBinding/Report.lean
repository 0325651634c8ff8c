import StepBinding.Diagnostic
import StepBinding.Source

/-! Diagnostics as shown to people. The header names the problem; every label shows the
lines where its range starts and ends, with the range marked below them. Between lines
that are not next to each other stands an ellipsis. -/

namespace StepBinding.Report

/-- Codes that set and reset the colour of a terminal. -/
structure Palette where
  severity : Severity → String
  bold : String
  frame : String
  reset : String

def coloured : Palette :=
  { severity := fun
      | .error => "\x1b[1;31m"
      | .warning => "\x1b[1;33m"
      | .note => "\x1b[1;36m"
    bold := "\x1b[1m"
    frame := "\x1b[1;34m"
    reset := "\x1b[0m" }

def plain : Palette := { severity := fun _ => "", bold := "", frame := "", reset := "" }

def paletteFor (color : Bool) : Palette := if color then coloured else plain

variable (palette : Palette) (linesOf : String → List String)

def framed (s : String) : String := palette.frame ++ s ++ palette.reset

/-- The left margin, with a line number or blank. -/
def gutter (number : String) : String :=
  "  " ++ framed palette
    (String.ofList (List.replicate (4 - number.length) ' ') ++ number ++ " |")

def repeated (c : Char) (n : Nat) : String := String.ofList (List.replicate n c)

/-- A source line with its number. -/
def sourceLine (number : Nat) (line : String) : String :=
  gutter palette (toString number) ++ " " ++ line

/-- Marks below a source line. -/
def marks (color : String) (indent : Nat) (mark : Char) (width : Nat) : String :=
  gutter palette "" ++ " " ++ repeated ' ' indent ++ color ++ repeated mark (max 1 width)
    ++ palette.reset

/-- The lines about the end of a range that goes on below its first line. -/
def lastLines (color : String) (mark : Char) (span : Span) : List String :=
  if span.start.line < span.stop.line then
    (if span.start.line + 1 < span.stop.line then ["  " ++ framed palette "..."] else [])
    ++ (match SourceText.lineIn? (linesOf span.file) span.stop.line with
      | none => []
      | some line => [sourceLine palette span.stop.line line,
          marks palette color 0 mark span.stop.column])
  else []

def label (severity : Severity) (l : Label) : List String :=
  let (color, mark, arrow) := match l.style with
    | .primary => (palette.severity severity, '^', "-->")
    | .secondary => (palette.frame, '-', ":::")
  let head := ["  " ++ framed palette arrow ++ " " ++ l.span.describe, gutter palette ""]
  match SourceText.lineIn? (linesOf l.span.file) l.span.start.line with
  | none => head
  | some first =>
    let stop := if l.span.start.line = l.span.stop.line then l.span.stop.column else first.length
    head
    ++ [sourceLine palette l.span.start.line first,
        marks palette color (l.span.start.column - 1) mark (stop + 1 - l.span.start.column)]
    ++ lastLines palette linesOf color mark l.span
    ++ (if l.message.isEmpty then []
        else [gutter palette "" ++ "   " ++ color ++ l.message ++ palette.reset])

def header (d : Diagnostic) : String :=
  let title := match d.code.title? with
    | some t => " " ++ t
    | none => ""
  palette.severity d.severity ++ d.severity.word ++ "[" ++ d.code.id ++ "]" ++ title
    ++ palette.reset ++ palette.bold ++ ": " ++ d.message ++ palette.reset

/-- The text of a diagnostic, given the lines of every source. -/
def render (d : Diagnostic) : String :=
  "\n".intercalate (header palette d
    :: (d.labels.flatMap (label palette linesOf d.severity)
      ++ d.notes.map (fun n => "  " ++ framed palette "=" ++ " note: " ++ n)
      ++ d.suggestions.map fun s =>
        "  " ++ framed palette "help:" ++ " " ++ s.message ++ ": " ++ s.replacement))

/-- The lines of named source texts. -/
def linesIn (sources : List SourceText) (name : String) : List String :=
  ((sources.find? fun s => s.name == name).map SourceText.lines).getD []

end StepBinding.Report
