import StepBinding.Span

/-! Diagnostics: what a problem is called, how severe it is, which ranges of the
source it points at, and what is suggested about it. -/

namespace StepBinding

/-- The identifier of a kind of problem. -/
structure Code where
  id : String
deriving DecidableEq, Repr, Inhabited

namespace Code

def lexical : Code := ⟨"E100"⟩
def grammar : Code := ⟨"E200"⟩
def malformedMarker : Code := ⟨"E301"⟩
def incompleteConstruct : Code := ⟨"E302"⟩
def emptyPipeline : Code := ⟨"E303"⟩
def unresolvedReference : Code := ⟨"E304"⟩
def shadowing : Code := ⟨"W310"⟩

/-- The spoken name of a code; other codes have none. -/
def title? (c : Code) : Option String :=
  if c = lexical then some "LexError"
  else if c = grammar then some "SyntaxError"
  else if c = malformedMarker then some "MalformedBindingMarker"
  else if c = incompleteConstruct then some "IncompleteConstruct"
  else if c = emptyPipeline then some "EmptyPipeline"
  else if c = unresolvedReference then some "UnresolvedBindingReference"
  else if c = shadowing then some "ShadowWarning"
  else none

end Code

inductive Severity
  | error
  | warning
  | note
deriving DecidableEq, Repr, Inhabited

namespace Severity

def word : Severity → String
  | .error => "error"
  | .warning => "warning"
  | .note => "note"

end Severity

inductive LabelStyle
  | primary
  | secondary
deriving DecidableEq, Repr, Inhabited

structure Label where
  span : Span
  message : String := ""
  style : LabelStyle := .primary
deriving DecidableEq, Repr, Inhabited

structure Suggestion where
  message : String
  replacement : String
deriving DecidableEq, Repr, Inhabited

structure Diagnostic where
  severity : Severity
  code : Code
  message : String
  labels : List Label := []
  suggestions : List Suggestion := []
  notes : List String := []
deriving DecidableEq, Repr, Inhabited

namespace Diagnostic

/-- An error with one primary label. -/
def error (code : Code) (message : String) (span : Span) (label : String := "") : Diagnostic :=
  { severity := .error, code, message, labels := [{ span, message := label }] }

/-- The range the diagnostic is mainly about. -/
def span? (d : Diagnostic) : Option Span := d.labels.head?.map Label.span

def name (d : Diagnostic) : String := d.code.title?.getD d.code.id

def isError (d : Diagnostic) : Bool := d.severity == .error

/-- One line for a batch of diagnostics. -/
def summary (ds : List Diagnostic) : String :=
  s!"{ds.length} error(s): " ++ "; ".intercalate (ds.map message)

/-- Whether `d` is placed before `e` in a report: by the start of the main range. -/
def placedBefore (d e : Diagnostic) : Bool :=
  match d.span?, e.span? with
  | some s, some t => s.start.before t.start
  | none, some _ => true
  | _, none => false

end Diagnostic

end StepBinding
