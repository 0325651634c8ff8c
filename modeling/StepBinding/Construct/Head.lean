import StepBinding.Construct
import StepBinding.Diagnostic

/-! The head of a step binding: a declaring keyword, a marker in parentheses that names
the binding, and either `=` or the name of the result and `=`. A head is read from the
tokens at the keyword; what is wrong with it is part of what is read. -/

namespace StepBinding.Construct

open Token

/-- Whether a step binding starts here: a declaring keyword and an opening parenthesis. -/
def isMarker : List Token → Bool
  | k :: p :: _ => k.kind.isDeclarator && p.kind = .lparen
  | _ => false

structure Head where
  form : Form
  keyword : Token
  binding : Option Token := none
  result : Option Token := none
  /-- Whether the head ends in `=`, so that steps follow. -/
  hasSteps : Bool := false
  /-- The number of tokens that were looked at. -/
  length : Nat
  span : Span
  errors : List Diagnostic := []
deriving DecidableEq, Repr, Inhabited

namespace Head

def isOk (h : Head) : Bool := h.errors.isEmpty

/-- The place of the parenthesis that closes the marker, among tokens before which `depth`
parentheses are open. A marker does not reach over a semicolon. -/
def closing? (depth : Nat) : List Token → Option Nat
  | [] => none
  | t :: ts =>
    match t.kind with
    | .lparen => (closing? (depth + 1) ts).map (· + 1)
    | .rparen => if depth = 1 then some 0 else (closing? (depth - 1) ts).map (· + 1)
    | .semicolon | .endMark => none
    | _ => (closing? depth ts).map (· + 1)

/-- What is wrong with tokens between the parentheses that are not one identifier. -/
def wrongMarker (span : Span) (inner : List Token) : Diagnostic :=
  if (inner.filter fun t => t.kind = .identifier).length > 1 then
    Diagnostic.error .malformedMarker "binding marker must name exactly one identifier" span
  else
    let shown := " ".intercalate (inner.map Token.text)
    Diagnostic.error .malformedMarker s!"binding marker expects an identifier, found '{shown}'" span

/-- The binding that the tokens between the parentheses name, or what is wrong with them. -/
def binding? (span : Span) : List Token → Except Diagnostic Token
  | [] =>
    .error { Diagnostic.error .malformedMarker "empty binding marker" span
        "expected an identifier between the parentheses" with
      suggestions := [⟨"name the binding", "($)"⟩] }
  | [t] => if t.kind = .identifier then .ok t else .error (wrongMarker span [t])
  | inner => .error (wrongMarker span inner)

/-- The problem of a head that does not go on as a step binding, with a completed form. -/
def incomplete (message : String) (span : Span) (keyword : Token) (binding : Option Token)
    (result : Option String) : Diagnostic :=
  let name := (binding.map Token.text).getD "$"
  let target := match result with
    | some r => s!" {r} = <step>, <step>;"
    | none => " = <step>, <step>"
  { Diagnostic.error .incompleteConstruct message span with
    suggestions := [⟨"complete the construct", s!"{keyword.text}({name})" ++ target⟩] }

/-- Reads the head at `keyword`, `rest` being the tokens after it. Where only an expression may
stand, a declaration is incomplete. -/
def read (expressionOnly : Bool) (keyword : Token) (rest : List Token) : Head :=
  let fallback := if expressionOnly then Form.expression else Form.declaration
  let last := rest.getLastD keyword
  match closing? 0 rest with
  | none =>
    { form := fallback, keyword, length := rest.length, span := keyword.span.through last.span,
      errors := [Diagnostic.error .malformedMarker "unclosed binding marker" keyword.span
        "this marker is never closed"] }
  | some close =>
    let closeSpan := (rest.getD close keyword).span
    let marker := binding? ((rest.headD keyword).span.through closeSpan) ((rest.take close).drop 1)
    let binding := marker.toOption
    let errors := match marker with
      | .ok _ => []
      | .error d => [d]
    let markerSpan := keyword.span.through closeSpan
    let after := (rest[close + 1]?).getD last
    if after.kind = .identifier && !expressionOnly then
      let headSpan := keyword.span.through after.span
      if (rest[close + 2]?).any fun t => t.kind = .assign then
        { form := .declaration, keyword, binding, result := some after, hasSteps := true,
          length := close + 4, span := headSpan, errors }
      else
        { form := .declaration, keyword, binding, result := some after, length := close + 3,
          span := headSpan,
          errors := errors ++ [incomplete
            s!"expected '=' after '{after.text}' in temporary binding declaration" headSpan keyword
            binding (some after.text)] }
    else if after.kind = .assign then
      { form := .expression, keyword, binding, hasSteps := true, length := close + 3,
        span := markerSpan, errors }
    else
      let message :=
        if after.kind = .identifier then
          "a temporary binding declaration cannot appear in expression position"
        else "binding marker must be followed by a declarator or '='"
      { form := fallback, keyword, binding, length := close + 2, span := markerSpan,
        errors := errors ++ [incomplete message markerSpan keyword binding none] }

end Head

end StepBinding.Construct
