import StepBinding.Diagnostic
import StepBinding.Token.Lexeme

/-! The token stream of a program text: its lexemes are placed at their positions,
layout is dropped, and an end mark closes the stream. A text with any fault has no
stream; all of its faults are then reported. -/

namespace StepBinding.Token.Stream

open Lexeme

/-- The tokens and the faults of lexemes that start at `p`, and the position after them. -/
def place (file : String) (p : Position) : List Lexeme → List Token × List Diagnostic × Position
  | [] => ([], [], p)
  | l :: ls =>
    let q := p.after l.text
    let (tokens, faults, stop) := place file q ls
    let here := l.faults.map fun f =>
      Diagnostic.error .lexical f.2.message (Span.point file (p.after (l.text.take f.1)))
    match l.token with
    | none => (tokens, here ++ faults, stop)
    | some (kind, content) =>
      (⟨kind, content, ⟨file, p, q.previous⟩⟩ :: tokens, here ++ faults, stop)

/-- The stream of a text, or its faults in the order of their lexemes. -/
def ofText (file text : String) : Except (List Diagnostic) (List Token) :=
  let (lexemes, nesting) := Lexeme.ofText {} text.toList
  let (tokens, faults, stop) := place file .start lexemes
  let faults :=
    if nesting.templates.isEmpty then faults
    else faults ++ [Diagnostic.error .lexical Fault.openTemplate.message (Span.point file stop)]
  if faults.isEmpty then
    .ok (tokens ++ [⟨.endMark, "", ⟨file, stop, stop.previous⟩⟩])
  else .error faults

end StepBinding.Token.Stream
