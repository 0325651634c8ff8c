import StepBinding.Grammar.Rules
import StepBinding.Token.Stream

/-! Whole programs. A token stream is read to its end whatever is out of place in it.
There is a module unless some token outside of all steps was out of place; problems of
step bindings leave the rest of the module intact. -/

namespace StepBinding.Grammar

open Construct

/-- What was read from a program: its module, if it has one, all diagnostics in the order in which
they arose, and the records of its step bindings. -/
structure Program where
  module? : Option Module
  diagnostics : List Diagnostic
  log : Log

namespace Program

/-- Reads a token stream. The tokens bound the number of uses of the rules. -/
def ofTokens (file : String) (tokens : List Token) : Except Stop Program :=
  let start : Cursor := { rest := tokens, last := tokens.headD default }
  match (rules (2 * tokens.length + 2)).statements .endMark start with
  | .error stop _ => .error stop
  | .ok body c =>
    let stop := (c.rest.headD c.last).span.stop
    .ok {
      module? := if c.faulty then none else some ⟨⟨file, .start, stop⟩, body⟩
      diagnostics := c.diagnostics
      log := c.log }

end Program

end StepBinding.Grammar
