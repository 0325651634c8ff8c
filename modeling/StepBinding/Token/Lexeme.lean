import StepBinding.Text.CharClass
import StepBinding.Text.Quoted
import StepBinding.Token
import StepBinding.Token.Escape

/-! Lexemes. A program text is cut, without loss, into blanks, comments and the
spellings of tokens. What stands at the start of a text is read as a number of
characters and a meaning; the text of the lexeme is those characters, so the
lexemes of a text concatenate to it. Templates are cut at their substitutions:
a closing brace goes on with a template when it closes what the innermost
substitution opened, and otherwise it is a token of its own. -/

namespace StepBinding

open Text.CharClass

namespace Token

/-- What can be wrong with the spelling of a text. -/
inductive Fault
  | openComment
  | openString
  | openTemplate
  | escapeAtEnd
  | badUnicodeEscape
  | hexWithoutDigits
  | wordAfterNumber
  | unexpected (c : Char)
deriving DecidableEq, Repr

namespace Fault

def message : Fault → String
  | openComment => "unterminated block comment"
  | openString => "unterminated string literal"
  | openTemplate => "unterminated template literal"
  | escapeAtEnd => "unexpected end of escape sequence"
  | badUnicodeEscape => "invalid unicode escape sequence"
  | hexWithoutDigits => "hexadecimal literal has no digits"
  | wordAfterNumber => "identifier starts immediately after numeric literal"
  | unexpected c => "unexpected character: " ++ Text.Quoted.quoted (String.singleton c)

def ofFlaw : Escape.Flaw → Fault
  | .atEnd => escapeAtEnd
  | .badUnicode => badUnicodeEscape

end Fault

/-- How deep the text is in braces, and at which depth each open template substitution began, the
innermost first. -/
structure Nesting where
  braces : Nat := 0
  templates : List Nat := []
deriving DecidableEq, Repr, Inhabited

/-- What stands at the start of a text: how many characters it takes after its first one, the token
it spells if it is no layout, its faults with their distance from the start, and the nesting after
it. -/
structure Reading where
  extra : Nat := 0
  token : Option (Kind × Content) := none
  faults : List (Nat × Fault) := []
  nesting : Nesting

namespace Reading

/-- The length of a block comment after its opening, and whether it is closed. -/
def commentLength : List Char → Nat × Bool
  | [] => (0, false)
  | c :: cs =>
    if c == '*' && cs.head? == some '/' then (2, true)
    else let (n, closed) := commentLength cs; (n + 1, closed)

/-- The length of a string literal's body, and whether the closing quote follows it. -/
def stringLength (quote : Char) : List Char → Nat × Bool
  | [] => (0, false)
  | c :: cs =>
    if c == quote then (0, true)
    else if c == '\n' then (0, false)
    else if c == '\\' then
      match cs with
      | [] => (1, false)
      | _ :: rest => let (n, closed) := stringLength quote rest; (n + 2, closed)
    else let (n, closed) := stringLength quote cs; (n + 1, closed)

/-- What follows a chunk of template text. -/
inductive ChunkEnd
  | closing
  | substitution
  | missing
deriving DecidableEq, Repr

/-- The length of a chunk of template text, and what follows it. -/
def chunkLength : List Char → Nat × ChunkEnd
  | [] => (0, .missing)
  | c :: cs =>
    if c == '\x60' then (0, .closing)
    else if c == '$' && cs.head? == some '\x7b' then (0, .substitution)
    else if c == '\\' then
      match cs with
      | [] => (1, .missing)
      | _ :: rest => let (n, e) := chunkLength rest; (n + 2, e)
    else let (n, e) := chunkLength cs; (n + 1, e)

def digitsLength (cs : List Char) : Nat := (cs.takeWhile isDigit).length

def fractionLength : List Char → Nat
  | [] => 0
  | c :: cs => if c == '.' && digitsLength cs > 0 then digitsLength cs + 1 else 0

def exponentLength : List Char → Nat
  | [] => 0
  | c :: cs =>
    if c == 'e' || c == 'E' then
      if digitsLength cs > 0 then digitsLength cs + 1
      else match cs with
        | s :: rest =>
          if (s == '+' || s == '-') && digitsLength rest > 0 then digitsLength rest + 2 else 0
        | [] => 0
    else 0

/-- The length of a decimal numeral: digits, a fraction with at least one digit, an exponent. -/
def decimalLength (cs : List Char) : Nat :=
  let whole := digitsLength cs
  let fraction := fractionLength (cs.drop whole)
  whole + fraction + exponentLength (cs.drop (whole + fraction))

/-- The number of hexadecimal digits after `0x`, if the text starts so. -/
def hexLength? : List Char → Option Nat
  | c :: x :: cs =>
    if c == '0' && (x == 'x' || x == 'X') then some (cs.takeWhile isHexDigit).length else none
  | _ => none

def ofString (n : Nesting) (quote : Char) (cs : List Char) : Reading :=
  let (length, closed) := stringLength quote cs
  let body := cs.take length
  let flaws := (Escape.flaws 1 body).map fun f => (f.1, Fault.ofFlaw f.2)
  if closed then
    { extra := length + 1, token := some (.string, ⟨Escape.decode body⟩),
      faults := flaws, nesting := n }
  else { extra := length, faults := flaws ++ [(0, .openString)], nesting := n }

/-- A chunk of template text, of kind `whole` if the template ends with it and of kind `part` if a
substitution follows. -/
def ofChunk (n : Nesting) (whole part : Kind) (cs : List Char) : Reading :=
  let (length, ending) := chunkLength cs
  let body := cs.take length
  let flaws := (Escape.flaws 1 body).map fun f => (f.1, Fault.ofFlaw f.2)
  let value : Content := ⟨Escape.decode body⟩
  match ending with
  | .closing => { extra := length + 1, token := some (whole, value), faults := flaws, nesting := n }
  | .substitution =>
    { extra := length + 2, token := some (part, value), faults := flaws,
      nesting := { n with templates := n.braces :: n.templates } }
  | .missing => { extra := length, faults := flaws ++ [(0, .openTemplate)], nesting := n }

def ofNumber (n : Nesting) (cs : List Char) : Reading :=
  match hexLength? cs with
  | some digits =>
    { extra := digits + 1, token := some (.number, .ofChars (cs.take (digits + 2))),
      faults := if digits = 0 then [(0, .hexWithoutDigits)] else [], nesting := n }
  | none =>
    let length := decimalLength cs
    { extra := length - 1, token := some (.number, .ofChars (cs.take length)),
      faults := if (cs.drop length).head?.any isWordStart then [(length, .wordAfterNumber)] else [],
      nesting := n }

def ofWord (n : Nesting) (c : Char) (cs : List Char) : Reading :=
  let word := c :: cs.takeWhile isWordPart
  { extra := (cs.takeWhile isWordPart).length,
    token := some (Kind.ofWord (String.ofList word), .ofChars word), nesting := n }

def ofMark (n : Nesting) (c : Char) (cs : List Char) : Reading :=
  match Kind.marks.find? fun mark => mark.1.isPrefixOf (c :: cs) with
  | some (mark, kind) =>
    { extra := mark.length - 1, token := some (kind, .ofChars mark),
      nesting := match kind with
        | .lbrace => { n with braces := n.braces + 1 }
        | .rbrace => { n with braces := n.braces - 1 }
        | _ => n }
  | none => { faults := [(0, .unexpected c)], nesting := n }

/-- What stands at the start of the text `c :: cs`. -/
def ofText (n : Nesting) (c : Char) (cs : List Char) : Reading :=
  if c == ' ' || c == '\t' || c == '\r' || c == '\n' then { nesting := n }
  else if c == '/' && cs.head? == some '/' then
    { extra := (cs.takeWhile (· != '\n')).length, nesting := n }
  else if c == '/' && cs.head? == some '*' then
    let (length, closed) := commentLength (cs.drop 1)
    { extra := length + 1, faults := if closed then [] else [(0, .openComment)], nesting := n }
  else if c == '"' || c == '\x27' then ofString n c cs
  else if c == '\x60' then ofChunk n .templateWhole .templateHead cs
  else if isDigit c || (c == '.' && cs.head?.any isDigit) then ofNumber n (c :: cs)
  else if isWordStart c then ofWord n c cs
  else if c == '\x7d' && n.templates.head? == some n.braces then
    ofChunk { n with templates := n.templates.tail } .templateTail .templateMiddle cs
  else ofMark n c cs

end Reading

/-- A piece of program text with what was read from it. -/
structure Lexeme where
  text : List Char
  token : Option (Kind × Content) := none
  faults : List (Nat × Fault) := []

namespace Lexeme

/-- The lexemes of a text, and the nesting at its end. -/
def ofText (n : Nesting) : List Char → List Lexeme × Nesting
  | [] => ([], n)
  | c :: cs =>
    let r := Reading.ofText n c cs
    let (later, final) := ofText r.nesting (cs.drop r.extra)
    ({ text := c :: cs.take r.extra, token := r.token, faults := r.faults } :: later, final)
termination_by cs => cs.length
decreasing_by simp +arith

/-- Nothing is lost: the lexemes of a text concatenate to it. -/
theorem text_ofText (n : Nesting) (cs : List Char) :
    (ofText n cs).1.flatMap Lexeme.text = cs := by
  fun_induction ofText n cs with
  | case1 => rfl
  | case2 n c cs r later final h ih => simp_all

end Lexeme

end Token

end StepBinding
