import StepBinding.Text.CharClass

/-! Escape sequences inside string and template literals. A backslash and the next
character stand for one character, or for none when that character is a line feed;
a backslash, the letter `u` and four hexadecimal digits stand for the code point of
that number. Any other character stands for itself, also after a backslash. -/

namespace StepBinding.Token.Escape

open Text.CharClass

/-- What a backslash followed by `c` stands for, `c` not being the letter `u`. -/
def short (c : Char) : List Char :=
  if c == 'n' then ['\n']
  else if c == 'r' then ['\r']
  else if c == 't' then ['\t']
  else if c == 'b' then ['\x08']
  else if c == 'f' then ['\x0c']
  else if c == 'v' then ['\x0b']
  else if c == '0' then ['\x00']
  else if c == '\n' then []
  else [c]

/-- The number of four hexadecimal digits at the start of a text. -/
def unicode? : List Char → Option Nat
  | a :: b :: c :: d :: _ =>
    if isHexDigit a && isHexDigit b && isHexDigit c && isHexDigit d then
      some (((hexValue a * 16 + hexValue b) * 16 + hexValue c) * 16 + hexValue d)
    else none
  | _ => none

/-- The code points that the body of a literal denotes. -/
def decode : List Char → List Nat
  | [] => []
  | c :: cs =>
    if c == '\\' then
      match cs with
      | [] => []
      | e :: rest =>
        if e == 'u' then
          match unicode? rest with
          | some u => u :: decode (rest.drop 4)
          | none => decode rest
        else (short e).map Char.toNat ++ decode rest
    else c.toNat :: decode cs
termination_by cs => cs.length
decreasing_by all_goals simp +arith

inductive Flaw
  | atEnd
  | badUnicode
deriving DecidableEq, Repr

/-- The flawed escapes of a body, each with the distance of the flaw from the body's start, to
which `offset` is added. -/
def flaws (offset : Nat) : List Char → List (Nat × Flaw)
  | [] => []
  | c :: cs =>
    if c == '\\' then
      match cs with
      | [] => [(offset + 1, .atEnd)]
      | e :: rest =>
        if e == 'u' then
          match unicode? rest with
          | some _ => flaws (offset + 6) (rest.drop 4)
          | none => (offset, .badUnicode) :: flaws (offset + 2) rest
        else flaws (offset + 2) rest
    else flaws (offset + 1) cs
termination_by cs => cs.length
decreasing_by all_goals simp +arith

end StepBinding.Token.Escape
