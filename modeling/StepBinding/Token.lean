import StepBinding.Span

/-! Tokens of the scripting language: their kinds, the words that are reserved, and
the punctuation marks in the order in which they are tried. -/

namespace StepBinding

namespace Token

inductive Kind
  | kwVar | kwLet | kwConst
  | kwFunction | kwReturn | kwIf | kwElse | kwWhile | kwFor | kwOf | kwBreak | kwContinue
  | kwThrow | kwNew | kwTypeof | kwVoid | kwThis
  | number | string | boolean | null
  | templateWhole | templateHead | templateMiddle | templateTail
  | plus | minus | star | slash | percent | plusPlus | minusMinus
  | equal | notEqual | strictEqual | strictNotEqual | less | greater | lessEqual | greaterEqual
  | and | or | nullish | bang | question | fatArrow | dot
  | assign | plusAssign | minusAssign | starAssign | slashAssign | percentAssign
  | lparen | rparen | lbracket | rbracket | lbrace | rbrace
  | comma | semicolon | colon
  | identifier
  | endMark
deriving DecidableEq, Repr, Inhabited

namespace Kind

/-- The words that are no identifiers. -/
def reserved : List (String × Kind) :=
  [("var", kwVar), ("let", kwLet), ("const", kwConst), ("function", kwFunction),
   ("return", kwReturn), ("if", kwIf), ("else", kwElse), ("while", kwWhile), ("for", kwFor),
   ("of", kwOf), ("break", kwBreak), ("continue", kwContinue), ("throw", kwThrow), ("new", kwNew),
   ("typeof", kwTypeof), ("void", kwVoid), ("this", kwThis), ("true", boolean),
   ("false", boolean), ("null", null)]

/-- What a word is: reserved, or an identifier. -/
def ofWord (word : String) : Kind := (reserved.lookup word).getD identifier

/-- The kinds that reserved words have; such a word may still name a property. -/
def isReserved (k : Kind) : Bool := reserved.any fun entry => entry.2 == k

/-- The keywords that introduce a declaration, and so the ones a binding marker follows. -/
def isDeclarator : Kind → Bool
  | kwVar | kwLet | kwConst => true
  | _ => false

/-- Punctuation, each mark before its own beginnings. -/
def marks : List (List Char × Kind) :=
  [(['=', '=', '='], strictEqual), (['!', '=', '='], strictNotEqual), (['=', '>'], fatArrow),
   (['=', '='], equal), (['!', '='], notEqual), (['<', '='], lessEqual),
   (['>', '='], greaterEqual), (['&', '&'], and), (['|', '|'], or), (['?', '?'], nullish),
   (['+', '+'], plusPlus), (['-', '-'], minusMinus), (['+', '='], plusAssign),
   (['-', '='], minusAssign), (['*', '='], starAssign), (['/', '='], slashAssign),
   (['%', '='], percentAssign), (['+'], plus), (['-'], minus), (['*'], star), (['/'], slash),
   (['%'], percent), (['<'], less), (['>'], greater), (['!'], bang), (['?'], question),
   (['.'], dot), (['='], assign), (['('], lparen), ([')'], rparen), (['['], lbracket),
   ([']'], rbracket), (['\x7b'], lbrace), (['\x7d'], rbrace), ([','], comma), ([';'], semicolon),
   ([':'], colon)]

/-- Kinds that open a nested part of a step list. -/
def isOpener : Kind → Bool
  | lparen | lbracket | lbrace | templateHead => true
  | _ => false

/-- The opener that a closing kind answers. -/
def opener? : Kind → Option Kind
  | rparen => some lparen
  | rbracket => some lbracket
  | rbrace => some lbrace
  | templateTail => some templateHead
  | _ => none

end Kind

/-- What a token stands for, as code points. An escape sequence may name half of a pair, which is no
character of its own. -/
structure Content where
  points : List Nat
deriving DecidableEq, Repr, Inhabited

namespace Content

def ofChars (cs : List Char) : Content := ⟨cs.map Char.toNat⟩

instance : Coe String Content := ⟨fun s => ofChars s.toList⟩

/-- The content as text, where a replacement stands for each half of a pair. -/
def text (v : Content) : String :=
  String.ofList (v.points.map fun n => if n.isValidChar then Char.ofNat n else '\uFFFD')

@[simp] theorem text_ofChars (cs : List Char) : (ofChars cs).text = String.ofList cs := by
  have hvalid (c : Char) : c.toNat.isValidChar := c.valid
  simp [text, ofChars, Function.comp_def, hvalid]

end Content

end Token

structure Token where
  kind : Token.Kind
  content : Token.Content
  span : Span
deriving DecidableEq, Repr, Inhabited

namespace Token

abbrev text (t : Token) : String := t.content.text

/-- How a token is named when something else was expected. -/
def shown (t : Token) : String := if t.kind = .endMark then "end of input" else t.text

end Token

end StepBinding
