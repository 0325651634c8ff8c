import StepBinding.Text.CharClass
import StepBinding.Text.Quoted
import StepBinding.Tree.Walk

/-! The text of a tree, in a fixed layout: one statement a line, a given indent for each
level, double quotes around strings. Parentheses stand where the tree has them and
where the strength of an operator asks for them, so that reading the text gives the
tree back. Every tree has a text; what a tree holds that is not of the language is
reported beside it. -/

namespace StepBinding.Tree.Print

open Text

/-- Strengths of the forms of expressions, around those of the binary operators. -/
def sequenceLevel : Nat := 0
def assignLevel : Nat := 1
def conditionalLevel : Nat := 2
def unaryLevel : Nat := 9
def postfixedLevel : Nat := 10
def callLevel : Nat := 11
def primaryLevel : Nat := 12

/-- A text with its strength. -/
abbrev Piece := String × Nat

/-- Parentheses around a text that is weaker than its place asks for. -/
def wrap (least : Nat) (piece : Piece) : String :=
  if piece.2 < least then "(" ++ piece.1 ++ ")" else piece.1

/-- How a character stands in a string literal. -/
def quoteChar (c : Char) : List Char :=
  if c == '\\' then ['\\', '\\']
  else if c == '"' then ['\\', '"']
  else if c == '\n' then ['\\', 'n']
  else if c == '\r' then ['\\', 'r']
  else if c == '\t' then ['\\', 't']
  else if c == '\x08' then ['\\', 'b']
  else if c == '\x0c' then ['\\', 'f']
  else if c == '\x0b' then ['\\', 'v']
  else if c == '\x00' then ['\\', '0']
  else if c.toNat < 0x20 then '\\' :: 'u' :: Quoted.hexDigits 4 c.toNat
  else [c]

/-- A string literal that denotes the text. -/
def quote (s : String) : String :=
  String.ofList ('"' :: s.toList.flatMap quoteChar ++ ['"'])

/-- A chunk of template text that denotes the characters. -/
def templateChars : List Char → List Char
  | [] => []
  | c :: cs =>
    if c == '\\' || c == '\x60' then '\\' :: c :: templateChars cs
    else if c == '$' && cs.head? == some '\x7b' then '\\' :: c :: templateChars cs
    else c :: templateChars cs

/-- A template literal from its chunks and the texts of its substitutions. -/
def templateBody : List String → List Piece → String
  | [], _ => ""
  | q :: qs, [] => String.ofList (templateChars q.toList) ++ templateBody qs []
  | q :: qs, e :: es =>
    String.ofList (templateChars q.toList) ++ "$\x7b" ++ e.1 ++ "\x7d" ++ templateBody qs es

/-- Whether a key needs no quotes: an identifier of ASCII letters and digits or a run of digits,
of either of which a line feed at the end is no part. -/
def isPlainKey (key : String) : Bool :=
  let cs := key.toList
  let cs := if cs.getLast? == some '\n' then cs.dropLast else cs
  let isStart (c : Char) := c.isAlpha || c == '_' || c == '$'
  match cs with
  | [] => false
  | c :: rest =>
    (isStart c && rest.all fun c => isStart c || c.isDigit) || cs.all Char.isDigit

def keyText (key : String) : String := if isPlainKey key then key else quote key

/-- A property whose value is the identifier spelled like its key is written once. -/
def propertyText (key : String) (value : Expr) (text : Piece) : String :=
  match value with
  | .identifier _ name =>
    if name == key then keyText key else keyText key ++ ": " ++ wrap assignLevel text
  | _ => keyText key ++ ": " ++ wrap assignLevel text

def startsWith (start : String) (text : String) : Bool := start.toList.isPrefixOf text.toList

/-- Spellings made of signs in this order. -/
def signs : List String := ["", "+", "-", "+-"]

/-- An operator before its operand; signs are kept apart from like signs. -/
def unaryText (op : UnaryOp) (operand : String) : String :=
  if op.isWord || (signs.contains op.symbol && startsWith op.symbol operand) then
    op.symbol ++ " " ++ operand
  else op.symbol ++ operand

def commas (texts : List String) : String := ", ".intercalate texts

def paramsText : List String → String
  | [name] => name
  | names => "(" ++ commas names ++ ")"

/-- The body of an arrow function, kept apart from a block. -/
def arrowBodyText (text : String) : String :=
  if startsWith "\x7b" text then "(" ++ text ++ ")" else text

/-- An expression as a statement, kept apart from a block and a function declaration. -/
def stmtExprText (text : String) : String :=
  if startsWith "\x7b" text || startsWith "function" text then "(" ++ text ++ ")" else text

/-- Lines between a header with an opening brace and a closing brace at the same level. -/
def braced (pad header : String) (lines : List String) : List String :=
  (pad ++ header ++ "\x7b") :: lines ++ [pad ++ "\x7d"]

/-- A body in braces after a header, or a pair of braces for an empty one. -/
def bracedAfter (pad header : String) (isEmpty : Bool) (lines : List String) : List String :=
  if isEmpty then [pad ++ header ++ " \x7b\x7d"] else braced pad (header ++ " ") lines

def mapHead (f : String → String) : List String → List String
  | [] => []
  | line :: lines => f line :: lines

/-- The lines of an else part after those of the part before it; a closing brace takes the else on
its own line. -/
def joinElse (pad : String) (lines alternate : List String) : List String :=
  if lines.getLast? == some (pad ++ "\x7d") then
    lines.dropLast ++ mapHead (fun line => pad ++ "\x7d " ++ CharClass.trimStart line) alternate
  else lines ++ alternate

def isIf : Stmt → Bool
  | .ifElse .. => true
  | _ => false

def isCall : Expr → Bool
  | .call .. => true
  | _ => false

variable (indent : String)

def pad (level : Nat) : String := String.join (List.replicate level indent)

/-- A function body that opens on the line of its header and closes at the level of the statement
around it. -/
def inlineBlock (level : Nat) (header : String) (lines : List String) (isEmpty : Bool) : String :=
  if isEmpty then header ++ " \x7b\x7d"
  else "\n".intercalate ((header ++ " \x7b") :: lines ++ [pad indent level ++ "\x7d"])

mutual

/-- The text of an expression inside a statement of the given level. -/
def exprText (level : Nat) : Expr → Piece
  | .number _ text => (text, primaryLevel)
  | .string _ value => (quote value, primaryLevel)
  | .template _ quasis exprs =>
    ("\x60" ++ templateBody quasis (exprTexts level exprs) ++ "\x60", primaryLevel)
  | .boolean _ value => (if value then "true" else "false", primaryLevel)
  | .null _ => ("null", primaryLevel)
  | .this _ => ("this", primaryLevel)
  | .identifier _ name => (name, primaryLevel)
  | .paren _ inner => ("(" ++ (exprText level inner).1 ++ ")", primaryLevel)
  | .array _ elements =>
    ("[" ++ commas ((exprTexts level elements).map (wrap assignLevel)) ++ "]", primaryLevel)
  | .object _ properties =>
    (if properties.isEmpty then "\x7b\x7d"
      else "\x7b " ++ commas (propertyTexts level properties) ++ " \x7d", primaryLevel)
  | .function _ name params body =>
    (inlineBlock indent level ("function " ++ name.getD "" ++ "(" ++ commas params ++ ")")
      (stmtsText (level + 1) body) body.isEmpty, assignLevel)
  | .arrow _ params body =>
    (paramsText params ++ " => " ++ arrowBodyText (wrap assignLevel (exprText level body)),
      assignLevel)
  | .arrowBlock _ params _ body =>
    (inlineBlock indent level (paramsText params ++ " =>") (stmtsText (level + 1) body)
      body.isEmpty, assignLevel)
  | .call _ callee args =>
    (wrap callLevel (exprText level callee) ++ "("
      ++ commas ((exprTexts level args).map (wrap assignLevel)) ++ ")", callLevel)
  | .new _ callee args =>
    ("new " ++ wrap (if isCall callee then primaryLevel else callLevel) (exprText level callee)
      ++ "(" ++ commas ((exprTexts level args).map (wrap assignLevel)) ++ ")", callLevel)
  | .member _ object name => (wrap callLevel (exprText level object) ++ "." ++ name, callLevel)
  | .index _ object i =>
    (wrap callLevel (exprText level object) ++ "[" ++ (exprText level i).1 ++ "]", callLevel)
  | .unary _ op operand =>
    (unaryText op (wrap unaryLevel (exprText level operand)), unaryLevel)
  | .update _ op leading target =>
    if leading then (op.symbol ++ wrap unaryLevel (exprText level target), unaryLevel)
    else (wrap callLevel (exprText level target) ++ op.symbol, postfixedLevel)
  | .binary _ left op right =>
    (wrap op.precedence (exprText level left) ++ " " ++ op.symbol ++ " "
      ++ wrap (op.precedence + 1) (exprText level right), op.precedence)
  | .conditional _ test consequent alternate =>
    (wrap (conditionalLevel + 1) (exprText level test) ++ " ? "
      ++ wrap assignLevel (exprText level consequent) ++ " : "
      ++ wrap assignLevel (exprText level alternate), conditionalLevel)
  | .assign _ target op value =>
    (wrap callLevel (exprText level target) ++ " " ++ op.symbol ++ " "
      ++ wrap assignLevel (exprText level value), assignLevel)
  | .sequence _ exprs =>
    (commas ((exprTexts level exprs).map (wrap assignLevel)), sequenceLevel)
  | .steps _ qualifier binding steps _ _ =>
    (qualifier.word ++ "(" ++ binding ++ ") = "
      ++ commas ((exprTexts level steps).map (wrap assignLevel)), assignLevel)
  | .rejected .. => ("undefined", primaryLevel)
  | .foreign _ => ("", primaryLevel)

def exprTexts (level : Nat) : List Expr → List Piece
  | [] => []
  | e :: es => exprText level e :: exprTexts level es

def propertyTexts (level : Nat) : List Property → List String
  | [] => []
  | .mk _ key value _ :: ps =>
    propertyText key value (exprText level value) :: propertyTexts level ps

def declaratorTexts (level : Nat) : List Declarator → List String
  | [] => []
  | .mk _ name none :: ds => name :: declaratorTexts level ds
  | .mk _ name (some e) :: ds =>
    (name ++ " = " ++ wrap assignLevel (exprText level e)) :: declaratorTexts level ds

/-- The lines of a statement of the given level. -/
def stmtText (level : Nat) : Stmt → List String
  | .declare _ qualifier ds =>
    [pad indent level ++ qualifier.word ++ " " ++ commas (declaratorTexts level ds) ++ ";"]
  | .expr _ e => [pad indent level ++ stmtExprText (exprText level e).1 ++ ";"]
  | .ret _ none => [pad indent level ++ "return;"]
  | .ret _ (some e) => [pad indent level ++ "return " ++ (exprText level e).1 ++ ";"]
  | .function _ name params body =>
    bracedAfter (pad indent level) ("function " ++ name ++ "(" ++ commas params ++ ")")
      body.isEmpty (stmtsText (level + 1) body)
  | .ifElse _ test consequent none =>
    let header := "if (" ++ (exprText level test).1 ++ ")"
    match consequent with
    | .block _ body =>
      bracedAfter (pad indent level) header body.isEmpty (stmtsText (level + 1) body)
    | s => (pad indent level ++ header) :: stmtText (level + 1) s
  | .ifElse _ test consequent (some alternate) =>
    let header := "if (" ++ (exprText level test).1 ++ ")"
    let lines :=
      if isIf consequent then
        bracedAfter (pad indent level) header false (stmtText (level + 1) consequent)
      else match consequent with
        | .block _ body =>
          bracedAfter (pad indent level) header body.isEmpty (stmtsText (level + 1) body)
        | s => (pad indent level ++ header) :: stmtText (level + 1) s
    let others :=
      if isIf alternate then
        mapHead (fun line => pad indent level ++ "else " ++ CharClass.trimStart line)
          (stmtText level alternate)
      else match alternate with
        | .block _ body =>
          bracedAfter (pad indent level) "else" body.isEmpty (stmtsText (level + 1) body)
        | s => (pad indent level ++ "else") :: stmtText (level + 1) s
    joinElse (pad indent level) lines others
  | .whileLoop _ test body =>
    let header := "while (" ++ (exprText level test).1 ++ ")"
    match body with
    | .block _ body =>
      bracedAfter (pad indent level) header body.isEmpty (stmtsText (level + 1) body)
    | s => (pad indent level ++ header) :: stmtText (level + 1) s
  | .forLoop _ init test update body =>
    let start := match init with
      | none => ""
      | some (.declare _ qualifier ds) =>
        qualifier.word ++ " " ++ commas (declaratorTexts level ds)
      | some (.expr _ e) => (exprText level e).1
      | some _ => ""
    let test := match test with
      | none => ""
      | some e => " " ++ (exprText level e).1
    let update := match update with
      | none => ""
      | some e => " " ++ (exprText level e).1
    let header := "for (" ++ start ++ ";" ++ test ++ ";" ++ update ++ ")"
    match body with
    | .block _ body =>
      bracedAfter (pad indent level) header body.isEmpty (stmtsText (level + 1) body)
    | s => (pad indent level ++ header) :: stmtText (level + 1) s
  | .forOf _ qualifier name iterable body =>
    let header := "for (" ++ qualifier.word ++ " " ++ name ++ " of "
      ++ wrap assignLevel (exprText level iterable) ++ ")"
    match body with
    | .block _ body =>
      bracedAfter (pad indent level) header body.isEmpty (stmtsText (level + 1) body)
    | s => (pad indent level ++ header) :: stmtText (level + 1) s
  | .block _ body =>
    if body.isEmpty then [pad indent level ++ "\x7b\x7d"]
    else braced (pad indent level) "" (stmtsText (level + 1) body)
  | .break_ _ => [pad indent level ++ "break;"]
  | .continue_ _ => [pad indent level ++ "continue;"]
  | .throw_ _ e => [pad indent level ++ "throw " ++ (exprText level e).1 ++ ";"]
  | .empty _ => [pad indent level ++ ";"]
  | .steps _ qualifier binding result steps _ _ =>
    [pad indent level ++ qualifier.word ++ "(" ++ binding ++ ") " ++ result ++ " = "
      ++ commas ((exprTexts level steps).map (wrap assignLevel)) ++ ";"]
  | .rejected .. => []
  | .foreign _ => []

def stmtsText (level : Nat) : List Stmt → List String
  | [] => []
  | s :: ss => stmtText level s ++ stmtsText level ss

end

/-- The text of a module; an empty one has no line at all. -/
def moduleText (m : Module) : String :=
  let lines := stmtsText indent 0 m.body
  if lines.isEmpty then "" else "\n".intercalate lines ++ "\n"

/-- What a tree holds that is not of the language. -/
inductive Problem
  | statement (className : String)
  | expression (className : String)
  | operator (symbol : String)
deriving DecidableEq, Repr

namespace Problem

def message : Problem → String
  | statement c => "cannot print statement " ++ c
  | expression c => "cannot print expression " ++ c
  | operator s => "cannot print operator " ++ s

def ofNode? : Node → Option Problem
  | .stmt (.foreign c) => some (statement c)
  | .expr (.foreign c) => some (expression c)
  | .expr (.binary _ _ (.other s) _) => some (operator s)
  | _ => none

end Problem

/-- The text of a module of the language. -/
def module? (m : Module) : Except Problem String :=
  match (walkStmts m.body).findSome? Problem.ofNode? with
  | some p => .error p
  | none => .ok (moduleText indent m)

/-- The text of an expression of the language, standing alone. -/
def expr? (e : Expr) : Except Problem String :=
  match (walkExpr e).findSome? Problem.ofNode? with
  | some p => .error p
  | none => .ok (exprText indent 0 e).1

end StepBinding.Tree.Print
