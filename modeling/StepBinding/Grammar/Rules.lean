import StepBinding.Construct.Head
import StepBinding.Construct.Steps
import StepBinding.Grammar.Chain
import StepBinding.Grammar.Cursor
import StepBinding.Tree.Walk

/-! The rules of the grammar. Two rules refer to themselves through all others: the one
for a single expression and the one for a statement. Every rule below takes these two
as given; the last definitions tie the knot, a bounded number of times. Between two
uses of the knot at most one rule reads no token, so twice the number of tokens is
bound enough. -/

namespace StepBinding.Grammar

open Token Construct

/-- The two rules that all others come back to. -/
structure Rules where
  /-- An expression without top-level comma. -/
  assignment : Parse Expr
  statement : Parse Stmt

namespace Rules

variable (r : Rules)

/-- One more expression after a comma, the last one first. -/
def sequencePass (acc : List Expr) : Parse (Pass (List Expr) (List Expr)) := do
  if ← isAt .comma then
    let _ ← advance
    return .again ((← r.assignment) :: acc)
  else return .leave acc

/-- Expressions with commas between them form a sequence. -/
def expression : Parse Expr := do
  let first ← r.assignment
  if !(← isAt .comma) then return first
  let more ← loop r.sequencePass []
  let last := more.headD first
  return .sequence (first.span.through last.span) (first :: more.reverse)

/-- Goes on after a statement that could not be read: behind the next semicolon, or before a closing
brace. At least one token is passed, `unread` being the number of tokens before the statement. -/
def recover (unread : Nat) : Parse Unit := do
  if (← get).rest.length = unread && !(← isAt .endMark) then
    let _ ← advance
  loop (fun () => do
    if ← isAt .endMark then return .leave ()
    if ← isAt .semicolon then
      let _ ← advance
      return .leave ()
    if ← isAt .rbrace then return .leave ()
    let _ ← advance
    return .again ()) ()

/-- A statement in a list that ends with a token of kind `stop`; nothing if it cannot be read, which is
reported. -/
def statement? (stop : Kind) : Parse (Option Stmt) := do
  let unread := (← get).rest.length
  tryCatch (do return some (← r.statement)) fun
    | .misplaced => do
      recover unread
      if stop = .endMark && (← isAt .rbrace) then
        report "unexpected '\x7d'" (← current).span
        let _ ← advance
      return none
    | other => throw other

/-- One more statement, unless a token of kind `stop` or the end comes next. -/
def statementPass (stop : Kind) (acc : List Stmt) : Parse (Pass (List Stmt) (List Stmt)) := do
  if ← isAtAny [stop, .endMark] then return .leave acc.reverse
  match ← r.statement? stop with
  | some s => return .again (s :: acc)
  | none => return .again acc

/-- Statements up to a token of kind `stop` or the end, without those that cannot be read. -/
def statements (stop : Kind) : Parse (List Stmt) := loop (r.statementPass stop) []

def params : Parse (List String) := do
  let _ ← expect .lparen "'('"
  commaList .rparen "')'" false do return (← expect .identifier "a parameter name").text

/-- The statements between two braces. -/
def body : Parse (List Stmt) := do
  let _ ← expect .lbrace "'\x7b'"
  let body ← r.statements .rbrace
  let _ ← expect .rbrace "'\x7d'"
  return body

/-- A block with its range. -/
def block : Parse (Span × List Stmt) := do
  let start := (← current).span
  let body ← r.body
  return (← spanFrom start, body)

/-- An expression up to the end mark. -/
def wholeStep : Parse Expr := do
  let e ← r.assignment
  let t ← current
  if t.kind = .endMark then return e
  fail s!"unexpected {Text.Quoted.quoted t.text} in temporary binding step" t.span

/-- One step of a step binding: the tokens must form one whole expression. What is out of place in
them does not make the program around them faulty. -/
def step (tokens : List Token) : Parse (Option Expr) := fun c =>
  match tokens with
  | [] => .ok none c
  | first :: _ =>
    let stop : Token := ⟨.endMark, "", (tokens.getLastD first).span⟩
    let keep (sub : Cursor) : Cursor :=
      { c with diagnostics := c.diagnostics ++ sub.diagnostics, log := sub.log }
    match r.wholeStep { rest := tokens ++ [stop], last := first, log := c.log } with
    | .ok e sub => .ok (if sub.faulty then none else some e) (keep sub)
    | .error .misplaced sub => .ok none (keep sub)
    | .error other sub => .error other (keep sub)

/-- The steps of a step binding, with the code of every step that is no expression. -/
def stepList : List (List Token) → Parse (List Expr × List Code)
  | [] => return ([], [])
  | [] :: later => stepList later
  | tokens :: later => do
    match ← r.step tokens with
    | some e =>
      let (es, codes) ← stepList later
      return (e :: es, codes)
    | none =>
      let (es, codes) ← stepList later
      return (es, .grammar :: codes)

/-- What became of a step binding. -/
inductive Outcome
  | accepted (head : Head) (span : Span) (index : Nat) (steps : List Expr)
  | rejected (form : Form) (span : Span) (index : Nat)

/-- The problems of steps without tokens, each at the comma before it, or after it for the first
step; `tokens` start with the first step. -/
def emptySteps (split : Steps.Split) (tokens : List Token) : List Diagnostic :=
  let starts := (split.bounds 0).map Prod.fst
  split.emptySteps.map fun place =>
    let comma := tokens[(starts.getD place 0) - 1]?
    Diagnostic.error .emptyPipeline s!"step {place + 1} of the temporary binding is empty"
      ((comma.map Token.span).getD default)

/-- The end of a step binding that has no steps. -/
def abandon (head : Head) (following : List Token) (index : Nat) : Parse Outcome := do
  skipTo (Steps.split following).rest
  if head.form = .declaration then
    if ← isAt .semicolon then
      let _ ← advance
  let span ← spanFrom head.keyword.span
  edit fun log => log.rejectWith index (head.errors.map Diagnostic.code)
  return .rejected head.form span index

/-- The steps after an equals sign, which cut `following`, with the codes of their problems. -/
def readSteps (equals : Token) (following : List Token) (split : Steps.Split) :
    Parse (List Expr × List Code) := do
  if split.isEmpty then
    note [Diagnostic.error .emptyPipeline "temporary binding has no steps after '='" equals.span
      "expected at least one expression"]
    return ([], [.emptyPipeline])
  let holes := emptySteps split following
  note holes
  let (steps, wrong) ← r.stepList split.steps
  return (steps, holes.map Diagnostic.code ++ wrong)

/-- The end of a step binding with steps. Any problem rejects it, and the step bindings inside its
steps with it. -/
def conclude (head : Head) (index : Nat) (steps : List Expr) (codes : List Code) :
    Parse Outcome := do
  let span ← spanFrom head.keyword.span
  if codes.isEmpty then
    edit fun log => log.advance index .parsed
    if head.form = .declaration then semicolon
    return .accepted head span index steps
  else
    if head.form = .declaration then semicolon
    edit fun log => log.rejectAll (codes.headD .grammar) (Tree.constructs steps)
    edit fun log => log.rejectWith index codes
    return .rejected head.form span index

/-- A step binding from its keyword on. It gets a record at once. -/
def construct (expressionOnly : Bool) : Parse Outcome := do
  let tokens := (← get).rest
  let keyword ← current
  let head := Head.read expressionOnly keyword tokens.tail
  let index := (← get).log.size
  modify fun c =>
    { c with log := c.log.enter head.form head.span (head.binding.map Token.text) }
  note head.errors
  let following := tokens.drop head.length
  if !head.hasSteps then abandon head following index
  else
    let split := Steps.split following
    let equals := (tokens[head.length - 1]?).getD keyword
    let (steps, codes) ← r.readSteps equals following split
    skipTo split.rest
    conclude head index steps (head.errors.map Diagnostic.code ++ codes)

/-- The qualifier a head's keyword stands for. -/
def qualifier (head : Head) : Qualifier := (Qualifier.ofKind? head.keyword.kind).getD .let_

def bindingName (head : Head) : String := (head.binding.map Token.text).getD ""

/-- A step binding where an expression stands. -/
def constructExpr : Parse Expr := do
  match ← r.construct true with
  | .accepted head span index steps =>
    return .steps span (qualifier head) (bindingName head) steps index none
  | .rejected form span index => return .rejected span form index

/-- A step binding where a statement stands. -/
def constructStmt : Parse Stmt := do
  match ← r.construct false with
  | .accepted head span index steps =>
    match head.result with
    | some name =>
      return .steps span (qualifier head) (bindingName head) name.text steps index none
    | none =>
      semicolon
      return .expr span (.steps span (qualifier head) (bindingName head) steps index none)
  | .rejected form span index =>
    if form = .expression then
      if ← isAt .semicolon then
        let _ ← advance
    return .rejected span form index

/-- Whether an arrow follows the parenthesis that closes the first of the tokens. -/
def arrowAfter (depth : Nat) : List Token → Bool
  | [] => false
  | t :: ts =>
    match t.kind with
    | .lparen => arrowAfter (depth + 1) ts
    | .rparen =>
      if depth = 1 then ts.head?.any fun next => next.kind = .fatArrow
      else arrowAfter (depth - 1) ts
    | .endMark => false
    | _ => arrowAfter depth ts

/-- Whether an arrow function starts here. -/
def isArrowStart : List Token → Bool
  | [] => false
  | t :: ts =>
    if t.kind = .identifier then ts.head?.any fun next => next.kind = .fatArrow
    else t.kind = .lparen && arrowAfter 0 (t :: ts)

def arrow : Parse Expr := do
  let start := (← current).span
  let params ← (do
    if ← isAt .identifier then return [(← advance).text]
    else params : Parse (List String))
  let _ ← expect .fatArrow "'=>'"
  if ← isAt .lbrace then
    let (span, body) ← r.block
    return .arrowBlock (← spanFrom start) params span body
  else
    let body ← r.assignment
    return .arrow (← spanFrom start) params body

def functionExpr : Parse Expr := do
  let start := (← advance).span
  let name ← (do
    if ← isAt .identifier then return some (← advance).text
    else return none : Parse (Option String))
  let params ← params
  let body ← r.body
  return .function (← spanFrom start) name params body

def property : Parse Property := do
  let t ← current
  if t.kind = .identifier || t.kind = .string || t.kind = .number || t.kind.isReserved then
    let _ ← advance
  else
    let _ ← expect .identifier "a property key"
  if t.kind = .identifier && !(← isAt .colon) then
    return .mk t.span t.text (.identifier t.span t.text) true
  let _ ← expect .colon "':'"
  let value ← r.assignment
  return .mk (t.span.through value.span) t.text value false

def object : Parse Expr := do
  let start := (← advance).span
  let properties ← commaList .rbrace "'\x7d'" true r.property
  return .object (← spanFrom start) properties

def array : Parse Expr := do
  let start := (← advance).span
  let elements ← commaList .rbracket "']'" true r.assignment
  return .array (← spanFrom start) elements

/-- One substitution of a template and the chunk after it. -/
def templatePass (acc : List String × List Expr) :
    Parse (Pass (List String × List Expr) (List String × List Expr)) := do
  let e ← r.expression
  let t ← current
  if t.kind = .templateMiddle then
    let _ ← advance
    return .again (t.text :: acc.1, e :: acc.2)
  let _ ← expect .templateTail "'\x7d' closing the template substitution"
  return .leave ((t.text :: acc.1).reverse, (e :: acc.2).reverse)

/-- A template with substitutions; its chunks alternate with expressions. -/
def template : Parse Expr := do
  let start ← advance
  let (quasis, exprs) ← loop r.templatePass ([start.text], [])
  return .template (← spanFrom start.span) quasis exprs

def primary : Parse Expr := do
  let t ← current
  match t.kind with
  | .number => return .number (← advance).span t.text
  | .string => return .string (← advance).span t.text
  | .templateWhole => return .template (← advance).span [t.text] []
  | .templateHead => r.template
  | .boolean => return .boolean (← advance).span (t.text == "true")
  | .null => return .null (← advance).span
  | .kwThis => return .this (← advance).span
  | .identifier => return .identifier (← advance).span t.text
  | .lparen =>
    let _ ← advance
    let inner ← r.expression
    let _ ← expect .rparen "')'"
    return .paren (← spanFrom t.span) inner
  | .lbracket => r.array
  | .lbrace => r.object
  | .kwFunction => r.functionExpr
  | _ => fail s!"unexpected {Text.Quoted.quoted t.shown} in expression" t.span

/-- The name after a dot, which may be a reserved word. -/
def member (object : Expr) : Parse Expr := do
  let _ ← advance
  let t ← current
  if t.kind != .identifier && !t.kind.isReserved then
    let _ ← expect .identifier "a property name"
  let _ ← advance
  return .member (object.span.through t.span) object t.text

def index (object : Expr) : Parse Expr := do
  let _ ← advance
  let i ← r.expression
  let close ← expect .rbracket "']'"
  return .index (object.span.through close.span) object i

def args : Parse (List Expr) := do
  let _ ← advance
  commaList .rparen "')'" true r.assignment

/-- A member or an element of what was read. -/
def memberPass (e : Expr) : Parse (Pass Expr Expr) := do
  if ← isAt .dot then return .again (← member e)
  else if ← isAt .lbracket then return .again (← r.index e)
  else return .leave e

/-- A construction; its callee takes members but no calls. -/
def new : Parse Expr := do
  let start := (← advance).span
  let first ← r.primary
  let callee ← loop r.memberPass first
  let args ← (do if ← isAt .lparen then r.args else return [] : Parse (List Expr))
  return .new (← spanFrom start) callee args

/-- A call of what was read, a member or an element of it. -/
def callPass (e : Expr) : Parse (Pass Expr Expr) := do
  if ← isAt .lparen then
    let args ← r.args
    return .again (.call (← spanFrom e.span) e args)
  else r.memberPass e

/-- A primary expression with members, elements and calls. -/
def callMember : Parse Expr := do
  let first ← (do if ← isAt .kwNew then r.new else r.primary : Parse Expr)
  loop r.callPass first

def postfixed : Parse Expr := do
  let e ← r.callMember
  let t ← current
  match UpdateOp.ofKind? t.kind with
  | none => return e
  | some op =>
    if !e.isTarget then fail s!"invalid operand for postfix {t.text}" e.span
    let _ ← advance
    return .update (e.span.through t.span) op false e

/-- Applies an operator that stands before its operand. -/
def applyPrefixed (t : Token) (operand : Expr) : Parse Expr := do
  let span := t.span.through operand.span
  match UpdateOp.ofKind? t.kind with
  | some op =>
    if !operand.isTarget then fail s!"invalid operand for prefix {t.text}" operand.span
    return .update span op true operand
  | none => return .unary span ((UnaryOp.ofKind? t.kind).getD (.other t.text)) operand

/-- One more operator before an operand, the last one first. -/
def operatorPass (acc : List Token) : Parse (Pass (List Token) (List Token)) := do
  let t ← current
  if (UnaryOp.ofKind? t.kind).isSome || (UpdateOp.ofKind? t.kind).isSome then
    let _ ← advance
    return .again (t :: acc)
  else return .leave acc

/-- Applies operators to an operand, the first of them first. -/
def applyAll : List Token → Expr → Parse Expr
  | [], e => return e
  | t :: ts, e => do applyAll ts (← applyPrefixed t e)

/-- Operators before an operand apply from the inside out. -/
def unary : Parse Expr := do
  let operators ← loop operatorPass []
  let operand ← r.postfixed
  applyAll operators operand

/-- One more operator with its right operand. -/
def chainPass (acc : List (BinaryOp × Expr)) :
    Parse (Pass (List (BinaryOp × Expr)) (List (BinaryOp × Expr))) := do
  match BinaryOp.ofKind? (← current).kind with
  | some op =>
    let _ ← advance
    return .again ((op, ← r.unary) :: acc)
  | none => return .leave acc.reverse

def binary : Parse Expr := do
  let first ← r.unary
  let more ← loop r.chainPass []
  return Chain.group first more

def conditional : Parse Expr := do
  let test ← r.binary
  if !(← isAt .question) then return test
  let _ ← advance
  let consequent ← r.assignment
  let _ ← expect .colon "':'"
  let alternate ← r.assignment
  return .conditional (test.span.through alternate.span) test consequent alternate

/-- An expression without top-level comma, given the rules for the expressions inside it. -/
def assignmentRule : Parse Expr := do
  let tokens := (← get).rest
  if isMarker tokens then r.constructExpr
  else if isArrowStart tokens then r.arrow
  else
    let left ← r.conditional
    match AssignOp.ofKind? (← current).kind with
    | none => return left
    | some op =>
      if !left.isTarget then fail "invalid assignment target" left.span
      let _ ← advance
      let value ← r.assignment
      return .assign (left.span.through value.span) left op value

/-- The initial value of a declarator, which a constant must have. -/
def initializer (keyword name : Token) : Parse (Option Expr) := do
  if ← isAt .assign then
    let _ ← advance
    return some (← r.assignment)
  if keyword.kind = .kwConst && !(← isAt .kwOf) then
    report s!"missing initializer in const declaration of '{name.text}'" name.span
  return none

def declarator (keyword : Token) : Parse Declarator := do
  let name ← expect .identifier "a variable name"
  let init ← r.initializer keyword name
  return .mk (← spanFrom name.span) name.text init

/-- One more declarator, the last one if no comma follows. -/
def declaratorPass (keyword : Token) (acc : List Declarator) :
    Parse (Pass (List Declarator) (List Declarator)) := do
  let acc := (← r.declarator keyword) :: acc
  if ← isAt .comma then
    let _ ← advance
    return .again acc
  else return .leave acc.reverse

/-- One or more declarators after their keyword. -/
def declaration : Parse Stmt := do
  let keyword ← advance
  let declarators ← loop (r.declaratorPass keyword) []
  return .declare (← spanFrom keyword.span) ((Qualifier.ofKind? keyword.kind).getD .let_)
    declarators

def functionDecl : Parse Stmt := do
  let start := (← advance).span
  let name ← expect .identifier "a function name"
  let params ← params
  let body ← r.body
  return .function (← spanFrom start) name.text params body

def returnStmt : Parse Stmt := do
  let start := (← advance).span
  let value ← (do
    if ← isAtAny [.semicolon, .rbrace, .endMark] then return none
    else return some (← r.expression) : Parse (Option Expr))
  semicolon
  return .ret (← spanFrom start) value

/-- An expression in parentheses, as loops and conditionals have it. -/
def test : Parse Expr := do
  let _ ← expect .lparen "'('"
  let e ← r.expression
  let _ ← expect .rparen "')'"
  return e

def ifStmt : Parse Stmt := do
  let start := (← advance).span
  let test ← r.test
  let consequent ← r.statement
  let alternate ← (do
    if ← isAt .kwElse then
      let _ ← advance
      return some (← r.statement)
    else return none : Parse (Option Stmt))
  return .ifElse (← spanFrom start) test consequent alternate

def whileStmt : Parse Stmt := do
  let start := (← advance).span
  let test ← r.test
  let body ← r.statement
  return .whileLoop (← spanFrom start) test body

/-- An expression that may be left out before a token of kind `stop`. -/
def optional (stop : Kind) : Parse (Option Expr) := do
  if ← isAt stop then return none
  else return some (← r.expression)

/-- What comes first in the header of a loop. -/
def forInit : Parse (Option Stmt) := do
  if ← isAt .semicolon then return none
  let tokens := (← get).rest
  if (← current).kind.isDeclarator && !isMarker tokens then return some (← r.declaration)
  let e ← r.expression
  return some (.expr e.span e)

def forStmt : Parse Stmt := do
  let start := (← advance).span
  let _ ← expect .lparen "'('"
  if (← current).kind.isDeclarator && (← peek 1).kind = .identifier && (← peek 2).kind = .kwOf then
    let qualifier := (Qualifier.ofKind? (← advance).kind).getD .let_
    let name := (← advance).text
    let _ ← advance
    let iterable ← r.assignment
    let _ ← expect .rparen "')'"
    let body ← r.statement
    return .forOf (← spanFrom start) qualifier name iterable body
  let init ← r.forInit
  let _ ← expect .semicolon "';'"
  let test ← r.optional .semicolon
  let _ ← expect .semicolon "';'"
  let update ← r.optional .rparen
  let _ ← expect .rparen "')'"
  let body ← r.statement
  return .forLoop (← spanFrom start) init test update body

/-- A statement, given the rules for the statements and expressions inside it. -/
def statementRule : Parse Stmt := do
  let t ← current
  if t.kind.isDeclarator then
    if isMarker (← get).rest then r.constructStmt
    else
      let s ← r.declaration
      semicolon
      return s
  else match t.kind with
    | .kwFunction => r.functionDecl
    | .kwReturn => r.returnStmt
    | .kwIf => r.ifStmt
    | .kwWhile => r.whileStmt
    | .kwFor => r.forStmt
    | .kwBreak =>
      let _ ← advance
      semicolon
      return .break_ t.span
    | .kwContinue =>
      let _ ← advance
      semicolon
      return .continue_ t.span
    | .kwThrow =>
      let _ ← advance
      let value ← r.expression
      semicolon
      return .throw_ (← spanFrom t.span) value
    | .lbrace =>
      let (span, body) ← r.block
      return .block span body
    | .semicolon =>
      let _ ← advance
      return .empty t.span
    | _ =>
      let e ← r.expression
      semicolon
      return .expr (← spanFrom t.span) e

end Rules

/-- The rules unfolded `n` times. -/
def rules : Nat → Rules
  | 0 => { assignment := throw .exhausted, statement := throw .exhausted }
  | n + 1 =>
    { assignment := fun c => (rules n).assignmentRule c
      statement := fun c => (rules n).statementRule c }

end StepBinding.Grammar
