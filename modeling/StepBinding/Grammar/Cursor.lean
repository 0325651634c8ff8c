import StepBinding.Construct.Log
import StepBinding.Text.Quoted
import StepBinding.Token

/-! Reading a token stream. The cursor holds the tokens still to be read, of which the
last is the end mark and is never passed, and what was gathered on the way. Reading
stops when a token is out of place; what was gathered is kept, so reading can go on at
a later token. Nothing here knows the grammar. -/

namespace StepBinding.Grammar

open Token Construct

structure Cursor where
  /-- The tokens still to be read; the end mark stays. -/
  rest : List Token
  /-- The token read last, or the first one. -/
  last : Token
  diagnostics : List Diagnostic := []
  /-- Whether a token was out of place here, not counting the inside of steps. -/
  faulty : Bool := false
  log : Log := {}
deriving Inhabited

/-- Why reading stopped: a token out of place, a refused edit of the log, or an exhausted bound.
The last two never happen. -/
inductive Stop
  | misplaced
  | refused (why : Refusal)
  | exhausted
deriving DecidableEq, Repr

abbrev Parse := EStateM Stop Cursor

/-- The token to be read next. -/
def current : Parse Token := fun c => .ok (c.rest.headD c.last) c

/-- The token `n` places after the next one, or the last. -/
def peek (n : Nat) : Parse Token := fun c => .ok ((c.rest[n]?).getD (c.rest.getLastD c.last)) c

def isAt (k : Kind) : Parse Bool := do return (← current).kind == k

def isAtAny (ks : List Kind) : Parse Bool := do return ks.contains (← current).kind

/-- Reads one token; the end mark stays to be read again. -/
def advance : Parse Token := fun c =>
  match c.rest with
  | [] => .ok c.last c
  | [t] => .ok t { c with last := t }
  | t :: ts => .ok t { c with rest := ts, last := t }

/-- Reports that the program is not in the language, and goes on. -/
def report (message : String) (span : Span) : Parse Unit :=
  modify fun c =>
    { c with diagnostics := c.diagnostics ++ [Diagnostic.error .grammar message span],
             faulty := true }

/-- Adds diagnostics about step bindings, which do not make the program faulty. -/
def note (ds : List Diagnostic) : Parse Unit :=
  modify fun c => { c with diagnostics := c.diagnostics ++ ds }

/-- Reports and stops. -/
def fail {α : Type} (message : String) (span : Span) : Parse α := do
  report message span
  throw .misplaced

/-- Reads a token of the given kind, named `what` in the report if another one stands here. -/
def expect (k : Kind) (what : String) : Parse Token := do
  let t ← current
  if t.kind = k then advance
  else fail s!"expected {what}, found {Text.Quoted.quoted t.shown}" t.span

/-- From `start` to the end of the token read last. -/
def spanFrom (start : Span) : Parse Span := fun c => .ok (start.through c.last.span) c

/-- Edits the log of step bindings. -/
def edit (f : Log → Edited) : Parse Unit := fun c =>
  let e := f c.log
  match e.refusal with
  | none => .ok () { c with log := e.log }
  | some why => .error (.refused why) { c with log := e.log }

/-- The end of a statement: a semicolon, which may be left out before a closing brace and at the
end. -/
def semicolon : Parse Unit := do
  if ← isAt .semicolon then
    let _ ← advance
  else if ← isAtAny [.rbrace, .endMark] then return
  else
    let _ ← expect .semicolon "';'"

/-- Moves to where `rest` is left, the tokens before it being read. -/
def skipTo (rest : List Token) : Parse Unit :=
  modify fun c =>
    let passed := c.rest.take (c.rest.length - rest.length)
    { c with rest, last := passed.getLastD c.last }

/-- One pass of a loop: go on with a value, or leave with a result. -/
inductive Pass (σ β : Type)
  | again (s : σ)
  | leave (b : β)

/-- At most one pass for each of some tokens. -/
def passes {σ β : Type} (limit : List Token) (body : σ → Parse (Pass σ β)) (s : σ) : Parse β :=
  match limit with
  | [] => throw .exhausted
  | _ :: limit => do
    match ← body s with
    | .again s => passes limit body s
    | .leave b => pure b

/-- Passes until the body leaves. Each pass that goes on reads a token, so their number is bounded by
that of the tokens. -/
def loop {σ β : Type} (body : σ → Parse (Pass σ β)) (s : σ) : Parse β := do
  let c ← get
  passes (c.last :: c.rest) body s

/-- One more item of a list with commas, unless the list ends here. -/
def commaPass {α : Type} (close : Kind) (trailing : Bool) (item : Parse α) (acc : List α) :
    Parse (Pass (List α) (List α)) := do
  if ← isAtAny [close, .endMark] then return .leave acc.reverse
  if !acc.isEmpty then
    let _ ← expect .comma "','"
    if trailing then
      if ← isAt close then return .leave acc.reverse
  return .again ((← item) :: acc)

/-- Items with commas between them up to a closing token, which is read too. -/
def commaList {α : Type} (close : Kind) (closeName : String) (trailing : Bool) (item : Parse α) :
    Parse (List α) := do
  let items ← loop (commaPass close trailing item) []
  let _ ← expect close closeName
  return items

end StepBinding.Grammar
