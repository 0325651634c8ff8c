import StepBinding.Construct.Log
import StepBinding.FreshNames
import StepBinding.Scope
import StepBinding.Tree.Walk

/-! Which binding each identifier means. Every step binding gets a fresh name. In its
second and later steps, at any depth, an identifier spelled like the binding means it
and is replaced by the fresh name, unless a binder in between has the same name. In
the first step the binding has no value yet; an identifier that is spelled like it
there and means nothing else is an error, which rejects the step binding together with
those inside of it.

A visit of a tree yields the new tree and a trace: the identifiers that mean nothing,
the diagnostics, the edits to be made in the log of step bindings, and the step bindings
in the order in which their fresh names are asked for. -/

namespace StepBinding.Resolve

open Construct

/-- An identifier that is bound by nothing where it stands. -/
structure Reference where
  name : String
  span : Span
deriving DecidableEq, Repr

/-- What is to be done in the log. -/
inductive Edit
  | note (index : Nat) (code : Code)
  | settle (index : Nat) (fresh : String)
  | reject (index : Nat) (code : Code)
  | rejectAll (indices : List Nat) (code : Code)
deriving DecidableEq, Repr

namespace Edit

def apply (log : Log) : Edit → Edited
  | note i code => { log := log.note i code }
  | settle i fresh => (log.modify i fun r => { r with fresh := some fresh }).advance i .resolved
  | reject i code => log.reject i code
  | rejectAll is code => log.rejectAll code is

/-- Applies edits in turn, up to the first that is refused. -/
def applyAll (log : Log) : List Edit → Except Refusal Log
  | [] => .ok log
  | e :: es =>
    let edited := e.apply log
    match edited.refusal with
    | some why => .error why
    | none => applyAll edited.log es

end Edit

/-- A value with what was met on the way to it. -/
structure Visit (α : Type) where
  value : α
  unresolved : List Reference := []
  diagnostics : List Diagnostic := []
  edits : List Edit := []
  /-- The step bindings for which a fresh name is asked. -/
  asked : List Nat := []

instance : Monad Visit where
  pure a := { value := a }
  bind v f :=
    let w := f v.value
    { value := w.value
      unresolved := v.unresolved ++ w.unresolved
      diagnostics := v.diagnostics ++ w.diagnostics
      edits := v.edits ++ w.edits
      asked := v.asked ++ w.asked }

/-- What stays the same during a visit. -/
structure Context where
  /-- The fresh name of each step binding, by its number. -/
  freshOf : Nat → String
  shadowWarnings : Bool := true

/-- What a hidden binding is called in a warning. -/
def hiddenWhat : BindingKind → String
  | .variable => "a variable"
  | .parameter => "a parameter"
  | .function => "a function"
  | .temporary => "the binding of an enclosing construct"
  | .global => "a declared global"

/-- The warning that a step binding hides `hidden`. -/
def shadowWarning (binding : String) (span : Span) (hidden : Binding) : Diagnostic :=
  { severity := .warning
    code := .shadowing
    message := s!"temporary binding '{binding}' shadows {hiddenWhat hidden.kind}"
    labels := { span, message := s!"'{binding}' is already bound here" }
      :: (hidden.span.map fun s => { span := s, message := "previous binding",
                                     style := .secondary }).toList
    notes := ["references inside the steps are renamed; the outer binding is unaffected"] }

/-- The error of an identifier in the first step of the binding it is spelled like. -/
def earlyUse (ref : Reference) : Diagnostic :=
  Diagnostic.error .unresolvedReference
    s!"'{ref.name}' is used in the first step of its own temporary binding" ref.span
    "the binding has no value until the first step completes"

variable (ctx : Context)

/-- The warning of a step binding, if it hides a binding. -/
def warn (scope : Scope) (binding : String) (span : Span) (index : Nat) : Visit Unit :=
  match scope.lookup binding with
  | some hidden =>
    if ctx.shadowWarnings then
      { value := (), diagnostics := [shadowWarning binding span hidden],
        edits := [.note index .shadowing] }
    else pure ()
  | none => pure ()

/-- The scope of the second and later steps. -/
def stepScope (scope : Scope) (binding : String) (span : Span) (index : Nat) : Scope :=
  [{ name := binding, kind := .temporary, fresh := some (ctx.freshOf index),
     construct := some index, span := some span }] :: scope

/-- Asks for the fresh name of a step binding. -/
def ask (index : Nat) : Visit Unit := { value := (), asked := [index] }

/-- A step binding from the visits of its steps; its new steps, or nothing if it is rejected. Its
fresh name is asked for before the steps are visited. -/
def settle (scope : Scope) (binding : String) (span : Span) (index : Nat) (first : Visit Expr)
    (later : Visit (List Expr)) : Visit (Option (List Expr)) :=
  let warning := warn ctx scope binding span index
  let own := first.unresolved.filter fun ref => ref.name == binding
  let others := first.unresolved.filter fun ref => ref.name != binding
  let steps := first.value :: later.value
  let ending : List Edit :=
    if own.isEmpty then [.settle index (ctx.freshOf index)]
    else [.reject index .unresolvedReference,
          .rejectAll (Tree.constructs steps) .unresolvedReference]
  { value := if own.isEmpty then some steps else none
    unresolved := others ++ later.unresolved
    diagnostics := warning.diagnostics ++ first.diagnostics ++ later.diagnostics
      ++ own.map earlyUse
    edits := warning.edits ++ first.edits ++ later.edits ++ ending
    asked := (ask index).asked ++ first.asked ++ later.asked }

/-- An identifier, replaced if it means the binding of a step binding. -/
def identifier (scope : Scope) (span : Span) (name : String) : Visit Expr :=
  match scope.lookup name with
  | none => { value := .identifier span name, unresolved := [⟨name, span⟩] }
  | some b =>
    match b.kind with
    | .temporary => pure (.identifier span (b.fresh.getD name))
    | _ => pure (.identifier span name)

def declaratorBinding : Declarator → Binding
  | .mk span name _ => { name, kind := .variable, span := some span }

/-- What a statement declares in the statement list it stands in. -/
def declared : Stmt → List Binding
  | .declare _ .var _ => []
  | .declare _ _ ds => ds.map declaratorBinding
  | .function span name _ _ => [{ name, kind := .function, span := some span }]
  | .steps _ .var _ _ _ _ _ => []
  | .steps span _ _ result _ _ _ => [{ name := result, kind := .variable, span := some span }]
  | _ => []

def parameters (names : List String) : List Binding :=
  names.map fun name => { name, kind := .parameter }

def variableBindings (names : List String) : List Binding :=
  names.map fun name => { name, kind := .variable }

/-- The frame of a block. -/
def blockFrame (body : List Stmt) : Frame := Frame.defineAll [] (body.flatMap declared)

/-- The frame of a function with the given parameters. -/
def functionFrame (params : List String) (body : List Stmt) : Frame :=
  Frame.defineAll [] (parameters params ++ variableBindings (Tree.varNamesOf body)
    ++ body.flatMap declared)

/-- The frame of a loop header. -/
def loopFrame : Option Stmt → Frame
  | some (.declare _ .var _) => []
  | some (.declare _ _ ds) => Frame.defineAll [] (ds.map declaratorBinding)
  | _ => []

/-- The scope inside a function expression, in which its own name is bound. -/
def nameScope (scope : Scope) : Option String → Scope
  | none => scope
  | some name => [{ name, kind := .function }] :: scope

mutual

def expr (scope : Scope) : Expr → Visit Expr
  | .identifier span name => identifier scope span name
  | .template span quasis es => do return .template span quasis (← exprs scope es)
  | .array span es => do return .array span (← exprs scope es)
  | .object span ps => do return .object span (← properties scope ps)
  | .function span name params body => do
    return .function span name params
      (← stmts (functionFrame params body :: nameScope scope name) body)
  | .arrow span params body => do
    return .arrow span params (← expr (Frame.defineAll [] (parameters params) :: scope) body)
  | .arrowBlock span params blockSpan body => do
    return .arrowBlock span params blockSpan (← stmts (functionFrame params body :: scope) body)
  | .call span callee args => do return .call span (← expr scope callee) (← exprs scope args)
  | .new span callee args => do return .new span (← expr scope callee) (← exprs scope args)
  | .member span object name => do return .member span (← expr scope object) name
  | .index span object i => do return .index span (← expr scope object) (← expr scope i)
  | .unary span op operand => do return .unary span op (← expr scope operand)
  | .update span op leading target => do return .update span op leading (← expr scope target)
  | .binary span left op right => do
    return .binary span (← expr scope left) op (← expr scope right)
  | .conditional span test consequent alternate => do
    return .conditional span (← expr scope test) (← expr scope consequent)
      (← expr scope alternate)
  | .assign span target op value => do
    return .assign span (← expr scope target) op (← expr scope value)
  | .sequence span es => do return .sequence span (← exprs scope es)
  | .paren span inner => do return .paren span (← expr scope inner)
  | .steps span qualifier binding [] index fresh => do
    ask index
    return .steps span qualifier binding [] index fresh
  | .steps span qualifier binding (first :: later) index _ => do
    match ← settle ctx scope binding span index (expr scope first)
        (exprs (stepScope ctx scope binding span index) later) with
    | some steps => return .steps span qualifier binding steps index (some (ctx.freshOf index))
    | none => return .rejected span .expression index
  | e => pure e

def exprs (scope : Scope) : List Expr → Visit (List Expr)
  | [] => pure []
  | e :: es => do return (← expr scope e) :: (← exprs scope es)

def properties (scope : Scope) : List Property → Visit (List Property)
  | [] => pure []
  | .mk span key value shorthand :: ps => do
    return .mk span key (← expr scope value) shorthand :: (← properties scope ps)

def declarators (scope : Scope) : List Declarator → Visit (List Declarator)
  | [] => pure []
  | .mk span name none :: ds => do return .mk span name none :: (← declarators scope ds)
  | .mk span name (some e) :: ds => do
    return .mk span name (some (← expr scope e)) :: (← declarators scope ds)

def stmt (scope : Scope) : Stmt → Visit Stmt
  | .declare span qualifier ds => do return .declare span qualifier (← declarators scope ds)
  | .steps span qualifier binding result [] index fresh => do
    ask index
    return .steps span qualifier binding result [] index fresh
  | .steps span qualifier binding result (first :: later) index _ => do
    match ← settle ctx scope binding span index (expr scope first)
        (exprs (stepScope ctx scope binding span index) later) with
    | some steps =>
      return .steps span qualifier binding result steps index (some (ctx.freshOf index))
    | none => return .rejected span .declaration index
  | .function span name params body => do
    return .function span name params (← stmts (functionFrame params body :: scope) body)
  | .ret span (some e) => do return .ret span (some (← expr scope e))
  | .ifElse span test consequent none => do
    return .ifElse span (← expr scope test) (← stmt scope consequent) none
  | .ifElse span test consequent (some alternate) => do
    return .ifElse span (← expr scope test) (← stmt scope consequent)
      (some (← stmt scope alternate))
  | .whileLoop span test body => do
    return .whileLoop span (← expr scope test) (← stmt scope body)
  | .forLoop span init test update body => do
    let inner := loopFrame init :: scope
    let init ← match init with
      | none => pure none
      | some s => some <$> stmt inner s
    let test ← match test with
      | none => pure none
      | some e => some <$> expr inner e
    let update ← match update with
      | none => pure none
      | some e => some <$> expr inner e
    return .forLoop span init test update (← stmt inner body)
  | .forOf span qualifier name iterable body => do
    return .forOf span qualifier name (← expr scope iterable)
      (← stmt ([{ name, kind := .variable }] :: scope) body)
  | .throw_ span e => do return .throw_ span (← expr scope e)
  | .block span body => do return .block span (← stmts (blockFrame body :: scope) body)
  | .expr span e => do return .expr span (← expr scope e)
  | s => pure s

/-- The statements of a list whose declarations are in the scope already. -/
def stmts (scope : Scope) : List Stmt → Visit (List Stmt)
  | [] => pure []
  | s :: ss => do return (← stmt scope s) :: (← stmts scope ss)

end

end StepBinding.Resolve
