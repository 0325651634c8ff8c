import StepBinding.Tree
import StepBinding.Text.Quoted

/-! Outlines of trees for reading: every node by its class, its parts below it. Ranges
and parts that are not there are left out. -/

namespace StepBinding.Tree

mutual

/-- A node with its named parts. -/
inductive Outline
  | node (className : String) (parts : List Part)

/-- What a part of a node is called and what it is. -/
inductive Part
  | shown (name : String) (text : String)
  | child (name : String) (o : Outline)
  | children (name : String) (os : List Outline)

end

namespace Outline

def indent (depth : Nat) : String := String.ofList (List.replicate (2 * depth) ' ')

mutual

/-- The lines of an outline. -/
def lines (depth : Nat) : Outline → List String
  | .node className parts => (indent depth ++ className) :: partsLines depth parts

def partsLines (depth : Nat) : List Part → List String
  | [] => []
  | .shown name text :: ps => (indent (depth + 1) ++ name ++ ": " ++ text) :: partsLines depth ps
  | .child name o :: ps =>
    (indent (depth + 1) ++ name ++ ":") :: (lines (depth + 2) o ++ partsLines depth ps)
  | .children name [] :: ps => (indent (depth + 1) ++ name ++ ": []") :: partsLines depth ps
  | .children name (o :: os) :: ps =>
    (indent (depth + 1) ++ name ++ ":")
      :: (lines (depth + 2) o ++ listLines (depth + 2) os ++ partsLines depth ps)

def listLines (depth : Nat) : List Outline → List String
  | [] => []
  | o :: os => lines depth o ++ listLines depth os

end

def textPart (name s : String) : Part := .shown name (Text.Quoted.quoted s)

def boolPart (name : String) (b : Bool) : Part := .shown name (if b then "True" else "False")

def numberPart (name : String) (n : Nat) : Part := .shown name (toString n)

def textsPart (name : String) (ss : List String) : Part :=
  .shown name ("[" ++ ", ".intercalate (ss.map Text.Quoted.quoted) ++ "]")

def freshPart : Option String → List Part
  | none => []
  | some s => [textPart "synthetic" s]

mutual

def ofExpr : Expr → Outline
  | .number _ text => .node "NumberLit" [textPart "value" text]
  | .string _ s => .node "StringLit" [textPart "value" s]
  | .template _ quasis es =>
    .node "TemplateLit" [textsPart "quasis" quasis, .children "exprs" (ofExprs es)]
  | .boolean _ b => .node "BooleanLit" [boolPart "value" b]
  | .null _ => .node "NullLit" []
  | .this _ => .node "ThisExpr" []
  | .identifier _ name => .node "IdentifierExpr" [textPart "name" name]
  | .array _ es => .node "ArrayLiteral" [.children "elements" (ofExprs es)]
  | .object _ ps => .node "ObjectLiteral" [.children "properties" (ofProperties ps)]
  | .function _ name params body =>
    .node "FunctionExpr" ((name.map (textPart "name")).toList
      ++ [textsPart "params" params, .children "body" (ofStmts body)])
  | .arrow _ params body =>
    .node "ArrowFunction" [textsPart "params" params, .child "body" (ofExpr body)]
  | .arrowBlock _ params _ body =>
    .node "ArrowFunction" [textsPart "params" params,
      .child "body" (.node "BlockStmt" [.children "body" (ofStmts body)])]
  | .call _ f args =>
    .node "CallExpr" [.child "callee" (ofExpr f), .children "args" (ofExprs args)]
  | .new _ f args =>
    .node "NewExpr" [.child "callee" (ofExpr f), .children "args" (ofExprs args)]
  | .member _ o name => .node "MemberExpr" [.child "obj" (ofExpr o), textPart "name" name]
  | .index _ o i => .node "IndexExpr" [.child "obj" (ofExpr o), .child "index" (ofExpr i)]
  | .unary _ op e => .node "UnaryExpr" [textPart "op" op.symbol, .child "operand" (ofExpr e)]
  | .update _ op leading e =>
    .node "UpdateExpr" [textPart "op" op.symbol, boolPart "prefix" leading,
      .child "target" (ofExpr e)]
  | .binary _ l op r =>
    .node "BinaryExpr" [.child "left" (ofExpr l), textPart "op" op.symbol,
      .child "right" (ofExpr r)]
  | .conditional _ t c a =>
    .node "ConditionalExpr" [.child "test" (ofExpr t), .child "consequent" (ofExpr c),
      .child "alternate" (ofExpr a)]
  | .assign _ t op v =>
    .node "AssignExpr" [.child "target" (ofExpr t), textPart "op" op.symbol,
      .child "value" (ofExpr v)]
  | .sequence _ es => .node "SequenceExpr" [.children "exprs" (ofExprs es)]
  | .paren _ e => .node "ParenExpr" [.child "expr" (ofExpr e)]
  | .steps _ qualifier binding es i fresh =>
    .node "TempBindingExpr" ([textPart "qualifier" qualifier.word, textPart "binding" binding,
      .children "steps" (ofExprs es), numberPart "index" i] ++ freshPart fresh)
  | .rejected _ form i =>
    .node "RejectedConstruct" [textPart "kind" form.word, numberPart "index" i]
  | .foreign className => .node className []

def ofExprs : List Expr → List Outline
  | [] => []
  | e :: es => ofExpr e :: ofExprs es

def ofProperties : List Property → List Outline
  | [] => []
  | .mk _ key e shorthand :: ps =>
    .node "Property" [textPart "key" key, .child "value" (ofExpr e),
      boolPart "shorthand" shorthand] :: ofProperties ps

def ofDeclarators : List Declarator → List Outline
  | [] => []
  | .mk _ name none :: ds => .node "Declarator" [textPart "name" name] :: ofDeclarators ds
  | .mk _ name (some e) :: ds =>
    .node "Declarator" [textPart "name" name, .child "init" (ofExpr e)] :: ofDeclarators ds

def ofStmt : Stmt → Outline
  | .declare _ qualifier ds =>
    .node "VarDecl" [textPart "kind" qualifier.word, .children "declarators" (ofDeclarators ds)]
  | .steps _ qualifier binding result es i fresh =>
    .node "TempBindingDecl" ([textPart "qualifier" qualifier.word, textPart "binding" binding,
      textPart "result_name" result, .children "steps" (ofExprs es), numberPart "index" i]
      ++ freshPart fresh)
  | .function _ name params body =>
    .node "FunctionDecl" [textPart "name" name, textsPart "params" params,
      .children "body" (ofStmts body)]
  | .ret _ none => .node "ReturnStmt" []
  | .ret _ (some e) => .node "ReturnStmt" [.child "value" (ofExpr e)]
  | .ifElse _ t c none =>
    .node "IfStmt" [.child "test" (ofExpr t), .child "consequent" (ofStmt c)]
  | .ifElse _ t c (some a) =>
    .node "IfStmt" [.child "test" (ofExpr t), .child "consequent" (ofStmt c),
      .child "alternate" (ofStmt a)]
  | .whileLoop _ t b => .node "WhileStmt" [.child "test" (ofExpr t), .child "body" (ofStmt b)]
  | .forLoop _ init test update body =>
    let first := match init with
      | none => []
      | some (.expr _ e) => [.child "init" (ofExpr e)]
      | some s => [.child "init" (ofStmt s)]
    let second := match test with
      | none => []
      | some e => [.child "test" (ofExpr e)]
    let third := match update with
      | none => []
      | some e => [.child "update" (ofExpr e)]
    .node "ForStmt" (first ++ second ++ third ++ [.child "body" (ofStmt body)])
  | .forOf _ qualifier name e b =>
    .node "ForOfStmt" [textPart "kind" qualifier.word, textPart "name" name,
      .child "iterable" (ofExpr e), .child "body" (ofStmt b)]
  | .break_ _ => .node "BreakStmt" []
  | .continue_ _ => .node "ContinueStmt" []
  | .throw_ _ e => .node "ThrowStmt" [.child "value" (ofExpr e)]
  | .block _ body => .node "BlockStmt" [.children "body" (ofStmts body)]
  | .expr _ e => .node "ExprStmt" [.child "expr" (ofExpr e)]
  | .empty _ => .node "EmptyStmt" []
  | .rejected _ form i =>
    .node "RejectedConstruct" [textPart "kind" form.word, numberPart "index" i]
  | .foreign className => .node className []

def ofStmts : List Stmt → List Outline
  | [] => []
  | s :: ss => ofStmt s :: ofStmts ss

end

/-- The outline of a module as text. -/
def moduleText (m : Module) : String :=
  String.join ((lines 0 (.node "Module" [.children "body" (ofStmts m.body)])).map (· ++ "\n"))

end Outline

end StepBinding.Tree
