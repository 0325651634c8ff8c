import StepBinding.Tree

/-! The nodes of a tree in the order in which the source spells them, each before its
parts, and what is read off that list: the numbers of the step bindings and the
identifiers that are spelled. Also the names that a statement list declares for the
whole function around it. -/

namespace StepBinding

/-- A node of any class. -/
inductive Node
  | expr (e : Expr)
  | stmt (s : Stmt)
  | property (p : Property)
  | declarator (d : Declarator)

namespace Tree

mutual

/-- An expression and all nodes below it. -/
def walkExpr : Expr → List Node
  | e@(.template _ _ es) => .expr e :: walkExprs es
  | e@(.array _ es) => .expr e :: walkExprs es
  | e@(.object _ ps) => .expr e :: walkProperties ps
  | e@(.function _ _ _ body) => .expr e :: walkStmts body
  | e@(.arrow _ _ body) => .expr e :: walkExpr body
  | e@(.arrowBlock _ _ span body) => .expr e :: .stmt (.block span body) :: walkStmts body
  | e@(.call _ callee args) => .expr e :: (walkExpr callee ++ walkExprs args)
  | e@(.new _ callee args) => .expr e :: (walkExpr callee ++ walkExprs args)
  | e@(.member _ o _) => .expr e :: walkExpr o
  | e@(.index _ o i) => .expr e :: (walkExpr o ++ walkExpr i)
  | e@(.unary _ _ x) => .expr e :: walkExpr x
  | e@(.update _ _ _ x) => .expr e :: walkExpr x
  | e@(.binary _ l _ r) => .expr e :: (walkExpr l ++ walkExpr r)
  | e@(.conditional _ t c a) => .expr e :: (walkExpr t ++ walkExpr c ++ walkExpr a)
  | e@(.assign _ t _ v) => .expr e :: (walkExpr t ++ walkExpr v)
  | e@(.sequence _ es) => .expr e :: walkExprs es
  | e@(.paren _ x) => .expr e :: walkExpr x
  | e@(.steps _ _ _ es _ _) => .expr e :: walkExprs es
  | e => [.expr e]

def walkExprs : List Expr → List Node
  | [] => []
  | e :: es => walkExpr e ++ walkExprs es

def walkProperties : List Property → List Node
  | [] => []
  | .mk span key value shorthand :: ps =>
    .property (.mk span key value shorthand) :: (walkExpr value ++ walkProperties ps)

def walkDeclarators : List Declarator → List Node
  | [] => []
  | .mk span name none :: ds => .declarator (.mk span name none) :: walkDeclarators ds
  | .mk span name (some e) :: ds =>
    .declarator (.mk span name (some e)) :: (walkExpr e ++ walkDeclarators ds)

/-- A statement and all nodes below it; the expression that starts a loop stands for itself. -/
def walkStmt : Stmt → List Node
  | s@(.declare _ _ ds) => .stmt s :: walkDeclarators ds
  | s@(.steps _ _ _ _ es _ _) => .stmt s :: walkExprs es
  | s@(.function _ _ _ body) => .stmt s :: walkStmts body
  | s@(.ret _ (some e)) => .stmt s :: walkExpr e
  | s@(.ifElse _ t c none) => .stmt s :: (walkExpr t ++ walkStmt c)
  | s@(.ifElse _ t c (some a)) => .stmt s :: (walkExpr t ++ walkStmt c ++ walkStmt a)
  | s@(.whileLoop _ t b) => .stmt s :: (walkExpr t ++ walkStmt b)
  | s@(.forLoop _ init test update body) =>
    let start := match init with
      | none => []
      | some (.expr _ e) => walkExpr e
      | some i => walkStmt i
    let test := match test with
      | none => []
      | some e => walkExpr e
    let update := match update with
      | none => []
      | some e => walkExpr e
    .stmt s :: (start ++ test ++ update ++ walkStmt body)
  | s@(.forOf _ _ _ e b) => .stmt s :: (walkExpr e ++ walkStmt b)
  | s@(.throw_ _ e) => .stmt s :: walkExpr e
  | s@(.block _ body) => .stmt s :: walkStmts body
  | s@(.expr _ e) => .stmt s :: walkExpr e
  | s => [.stmt s]

def walkStmts : List Stmt → List Node
  | [] => []
  | s :: ss => walkStmt s ++ walkStmts ss

end

/-- The number of a step binding that was not rejected. -/
def construct? : Node → Option Nat
  | .expr (.steps _ _ _ _ i _) => some i
  | .stmt (.steps _ _ _ _ _ i _) => some i
  | _ => none

/-- The numbers of the step bindings in some expressions, the outer ones first. -/
def constructs (es : List Expr) : List Nat := (walkExprs es).filterMap construct?

/-- The identifiers that a node itself spells. -/
def spelled : Node → List String
  | .expr (.identifier _ name) => [name]
  | .expr (.function _ name params _) => name.toList ++ params
  | .expr (.arrow _ params _) => params
  | .expr (.arrowBlock _ params _ _) => params
  | .expr (.steps _ _ binding _ _ _) => [binding]
  | .stmt (.function _ name params _) => name :: params
  | .stmt (.forOf _ _ name _ _) => [name]
  | .stmt (.steps _ _ binding result _ _ _) => [binding, result]
  | .declarator (.mk _ name _) => [name]
  | _ => []

/-- Every identifier spelled in a module. -/
def names (m : Module) : List String := (walkStmts m.body).flatMap spelled

section Var

-- What a step binding with `var` declares, by its binding, its result and its fresh name.
variable (ofSteps : String → String → Option String → List String)

mutual

/-- The names a statement declares with `var`, not looking into functions. -/
def varNamesBy : Stmt → List String
  | .declare _ .var ds => ds.map fun | .mk _ name _ => name
  | .steps _ .var binding result _ _ fresh => ofSteps binding result fresh
  | .block _ body => varNamesOfBy body
  | .ifElse _ _ c none => varNamesBy c
  | .ifElse _ _ c (some a) => varNamesBy c ++ varNamesBy a
  | .whileLoop _ _ b => varNamesBy b
  | .forLoop _ none _ _ b => varNamesBy b
  | .forLoop _ (some (.declare _ .var ds)) _ _ b =>
    (ds.map fun | .mk _ name _ => name) ++ varNamesBy b
  | .forLoop _ (some _) _ _ b => varNamesBy b
  | .forOf _ .var name _ b => name :: varNamesBy b
  | .forOf _ _ _ _ b => varNamesBy b
  | _ => []

/-- The names a statement list declares with `var`, not looking into functions. -/
def varNamesOfBy : List Stmt → List String
  | [] => []
  | s :: ss => varNamesBy s ++ varNamesOfBy ss

end

end Var

/-- The names a statement declares with `var`; a step binding declares its result. -/
def varNames : Stmt → List String := varNamesBy fun _ result _ => [result]

/-- The names a statement list declares with `var`; a step binding declares its result. -/
def varNamesOf : List Stmt → List String := varNamesOfBy fun _ result _ => [result]

end Tree

end StepBinding
