import StepBinding.Tree.Walk

/-! Induction over trees. A fragment is a node, or nodes that stand together, and has fragments as
its parts. What holds of a fragment whenever it holds of its parts holds of all fragments, so a
statement about trees is proved for all classes of nodes at once. -/

namespace StepBinding.Tree

inductive Fragment
  | expr (e : Expr)
  | exprs (es : List Expr)
  | properties (ps : List Property)
  | declarators (ds : List Declarator)
  | stmt (s : Stmt)
  /-- The start of a loop; an expression there stands for itself. -/
  | start (init : Option Stmt)
  | option (value : Option Expr)
  | stmts (ss : List Stmt)

namespace Fragment

/-- The nodes of a fragment that do not belong to its parts. -/
def own : Fragment → List Node
  | .expr (.arrowBlock span params span' body) =>
    [.expr (.arrowBlock span params span' body), .stmt (.block span' body)]
  | .expr e => [.expr e]
  | .properties (p :: _) => [.property p]
  | .declarators (d :: _) => [.declarator d]
  | .stmt s => [.stmt s]
  | _ => []

/-- The fragments right below a fragment. -/
def parts : Fragment → List Fragment
  | .expr (.template _ _ es) | .expr (.array _ es) | .expr (.sequence _ es)
  | .expr (.steps _ _ _ es _ _) | .stmt (.steps _ _ _ _ es _ _) => [.exprs es]
  | .expr (.object _ ps) => [.properties ps]
  | .expr (.function _ _ _ body) | .expr (.arrowBlock _ _ _ body) | .stmt (.function _ _ _ body)
  | .stmt (.block _ body) => [.stmts body]
  | .expr (.arrow _ _ e) | .expr (.member _ e _) | .expr (.unary _ _ e) | .expr (.update _ _ _ e)
  | .expr (.paren _ e) | .stmt (.ret _ (some e)) | .stmt (.throw_ _ e) | .stmt (.expr _ e)
  | .option (some e) => [.expr e]
  | .expr (.call _ callee args) | .expr (.new _ callee args) => [.expr callee, .exprs args]
  | .expr (.index _ l r) | .expr (.binary _ l _ r) | .expr (.assign _ l _ r) => [.expr l, .expr r]
  | .expr (.conditional _ t c a) => [.expr t, .expr c, .expr a]
  | .exprs (e :: es) => [.expr e, .exprs es]
  | .properties (.mk _ _ e _ :: ps) => [.expr e, .properties ps]
  | .declarators (.mk _ _ none :: ds) => [.declarators ds]
  | .declarators (.mk _ _ (some e) :: ds) => [.expr e, .declarators ds]
  | .stmt (.declare _ _ ds) => [.declarators ds]
  | .stmt (.ifElse _ t c none) | .stmt (.whileLoop _ t c) | .stmt (.forOf _ _ _ t c) =>
    [.expr t, .stmt c]
  | .stmt (.ifElse _ t c (some a)) => [.expr t, .stmt c, .stmt a]
  | .stmt (.forLoop _ init test update body) =>
    [.start init, .option test, .option update, .stmt body]
  | .start (some (.expr _ e)) => [.expr e]
  | .start (some s) => [.stmt s]
  | .stmts (s :: ss) => [.stmt s, .stmts ss]
  | _ => []

theorem sizeOf_lt (x : Fragment) : ∀ y ∈ x.parts, sizeOf y < sizeOf x := by
  unfold parts
  split <;> simp <;> omega

/-- Induction over the parts. -/
theorem induct {P : Fragment → Prop} (h : ∀ x, (∀ y ∈ x.parts, P y) → P x) (x : Fragment) : P x :=
  h x fun y hy =>
    have := sizeOf_lt x y hy
    induct h y
termination_by sizeOf x

end Fragment

end StepBinding.Tree
