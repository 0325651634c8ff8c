import StepBinding.Tree

/-! Binary operators between operands. Operands and operators are read as a flat chain,
and the chain is grouped afterwards: each further operand goes as far down the right
side of the tree as its operator binds tighter than the ones it passes. -/

namespace StepBinding.Grammar.Chain

/-- A binary node over the range of its operands. -/
def node (left : Expr) (op : BinaryOp) (right : Expr) : Expr :=
  .binary (left.span.through right.span) left op right

/-- The tree with one more operator and operand at its right end. -/
def attach (op : BinaryOp) (right : Expr) : Expr → Expr
  | .binary s l o r =>
    if o.precedence < op.precedence then node l o (attach op right r)
    else node (.binary s l o r) op right
  | e => node e op right

/-- The tree of a chain. -/
def group (first : Expr) (more : List (BinaryOp × Expr)) : Expr :=
  more.foldl (fun tree link => attach link.1 link.2 tree) first

end StepBinding.Grammar.Chain
