import StepBinding.Diagnostic
import StepBinding.Proofs.Tree.All

/-! Trees with other positions. The ranges of the nodes say where a tree was read, and a change of
them leaves everything else about the tree. -/

namespace StepBinding

open List

/-- A change of ranges. -/
structure Relabel where
  span : Span → Span

namespace Relabel

variable (f : Relabel)

mutual

/-- An expression with its ranges changed. A foreign node has no range of its own to be
changed, and stays if its range does. -/
def expr : Expr → Expr
  | .number s text => .number (f.span s) text
  | .string s value => .string (f.span s) value
  | .template s quasis es => .template (f.span s) quasis (exprs es)
  | .boolean s value => .boolean (f.span s) value
  | .null s => .null (f.span s)
  | .this s => .this (f.span s)
  | .identifier s n => .identifier (f.span s) n
  | .array s es => .array (f.span s) (exprs es)
  | .object s ps => .object (f.span s) (properties ps)
  | .function s n params body => .function (f.span s) n params (stmts body)
  | .arrow s params body => .arrow (f.span s) params (expr body)
  | .arrowBlock s params s' body => .arrowBlock (f.span s) params (f.span s') (stmts body)
  | .call s g args => .call (f.span s) (expr g) (exprs args)
  | .new s g args => .new (f.span s) (expr g) (exprs args)
  | .member s o n => .member (f.span s) (expr o) n
  | .index s o i => .index (f.span s) (expr o) (expr i)
  | .unary s op x => .unary (f.span s) op (expr x)
  | .update s op leading t => .update (f.span s) op leading (expr t)
  | .binary s l op r => .binary (f.span s) (expr l) op (expr r)
  | .conditional s t c a => .conditional (f.span s) (expr t) (expr c) (expr a)
  | .assign s t op v => .assign (f.span s) (expr t) op (expr v)
  | .sequence s es => .sequence (f.span s) (exprs es)
  | .paren s inner => .paren (f.span s) (expr inner)
  | .steps s q b es i fresh => .steps (f.span s) q b (exprs es) i fresh
  | .rejected s form i => .rejected (f.span s) form i
  | .foreign c => if f.span default = default then .foreign c else .null (f.span default)

def exprs : List Expr → List Expr
  | [] => []
  | e :: es => expr e :: exprs es

def properties : List Property → List Property
  | [] => []
  | .mk s key value shorthand :: ps => .mk (f.span s) key (expr value) shorthand :: properties ps

def declarators : List Declarator → List Declarator
  | [] => []
  | .mk s n none :: ds => .mk (f.span s) n none :: declarators ds
  | .mk s n (some e) :: ds => .mk (f.span s) n (some (expr e)) :: declarators ds

/-- A statement with its ranges changed. -/
def stmt : Stmt → Stmt
  | .declare s q ds => .declare (f.span s) q (declarators ds)
  | .steps s q b result es i fresh => .steps (f.span s) q b result (exprs es) i fresh
  | .function s n params body => .function (f.span s) n params (stmts body)
  | .ret s value => .ret (f.span s) (option value)
  | .ifElse s t c none => .ifElse (f.span s) (expr t) (stmt c) none
  | .ifElse s t c (some a) => .ifElse (f.span s) (expr t) (stmt c) (some (stmt a))
  | .whileLoop s t body => .whileLoop (f.span s) (expr t) (stmt body)
  | .forLoop s init test update body =>
    .forLoop (f.span s) (start init) (option test) (option update) (stmt body)
  | .forOf s q n e body => .forOf (f.span s) q n (expr e) (stmt body)
  | .break_ s => .break_ (f.span s)
  | .continue_ s => .continue_ (f.span s)
  | .throw_ s e => .throw_ (f.span s) (expr e)
  | .block s body => .block (f.span s) (stmts body)
  | .expr s e => .expr (f.span s) (expr e)
  | .empty s => .empty (f.span s)
  | .rejected s form i => .rejected (f.span s) form i
  | .foreign c => .foreign c

def start : Option Stmt → Option Stmt
  | none => none
  | some s => some (stmt s)

def option : Option Expr → Option Expr
  | none => none
  | some e => some (expr e)

def stmts : List Stmt → List Stmt
  | [] => []
  | s :: ss => stmt s :: stmts ss

end

def property : Property → Property
  | .mk s key value shorthand => .mk (f.span s) key (f.expr value) shorthand

def declarator : Declarator → Declarator
  | .mk s n init => .mk (f.span s) n (f.option init)

/-- A diagnostic that points at other ranges. -/
def diagnostic (d : Diagnostic) : Diagnostic :=
  { d with labels := d.labels.map fun l => { l with span := f.span l.span } }

theorem exprs_eq_map (es : List Expr) : f.exprs es = es.map f.expr := by
  induction es with
  | nil => rfl
  | cons e es ih => rw [exprs, ih, map_cons]

theorem properties_eq_map (ps : List Property) : f.properties ps = ps.map f.property := by
  induction ps with
  | nil => rfl
  | cons p ps ih =>
    obtain ⟨s, key, value, shorthand⟩ := p
    rw [properties, ih, map_cons, property]

theorem declarators_eq_map (ds : List Declarator) : f.declarators ds = ds.map f.declarator := by
  induction ds with
  | nil => rfl
  | cons d ds ih =>
    obtain ⟨s, n, init⟩ := d
    cases init <;> rw [declarators, ih, map_cons, declarator, option]

theorem stmts_eq_map (ss : List Stmt) : f.stmts ss = ss.map f.stmt := by
  induction ss with
  | nil => rfl
  | cons s ss ih => rw [stmts, ih, map_cons]

@[simp] theorem isTarget_expr (e : Expr) : (f.expr e).isTarget = e.isTarget := by
  cases e <;> first | rfl | (unfold expr; split <;> rfl)

@[simp] theorem span_expr (e : Expr) : (f.expr e).span = f.span e.span := by
  cases e <;> first | rfl | skip
  unfold expr
  split
  · rename_i h
    exact h.symm
  · rfl

open StepBinding.Tree

def node : Node → Node
  | .expr e => .expr (f.expr e)
  | .stmt s => .stmt (f.stmt s)
  | .property p => .property (f.property p)
  | .declarator d => .declarator (f.declarator d)

def fragment : Fragment → Fragment
  | .expr e => .expr (f.expr e)
  | .exprs es => .exprs (f.exprs es)
  | .properties ps => .properties (f.properties ps)
  | .declarators ds => .declarators (f.declarators ds)
  | .stmt s => .stmt (f.stmt s)
  | .start init => .start (f.start init)
  | .option value => .option (f.option value)
  | .stmts ss => .stmts (f.stmts ss)

theorem own_parts_fragment (x : Fragment) : (f.fragment x).own = x.own.map f.node ∧
    (f.fragment x).parts = x.parts.map f.fragment := by
  rcases x with e | es | ps | ds | s | init | value | ss
  · cases e <;> first | exact ⟨rfl, rfl⟩ | skip
    simp only [fragment, expr]
    split <;> simp [Fragment.own, Fragment.parts, node, expr, *]
  · cases es <;> exact ⟨rfl, rfl⟩
  · rcases ps with _ | ⟨⟨⟩, _⟩ <;> exact ⟨rfl, rfl⟩
  · rcases ds with _ | ⟨⟨_, _, _ | _⟩, _⟩ <;> exact ⟨rfl, rfl⟩
  · cases s with
    | ret span value => cases value <;> exact ⟨rfl, rfl⟩
    | ifElse span t c a => cases a <;> exact ⟨rfl, rfl⟩
    | _ => exact ⟨rfl, rfl⟩
  · rcases init with _ | s
    · exact ⟨rfl, rfl⟩
    · cases s with
      | ifElse span t c a => cases a <;> exact ⟨rfl, rfl⟩
      | _ => exact ⟨rfl, rfl⟩
  · cases value <;> exact ⟨rfl, rfl⟩
  · cases ss <;> exact ⟨rfl, rfl⟩

theorem walk_fragment (x : Fragment) : (f.fragment x).walk = x.walk.map f.node := by
  induction x using Fragment.induct with
  | h x ih =>
    rw [Fragment.walk_eq, Fragment.walk_eq x, (f.own_parts_fragment x).1, (f.own_parts_fragment x).2,
      flatMap_map, map_append, map_flatMap, flatMap_def, flatMap_def,
      map_congr_left ih]

theorem walkExprs_exprs (es : List Expr) : walkExprs (f.exprs es) = (walkExprs es).map f.node :=
  f.walk_fragment (.exprs es)

theorem walkStmts_stmts (ss : List Stmt) : walkStmts (f.stmts ss) = (walkStmts ss).map f.node :=
  f.walk_fragment (.stmts ss)

theorem construct?_node (n : Node) : construct? (f.node n) = construct? n := by
  cases n with
  | expr e =>
    cases e <;> first | rfl | skip
    simp only [node, expr]
    split <;> rfl
  | stmt s =>
    cases s <;> first | rfl | skip
    rename_i alternate
    cases alternate <;> rfl
  | property p => rfl
  | declarator d => rfl

theorem constructs_exprs (es : List Expr) : constructs (f.exprs es) = constructs es := by
  unfold constructs
  rw [walkExprs_exprs, filterMap_map]
  exact congrArg (List.filterMap · _) (funext f.construct?_node)

section Equal

/-- Nothing is changed. -/
theorem fragment_id (x : Fragment) : (⟨id⟩ : Relabel).fragment x = x := by
  induction x using Fragment.induct with
  | h x ih =>
    rcases x with ⟨⟨⟩⟩ | ⟨_ | _⟩ | ⟨_ | ⟨⟨⟩, _⟩⟩ | ⟨_ | ⟨⟨_, _, _ | _⟩, _⟩⟩ |
      ⟨_ | _ | _ | ⟨_, _ | _⟩ | ⟨_, _, _, _ | _⟩ | _⟩ | ⟨_ | s⟩ | ⟨_ | _⟩ | ⟨_ | _⟩
    case start.some =>
      cases s <;> simp [Fragment.parts, fragment] at ih <;> simp [fragment, start, ih]
      simp [stmt, ih]
    all_goals simp [Fragment.parts, fragment] at ih
    all_goals simp [fragment, expr, exprs, properties, declarators, stmt, start, option, stmts, ih]

theorem stmts_id (ss : List Stmt) : (⟨id⟩ : Relabel).stmts ss = ss :=
  Fragment.stmts.inj (fragment_id (.stmts ss))

theorem expr_id (e : Expr) : (⟨id⟩ : Relabel).expr e = e :=
  Fragment.expr.inj (fragment_id (.expr e))

end Equal

end Relabel

end StepBinding
