import Mathlib.Data.List.Forall2
import StepBinding.Proofs.Tree.Form

/-! Places in a tree and what is bound there. A place is a path of positions, from a node to one
of its parts at each position. Going into a part, one may go through binders: a scope that
declares names, or the later steps of a step binding. The binders that are passed on the way to
a place form its trail, the innermost first. -/

namespace StepBinding

open List

variable {i : Nat} {name : String} {n x : Node} {place : List Nat} {α β : Type}

theorem exists_of_forall₂ {R : α → β → Prop} {as : List α} {bs : List β} (h : List.Forall₂ R as bs)
    {a : α} (ha : as[i]? = some a) : ∃ b, bs[i]? = some b ∧ R a b := by
  induction h generalizing i with
  | nil => cases ha
  | @cons a' b as bs hab _ ih =>
    cases i with
    | zero =>
      cases ha
      exact ⟨b, rfl, hab⟩
    | succ i => exact ih ha

theorem exists_mem_of_forall₂ {R : α → β → Prop} {as : List α} {bs : List β}
    (h : List.Forall₂ R as bs) {a : α} (ha : a ∈ as) : ∃ b ∈ bs, R a b := by
  obtain ⟨i, hi⟩ := getElem?_of_mem ha
  obtain ⟨b, hb, hab⟩ := exists_of_forall₂ h hi
  exact ⟨b, mem_of_getElem? hb, hab⟩

/-- What binds names between a node and a part of it. -/
inductive Binder
  /-- A scope that declares names. -/
  | names (declared : List String)
  /-- The second and later steps of a step binding, with its number. -/
  | later (binding : String) (index : Nat)
deriving DecidableEq

namespace Binder

def binds : Binder → String → Bool
  | names declared, name => declared.contains name
  | later binding _, name => binding == name

@[simp] theorem binds_names {declared : List String} :
    (names declared).binds name ↔ name ∈ declared := contains_iff_mem

@[simp] theorem binds_later {binding : String} {index : Nat} :
    (later binding index).binds name ↔ binding = name := beq_iff_eq

end Binder

namespace Tree

/-- The names that a statement declares in the statement list it stands in: those of `let`, `const`
and function declarations and of step bindings with `let` or `const`. -/
def standing : Stmt → List String
  | .declare _ q ds => if q = .var then [] else ds.map Declarator.name
  | .function _ name _ _ => [name]
  | .steps _ q _ result _ _ _ => if q = .var then [] else [result]
  | _ => []

/-- The names that the scope of a function binds. -/
def functionNames (params : List String) (body : List Stmt) : List String :=
  params ++ varNamesOf body ++ body.flatMap standing

/-- The names that the header of a loop declares with `let` or `const`. -/
def headerNames : Option Stmt → List String
  | some (.declare _ q ds) => if q = .var then [] else ds.map Declarator.name
  | _ => []

end Tree

namespace Node

open StepBinding.Tree

variable {trail : List Binder}

/-- A part with the binders around it. -/
abbrev Part := List Binder × Node

def free (n : Node) : Part := ([], n)

def exprParts (bs : List Binder) (es : List Expr) : List Part := es.map fun e => (bs, .expr e)

def stmtParts (bs : List Binder) (ss : List Stmt) : List Part := ss.map fun s => (bs, .stmt s)

def optionPart (bs : List Binder) : Option Expr → List Part
  | none => []
  | some e => [(bs, .expr e)]

/-- The start of a loop; an expression there stands for itself. -/
def startPart (bs : List Binder) : Option Stmt → List Part
  | none => []
  | some (.expr _ e) => [(bs, .expr e)]
  | some s => [(bs, .stmt s)]

/-- The steps of a step binding; the first is not under the binding. -/
def stepParts (binding : String) (index : Nat) : List Expr → List Part
  | [] => []
  | first :: later => free (.expr first) :: exprParts [.later binding index] later

/-- The name of a function expression is bound around the function. -/
def nameBinder : Option String → List Binder
  | none => []
  | some name => [.names [name]]

/-- The parts of a node in the order of the source, each with the binders around it. -/
def parts : Node → List Part
  | .expr (.template _ _ es) | .expr (.array _ es) | .expr (.sequence _ es) => exprParts [] es
  | .expr (.object _ ps) => ps.map fun p => free (.property p)
  | .expr (.function _ name params body) =>
    stmtParts (.names (functionNames params body) :: nameBinder name) body
  | .expr (.arrow _ params body) => [([.names params], .expr body)]
  | .expr (.arrowBlock _ params _ body) => stmtParts [.names (functionNames params body)] body
  | .expr (.call _ callee args) | .expr (.new _ callee args) =>
    free (.expr callee) :: exprParts [] args
  | .expr (.member _ e _) | .expr (.unary _ _ e) | .expr (.update _ _ _ e) | .expr (.paren _ e) =>
    [free (.expr e)]
  | .expr (.index _ l r) | .expr (.binary _ l _ r) | .expr (.assign _ l _ r) =>
    [free (.expr l), free (.expr r)]
  | .expr (.conditional _ t c a) => [free (.expr t), free (.expr c), free (.expr a)]
  | .expr (.steps _ _ binding es index _) | .stmt (.steps _ _ binding _ es index _) =>
    stepParts binding index es
  | .property (.mk _ _ value _) => [free (.expr value)]
  | .declarator (.mk _ _ init) => optionPart [] init
  | .stmt (.declare _ _ ds) => ds.map fun d => free (.declarator d)
  | .stmt (.function _ _ params body) => stmtParts [.names (functionNames params body)] body
  | .stmt (.ret _ value) => optionPart [] value
  | .stmt (.ifElse _ t c none) => [free (.expr t), free (.stmt c)]
  | .stmt (.ifElse _ t c (some a)) => [free (.expr t), free (.stmt c), free (.stmt a)]
  | .stmt (.whileLoop _ t b) => [free (.expr t), free (.stmt b)]
  | .stmt (.forLoop _ init test update body) =>
    let bs := [.names (headerNames init)]
    startPart bs init ++ optionPart bs test ++ optionPart bs update ++ [(bs, .stmt body)]
  | .stmt (.forOf _ _ name iterable body) =>
    [free (.expr iterable), ([.names [name]], .stmt body)]
  | .stmt (.throw_ _ e) | .stmt (.expr _ e) => [free (.expr e)]
  | .stmt (.block _ body) => stmtParts [.names (body.flatMap standing)] body
  | _ => []

/-- The names that a node itself declares for some scope. -/
def declares : Node → List String
  | .expr (.function _ name params _) => name.toList ++ params
  | .expr (.arrow _ params _) | .expr (.arrowBlock _ params _ _) => params
  | .stmt (.function _ name params _) => name :: params
  | .stmt (.forOf _ _ name _ _) => [name]
  | .stmt (.steps _ _ _ result _ _ _) => [result]
  | .declarator d => [d.name]
  | _ => []

/-- The fresh name that a step binding was given. -/
def fresh? : Node → Option String
  | .expr (.steps _ _ _ _ _ fresh) | .stmt (.steps _ _ _ _ _ _ fresh) => fresh
  | _ => none

theorem mem_spelled_of_declares (h : name ∈ n.declares) : name ∈ spelled n := by
  unfold declares at h
  split at h
  · exact h
  · exact h
  · exact h
  · exact h
  · exact h
  · exact mem_cons_of_mem _ h
  · rename_i d
    obtain ⟨span, name', init⟩ := d
    exact h
  · cases h

/-- The node at a place, with its trail. -/
def reach : Node → List Nat → Option Part
  | n, [] => some ([], n)
  | n, i :: place => do
    let (bs, part) ← n.parts[i]?
    let (trail, found) ← part.reach place
    return (trail ++ bs, found)

theorem reach_cons :
    n.reach (i :: place) = some (trail, x) ↔ ∃ bs part trail', n.parts[i]? = some (bs, part) ∧
      part.reach place = some (trail', x) ∧ trail = trail' ++ bs := by
  simp only [reach, Option.bind_eq_bind, Option.bind_eq_some_iff, Option.pure_def,
    Option.some.injEq, Prod.mk.injEq, Prod.exists]
  constructor
  · rintro ⟨bs, part, hpart, trail', x', hreach, rfl, rfl⟩
    exact ⟨bs, part, trail', hpart, hreach, rfl⟩
  · rintro ⟨bs, part, trail', hpart, hreach, rfl⟩
    exact ⟨bs, part, hpart, trail', x, hreach, rfl, rfl⟩

section Walk

/-- The nodes of a node and below it. -/
def walk : Node → List Node
  | .expr e => walkExpr e
  | .stmt s => walkStmt s
  | .property p => .property p :: walkExpr p.value
  | .declarator d => .declarator d :: walkOption d.init?

theorem walkExprs_eq (es : List Expr) : walkExprs es = es.flatMap walkExpr := by
  induction es with
  | nil => rfl
  | cons e es ih => exact congrArg (walkExpr e ++ ·) ih

theorem walkStmts_eq (ss : List Stmt) : walkStmts ss = ss.flatMap walkStmt := by
  induction ss with
  | nil => rfl
  | cons s ss ih => exact congrArg (walkStmt s ++ ·) ih

theorem walkProperties_eq (ps : List Property) :
    walkProperties ps = ps.flatMap fun p => walk (.property p) := by
  induction ps with
  | nil => rfl
  | cons p ps ih =>
    obtain ⟨span, key, value, shorthand⟩ := p
    exact congrArg (walk (.property (.mk span key value shorthand)) ++ ·) ih

theorem walkDeclarators_eq (ds : List Declarator) :
    walkDeclarators ds = ds.flatMap fun d => walk (.declarator d) := by
  induction ds with
  | nil => rfl
  | cons d ds ih =>
    obtain ⟨span, name, init⟩ := d
    cases init with
    | none => exact congrArg (walk (.declarator (.mk span name none)) ++ ·) ih
    | some e => exact congrArg (walk (.declarator (.mk span name (some e))) ++ ·) ih

/-- The nodes that stand for a node itself: the block of an arrow function goes with the function. -/
def own : Node → List Node
  | .expr (.arrowBlock span params blockSpan body) =>
    [.expr (.arrowBlock span params blockSpan body), .stmt (.block blockSpan body)]
  | n => [n]

theorem self_mem_own (n : Node) : n ∈ n.own := by
  unfold own
  split <;> exact mem_cons_self

/-- The walk of a node goes through its parts in turn. -/
theorem walk_eq (n : Node) : walk n = n.own ++ n.parts.flatMap fun q => walk q.2 := by
  cases n with
  | expr e =>
    cases e with
    | steps _ _ _ es =>
      cases es <;> simp [walk, own, parts, walkExpr, walkExprs_eq, exprParts, stepParts, free,
        flatMap_map]
    | _ =>
      simp [walk, own, parts, walkExpr, walkExprs_eq, walkStmts_eq, walkProperties_eq, exprParts,
        stmtParts, free, flatMap_map]
  | property p =>
    cases p
    simp [walk, own, parts, free, Property.value]
  | declarator d =>
    obtain ⟨span, name, init⟩ := d
    cases init <;> simp [walk, own, parts, optionPart, Declarator.init?, walkOption]
  | stmt s =>
    cases s with
    | steps _ _ _ _ es =>
      cases es <;> simp [walk, own, parts, walkStmt, walkExprs_eq, exprParts, stepParts, free,
        flatMap_map]
    | ret _ value => cases value <;> simp [walk, own, parts, optionPart] <;> rfl
    | ifElse _ _ _ alternate =>
      cases alternate <;> simp [walk, own, parts, free] <;> simp [walkStmt]
    | forLoop _ init test update body =>
      have hstart (bs : List Binder) :
          (startPart bs init).flatMap (fun q => walk q.2) = walkStart init := by
        rcases init with _ | s
        · rfl
        · cases s <;> exact append_nil _
      have hoption (bs : List Binder) (e : Option Expr) :
          (optionPart bs e).flatMap (fun q => walk q.2) = walkOption e := by
        cases e <;> simp [optionPart, walk, walkOption]
      simp only [parts, flatMap_append, hstart, hoption, flatMap_singleton]
      exact walkStmt_forLoop ..
    | _ =>
      simp [walk, own, parts, walkStmt, walkStmts_eq, walkDeclarators_eq, stmtParts, free,
        flatMap_map]

theorem self_mem_walk (n : Node) : n ∈ walk n := by
  rw [walk_eq]
  exact mem_append_left _ (self_mem_own n)

/-- What is below a part of a node is below the node. -/
theorem walk_parts {q : Part} (h : q ∈ n.parts) (hx : x ∈ walk q.2) : x ∈ walk n := by
  rw [walk_eq]
  exact mem_append_right _ (mem_flatMap.mpr ⟨q, h, hx⟩)

/-- A node at a place below is one of the walk. -/
theorem mem_walk_of_reach (h : n.reach place = some (trail, x)) : x ∈ walk n := by
  induction place generalizing n trail with
  | nil =>
    cases h
    exact self_mem_walk _
  | cons i place ih =>
    obtain ⟨bs, part, trail', hpart, hreach, -⟩ := reach_cons.mp h
    exact walk_parts (mem_of_getElem? hpart) (ih hreach)

end Walk

end Node

/-- The node at a place of a module, with its trail; a module is a scope like that of a function. -/
def Module.reach (m : Module) : List Nat → Option Node.Part
  | [] => none
  | i :: place => do
    let s ← m.body[i]?
    let (trail, found) ← (Node.stmt s).reach place
    return (trail ++ [.names (Tree.functionNames [] m.body)], found)

theorem Module.reach_cons {m : Module} {trail : List Binder} :
    m.reach (i :: place) = some (trail, x) ↔ ∃ s trail', m.body[i]? = some s ∧
      (Node.stmt s).reach place = some (trail', x) ∧
      trail = trail' ++ [.names (Tree.functionNames [] m.body)] := by
  simp only [reach, Option.bind_eq_bind, Option.bind_eq_some_iff, Option.pure_def,
    Option.some.injEq, Prod.mk.injEq, Prod.exists]
  constructor
  · rintro ⟨s, hs, trail', x', hreach, rfl, rfl⟩
    exact ⟨s, trail', hs, hreach, rfl⟩
  · rintro ⟨s, trail', hs, hreach, rfl⟩
    exact ⟨s, hs, trail', x, hreach, rfl, rfl⟩

theorem Module.mem_walk_of_reach {m : Module} {trail : List Binder}
    (h : m.reach place = some (trail, x)) : x ∈ Tree.walkStmts m.body := by
  cases place with
  | nil => cases h
  | cons i place =>
    obtain ⟨s, trail', hs, hreach, -⟩ := Module.reach_cons.mp h
    rw [Node.walkStmts_eq]
    exact mem_flatMap.mpr ⟨s, mem_of_getElem? hs, Node.mem_walk_of_reach hreach⟩

end StepBinding
