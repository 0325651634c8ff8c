import StepBinding.Proofs.Token.Valid
import StepBinding.Proofs.Tree.All

/-! The form of trees that are read from program texts. Names are identifiers, numbers are
numerals, operators are of the language, only what can be assigned to is assigned to, and so
on: each is a condition on one node and what stands directly below it. Further conditions hold
where no step binding was rejected. They say that the commas of a step list, which reach as
far as they can, are not taken for those of a list around it. -/

namespace StepBinding

open Token

variable {n : Node}

namespace Expr

/-- The source of the expression ends with a step list. -/
def endsInSteps : Expr → Bool
  | .steps .. => true
  | .arrow _ _ body => body.endsInSteps
  | .conditional _ _ _ alternate => alternate.endsInSteps
  | .assign _ _ _ value => value.endsInSteps
  | _ => false

/-- The source of the expression has a comma outside of all brackets. -/
def showsComma : Expr → Bool
  | .steps _ _ _ es _ _ => 1 < es.length
  | .arrow _ _ body => body.showsComma
  | .conditional _ _ consequent alternate => consequent.showsComma || alternate.showsComma
  | .assign _ _ _ value => value.showsComma
  | _ => false

/-- What may stand after `new`: members and elements of what starts an expression. -/
def isNewCallee : Expr → Bool
  | .member _ e _ | .index _ e _ => e.isNewCallee
  | .number .. | .string .. | .template .. | .boolean .. | .null .. | .this .. | .identifier ..
  | .array .. | .object .. | .function .. | .paren .. => true
  | _ => false

end Expr

namespace Stmt

/-- An else after the statement would belong to an if inside of it. -/
def endsOpenIf : Stmt → Bool
  | .ifElse _ _ _ none => true
  | .ifElse _ _ _ (some alternate) => alternate.endsOpenIf
  | .whileLoop _ _ body | .forLoop _ _ _ _ body | .forOf _ _ _ _ body => body.endsOpenIf
  | _ => false

end Stmt

/-- Operators of the language. -/
def UnaryOp.Known : UnaryOp → Prop
  | .other _ => False
  | _ => True

def UpdateOp.Known : UpdateOp → Prop
  | .other _ => False
  | _ => True

def BinaryOp.Known : BinaryOp → Prop
  | .other _ => False
  | _ => True

def AssignOp.Known : AssignOp → Prop
  | .plain | .compound .add | .compound .sub | .compound .mul | .compound .div | .compound .mod =>
    True
  | _ => False

def Qualifier.Known : Qualifier → Prop
  | .other _ => False
  | _ => True

def Declarator.name : Declarator → String
  | .mk _ name _ => name

/-- The initial value of a declarator. -/
def Declarator.init? : Declarator → Option Expr
  | .mk _ _ init => init

def Property.value : Property → Expr
  | .mk _ _ value _ => value

namespace Node

/-- The condition on a node of a tree that was read. Its names are of the given kind. -/
def Formed (N : String → Prop) : Node → Prop
  | .expr (.number _ text) => Numeral text.toList
  | .expr (.template _ quasis es) => quasis.length = es.length + 1
  | .expr (.identifier _ name) => N name
  | .expr (.function _ name params _) => (∀ n ∈ name, N n) ∧ ∀ n ∈ params, N n
  | .expr (.arrow _ params _) | .expr (.arrowBlock _ params _ _) => ∀ n ∈ params, N n
  | .expr (.new _ callee _) => callee.isNewCallee = true
  | .expr (.member _ _ name) => IsWord name
  | .expr (.unary _ op _) => op.Known
  | .expr (.update _ op _ target) => op.Known ∧ target.isTarget = true
  | .expr (.binary _ _ op _) => op.Known
  | .expr (.assign _ target op _) => op.Known ∧ target.isTarget = true
  | .expr (.sequence _ es) => es ≠ []
  | .expr (.steps _ qualifier binding es _ _) => qualifier.Known ∧ N binding ∧ es ≠ []
  | .expr (.foreign _) | .stmt (.foreign _) => False
  | .declarator (.mk _ name _) => N name
  | .stmt (.declare _ qualifier ds) =>
    qualifier.Known ∧ ds ≠ [] ∧ (qualifier = .const → ∀ d ∈ ds, d.init?.isSome = true)
  | .stmt (.steps _ qualifier binding result es _ _) =>
    qualifier.Known ∧ N binding ∧ N result ∧ es ≠ []
  | .stmt (.function _ name params _) => N name ∧ ∀ n ∈ params, N n
  | .stmt (.ifElse _ _ consequent (some _)) => consequent.endsOpenIf = false
  | .stmt (.forLoop _ init _ _ _) =>
    match init with
    | none | some (.declare ..) | some (.expr ..) => True
    | _ => False
  | .stmt (.forOf _ qualifier name _ _) => qualifier.Known ∧ N name
  | _ => True

/-- Only the last expression of a list with commas may end with a step list. -/
def LastInSteps (es : List Expr) : Prop := ∀ e ∈ es.dropLast, e.endsInSteps = false

/-- The condition on a node of a tree that was read without an error. -/
def Tidy : Node → Prop
  | .expr (.rejected ..) | .stmt (.rejected ..) => False
  | .expr (.array _ es) | .expr (.call _ _ es) | .expr (.new _ _ es) | .expr (.sequence _ es) =>
    LastInSteps es
  | .expr (.object _ ps) => LastInSteps (ps.map Property.value)
  | .expr (.steps _ _ _ es _ fresh) | .stmt (.steps _ _ _ _ es _ fresh) =>
    fresh = none ∧ ∀ e ∈ es, e.showsComma = false
  | .stmt (.declare _ _ ds) => ∀ d ∈ ds.dropLast, ∀ e ∈ d.init?, e.endsInSteps = false
  | _ => True

/-- The condition on a node of a tree, which is stronger if no error was met. -/
def Written (calm : Prop) (n : Node) : Prop := n.Formed IsName ∧ (calm → n.Tidy)

def isRejected : Node → Bool
  | .expr (.rejected ..) | .stmt (.rejected ..) => true
  | _ => false

/-- The condition on a node of a tree that was read or made from such a tree, in which nothing is
rejected if no error was met. -/
def Kept (N : String → Prop) (calm : Prop) (n : Node) : Prop :=
  n.Formed N ∧ (calm → n.isRejected = false)

theorem Formed.imp {N M : String → Prop} (h : ∀ s, N s → M s) (hn : n.Formed N) : n.Formed M := by
  cases n with
  | expr e =>
    cases e with
    | identifier => exact h _ hn
    | function => exact ⟨fun x hx => h x (hn.1 x hx), fun x hx => h x (hn.2 x hx)⟩
    | arrow | arrowBlock => exact fun x hx => h x (hn x hx)
    | steps => exact ⟨hn.1, h _ hn.2.1, hn.2.2⟩
    | _ => exact hn
  | stmt s =>
    cases s with
    | steps => exact ⟨hn.1, h _ hn.2.1, h _ hn.2.2.1, hn.2.2.2⟩
    | function => exact ⟨h _ hn.1, fun x hx => h x (hn.2 x hx)⟩
    | forOf => exact ⟨hn.1, h _ hn.2⟩
    | ifElse _ _ _ alternate => cases alternate <;> exact hn
    | _ => exact hn
  | property p => trivial
  | declarator d =>
    obtain ⟨span, name, init⟩ := d
    exact h _ hn

theorem Written.kept {N : String → Prop} {calm : Prop} (hn : n.Written calm)
    (h : ∀ s, IsName s → N s) : n.Kept N calm := by
  refine ⟨hn.1.imp h, fun hc => ?_⟩
  have htidy := hn.2 hc
  unfold isRejected
  split
  · exact htidy.elim
  · exact htidy.elim
  · rfl

end Node

namespace Tree

variable {P Q : Node → Prop}

theorem allDeclarators_iff {ds : List Declarator} :
    AllDeclarators P ds ↔ ∀ d ∈ ds, P (.declarator d) ∧ ∀ e ∈ d.init?, AllExpr P e := by
  induction ds with
  | nil => simp [AllDeclarators]
  | cons d ds ih =>
    obtain ⟨span, name, init⟩ := d
    cases init <;> simp [AllDeclarators, ih, Declarator.init?, and_assoc]

/-- The numbers of the step bindings among some nodes. -/
def marks (ns : List Node) : List Nat := ns.filterMap construct?

@[simp] theorem marks_append (ns ms : List Node) : marks (ns ++ ms) = marks ns ++ marks ms :=
  List.filterMap_append

theorem marks_walkExprs (es : List Expr) :
    marks (walkExprs es) = es.flatMap fun e => marks (walkExpr e) := by
  induction es with
  | nil => rfl
  | cons e es ih => simp [walkExprs, ih]

end Tree

end StepBinding
