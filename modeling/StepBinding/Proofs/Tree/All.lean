import StepBinding.Proofs.Tree.Fragment

/-! Properties of all nodes of a tree. A property of nodes holds throughout a tree if it
holds at the node on top and throughout its parts. The nodes are those of the walk, so what
the walk lists can be read off part by part. -/

namespace StepBinding.Tree

variable (P : Node → Prop) {ss : List Stmt}

mutual

/-- The property holds at an expression and at all nodes below it. -/
def AllExpr : Expr → Prop
  | e@(.template _ _ es) => P (.expr e) ∧ AllExprs es
  | e@(.array _ es) => P (.expr e) ∧ AllExprs es
  | e@(.object _ ps) => P (.expr e) ∧ AllProperties ps
  | e@(.function _ _ _ body) => P (.expr e) ∧ AllStmts body
  | e@(.arrow _ _ body) => P (.expr e) ∧ AllExpr body
  | e@(.arrowBlock _ _ span body) => P (.expr e) ∧ P (.stmt (.block span body)) ∧ AllStmts body
  | e@(.call _ callee args) => P (.expr e) ∧ AllExpr callee ∧ AllExprs args
  | e@(.new _ callee args) => P (.expr e) ∧ AllExpr callee ∧ AllExprs args
  | e@(.member _ o _) => P (.expr e) ∧ AllExpr o
  | e@(.index _ o i) => P (.expr e) ∧ AllExpr o ∧ AllExpr i
  | e@(.unary _ _ x) => P (.expr e) ∧ AllExpr x
  | e@(.update _ _ _ x) => P (.expr e) ∧ AllExpr x
  | e@(.binary _ l _ r) => P (.expr e) ∧ AllExpr l ∧ AllExpr r
  | e@(.conditional _ t c a) => P (.expr e) ∧ AllExpr t ∧ AllExpr c ∧ AllExpr a
  | e@(.assign _ t _ v) => P (.expr e) ∧ AllExpr t ∧ AllExpr v
  | e@(.sequence _ es) => P (.expr e) ∧ AllExprs es
  | e@(.paren _ x) => P (.expr e) ∧ AllExpr x
  | e@(.steps _ _ _ es _ _) => P (.expr e) ∧ AllExprs es
  | e => P (.expr e)

def AllExprs : List Expr → Prop
  | [] => True
  | e :: es => AllExpr e ∧ AllExprs es

def AllProperties : List Property → Prop
  | [] => True
  | .mk span key value shorthand :: ps =>
    P (.property (.mk span key value shorthand)) ∧ AllExpr value ∧ AllProperties ps

def AllDeclarators : List Declarator → Prop
  | [] => True
  | .mk span name none :: ds => P (.declarator (.mk span name none)) ∧ AllDeclarators ds
  | .mk span name (some e) :: ds =>
    P (.declarator (.mk span name (some e))) ∧ AllExpr e ∧ AllDeclarators ds

/-- The property holds at a statement and at all nodes below it. -/
def AllStmt : Stmt → Prop
  | s@(.declare _ _ ds) => P (.stmt s) ∧ AllDeclarators ds
  | s@(.steps _ _ _ _ es _ _) => P (.stmt s) ∧ AllExprs es
  | s@(.function _ _ _ body) => P (.stmt s) ∧ AllStmts body
  | s@(.ret _ (some e)) => P (.stmt s) ∧ AllExpr e
  | s@(.ifElse _ t c none) => P (.stmt s) ∧ AllExpr t ∧ AllStmt c
  | s@(.ifElse _ t c (some a)) => P (.stmt s) ∧ AllExpr t ∧ AllStmt c ∧ AllStmt a
  | s@(.whileLoop _ t b) => P (.stmt s) ∧ AllExpr t ∧ AllStmt b
  | s@(.forLoop _ init test update body) =>
    P (.stmt s) ∧ AllStart init ∧ AllOption test ∧ AllOption update ∧ AllStmt body
  | s@(.forOf _ _ _ e b) => P (.stmt s) ∧ AllExpr e ∧ AllStmt b
  | s@(.throw_ _ e) => P (.stmt s) ∧ AllExpr e
  | s@(.block _ body) => P (.stmt s) ∧ AllStmts body
  | s@(.expr _ e) => P (.stmt s) ∧ AllExpr e
  | s => P (.stmt s)

/-- The start of a loop; an expression there stands for itself. -/
def AllStart : Option Stmt → Prop
  | none => True
  | some (.expr _ e) => AllExpr e
  | some s => AllStmt s

def AllOption : Option Expr → Prop
  | none => True
  | some e => AllExpr e

def AllStmts : List Stmt → Prop
  | [] => True
  | s :: ss => AllStmt s ∧ AllStmts ss

end

variable {P}

theorem allExprs_iff {es : List Expr} : AllExprs P es ↔ ∀ e ∈ es, AllExpr P e := by
  induction es with
  | nil => simp [AllExprs]
  | cons e es ih => simp [AllExprs, ih]

theorem allStmts_iff : AllStmts P ss ↔ ∀ s ∈ ss, AllStmt P s := by
  induction ss with
  | nil => simp [AllStmts]
  | cons s ss ih => simp [AllStmts, ih]

theorem allStmts_append {ts : List Stmt} :
    AllStmts P (ss ++ ts) ↔ AllStmts P ss ∧ AllStmts P ts := by
  simp only [allStmts_iff, List.forall_mem_append]

section Walk

/-- The nodes of the start of a loop. -/
def walkStart : Option Stmt → List Node
  | none => []
  | some (.expr _ e) => walkExpr e
  | some s => walkStmt s

def walkOption : Option Expr → List Node
  | none => []
  | some e => walkExpr e

theorem walkStmt_forLoop (span : Span) (init : Option Stmt) (test update : Option Expr)
    (body : Stmt) :
    walkStmt (.forLoop span init test update body) =
      .stmt (.forLoop span init test update body) ::
        (walkStart init ++ walkOption test ++ walkOption update ++ walkStmt body) := by
  rcases init with _ | s
  · cases test <;> cases update <;> rfl
  · cases s <;> cases test <;> cases update <;> rfl

namespace Fragment

def walk : Fragment → List Node
  | .expr e => walkExpr e
  | .exprs es => walkExprs es
  | .properties ps => walkProperties ps
  | .declarators ds => walkDeclarators ds
  | .stmt s => walkStmt s
  | .start init => walkStart init
  | .option value => walkOption value
  | .stmts ss => walkStmts ss

theorem walk_eq (x : Fragment) : x.walk = x.own ++ x.parts.flatMap walk := by
  rcases x with e | es | ps | ds | s | init | value | ss
  · cases e <;> simp [parts, own, walk, walkExpr]
  · cases es <;> simp [parts, own, walk, walkExprs]
  · rcases ps with _ | ⟨⟨⟩, _⟩ <;> simp [parts, own, walk, walkProperties]
  · rcases ds with _ | ⟨⟨_, _, _ | _⟩, _⟩ <;> simp [parts, own, walk, walkDeclarators]
  · cases s with
    | ret span value => cases value <;> simp [parts, own, walk] <;> rfl
    | ifElse span t c a =>
      cases a <;> simp [parts, own, walk] <;> first | rfl | exact congrArg _ (List.append_assoc ..)
    | forLoop => simp [parts, own, walk, walkStmt_forLoop]
    | _ =>
      simp [parts, own, walk]
      rfl
  · rcases init with _ | s
    · rfl
    · cases s <;> simp [parts, own, walk] <;> rfl
  · cases value <;> simp [parts, own, walk, walkOption]
  · cases ss <;> simp [parts, own, walk, walkStmts]

def All (P : Node → Prop) : Fragment → Prop
  | .expr e => AllExpr P e
  | .exprs es => AllExprs P es
  | .properties ps => AllProperties P ps
  | .declarators ds => AllDeclarators P ds
  | .stmt s => AllStmt P s
  | .start init => AllStart P init
  | .option value => AllOption P value
  | .stmts ss => AllStmts P ss

theorem all_iff (x : Fragment) : x.All P ↔ (∀ n ∈ x.own, P n) ∧ ∀ y ∈ x.parts, y.All P := by
  rcases x with e | es | ps | ds | s | init | value | ss
  · cases e <;> simp [parts, own, All, AllExpr, and_assoc]
  · cases es <;> simp [parts, own, All, AllExprs]
  · rcases ps with _ | ⟨⟨⟩, _⟩ <;> simp [parts, own, All, AllProperties]
  · rcases ds with _ | ⟨⟨_, _, _ | _⟩, _⟩ <;> simp [parts, own, All, AllDeclarators]
  · cases s with
    | ret span value => cases value <;> simp [parts, own, All] <;> rfl
    | ifElse span t c a => cases a <;> simp [parts, own, All] <;> rfl
    | _ =>
      simp [parts, own, All]
      rfl
  · rcases init with _ | s
    · simp [parts, own, All, AllStart]
    · cases s <;> simp [parts, own, All] <;> rfl
  · cases value <;> simp [parts, own, All, AllOption]
  · cases ss <;> simp [parts, own, All, AllStmts]

/-- A property holds throughout a fragment if it holds at every node that the walk lists. -/
theorem all_iff_walk (x : Fragment) : x.All P ↔ ∀ n ∈ x.walk, P n := by
  induction x using induct with
  | h x ih =>
    rw [all_iff, walk_eq, List.forall_mem_append, List.forall_mem_flatMap]
    exact and_congr_right fun _ => forall₂_congr ih

end Fragment

theorem allStmts_iff_walk (ss : List Stmt) : AllStmts P ss ↔ ∀ n ∈ walkStmts ss, P n :=
  Fragment.all_iff_walk (.stmts ss)

variable {Q : Node → Prop}

theorem AllStmts.imp (h : AllStmts P ss) (hpq : ∀ n, P n → Q n) : AllStmts Q ss :=
  (allStmts_iff_walk ss).mpr fun n hn => hpq n ((allStmts_iff_walk ss).mp h n hn)

end Walk

/-- The number of the step binding that a node stands for, whether it was rejected or not. -/
def number? : Node → Option Nat
  | .expr (.steps _ _ _ _ i _) => some i
  | .stmt (.steps _ _ _ _ _ i _) => some i
  | .expr (.rejected _ _ i) => some i
  | .stmt (.rejected _ _ i) => some i
  | _ => none

theorem number?_of_construct? {n : Node} {i : Nat} (h : construct? n = some i) :
    number? n = some i := by
  unfold construct? at h
  split at h
  · exact h
  · exact h
  · cases h

end StepBinding.Tree
