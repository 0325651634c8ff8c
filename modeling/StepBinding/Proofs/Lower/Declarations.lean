import StepBinding.Proofs.Lower.Shape
import StepBinding.Proofs.Resolve.Bindings

/-! Declarations of fresh names in lowered code. Each step binding makes one declaration, of its
fresh name with the first step as its value, and nothing else declares a fresh name. Walking the
lowered tree one meets these declarations in the order of the step bindings. -/

namespace StepBinding

open List hiding span
open StepBinding.Tree

variable {d : Declarator}

namespace Lower

open Node Resolve

/-- The declaration that is made for a step binding. -/
def own? (target : Target) : Node → Option Declarator
  | .expr (.steps span _ _ steps _ fresh) | .stmt (.steps span _ _ _ steps _ fresh) =>
    some (.mk span (Tree.freshName fresh) (exprs target steps).head?)
  | _ => none

/-- The nodes that declare a name. -/
def declaring (name : String) (ns : List Node) : List Node := ns.filter fun n => name ∈ n.declares

/-- The declarations of a name that are made for step bindings. -/
def made (target : Target) (name : String) (ns : List Node) : List Node :=
  ((ns.filterMap (own? target)).filter fun d => d.name = name).map .declarator

section

variable {target : Target} {ctx : Context} {F N : String → Prop} {fresh : String} {n k : Node}
  {ns ms ns' ms' : List Node}

theorem declaring_append : declaring fresh (ns ++ ms) = declaring fresh ns ++ declaring fresh ms :=
  filter_append ns ms

theorem made_append : made target fresh (ns ++ ms) = made target fresh ns ++ made target fresh ms := by
  simp [made, filterMap_append]

theorem declaring_cons (h : fresh ∉ n.declares) : declaring fresh (n :: ns) = declaring fresh ns :=
  filter_cons_of_neg (by simpa using h)

/-- A node that declares no fresh name, and is made from one that is no step binding. -/
theorem declaring_cons_eq (h : fresh ∉ n.declares) (hk : own? target k = none)
    (hns : declaring fresh ns = made target fresh ms) :
    declaring fresh (n :: ns) = made target fresh (k :: ms) := by
  rw [declaring_cons h, hns, made, made, filterMap_cons_none hk]

theorem declaring_append_eq (hns : declaring fresh ns = made target fresh ms)
    (hns' : declaring fresh ns' = made target fresh ms') :
    declaring fresh (ns ++ ns') = made target fresh (ms ++ ms') := by
  rw [declaring_append, made_append, hns, hns']

/-- A step binding makes its own declaration and those of its steps. -/
theorem made_cons (hk : own? target k = some d) :
    made target fresh (k :: ms) = declaring fresh [.declarator d] ++ made target fresh ms := by
  rw [made, filterMap_cons_some hk]
  by_cases h : d.name = fresh
  · rw [filter_cons_of_pos (by simpa using h), declaring,
      filter_cons_of_pos (by simp [declares, h])]
    rfl
  · rw [filter_cons_of_neg (by simpa using h), declaring,
      filter_cons_of_neg (by simpa [declares] using Ne.symm h)]
    rfl

theorem own?_of_construct {i : Nat} {name : String} (hi : construct? n = some i)
    (hname : n.fresh? = some name) : ∃ d, own? target n = some d ∧ d.name = name := by
  unfold construct? at hi
  split at hi
  · cases hname
    exact ⟨_, rfl, rfl⟩
  · cases hname
    exact ⟨_, rfl, rfl⟩
  · cases hi

theorem construct_of_own? (h : own? target n = some d) : ∃ i, construct? n = some i := by
  unfold own? at h
  split at h
  · exact ⟨_, rfl⟩
  · exact ⟨_, rfl⟩
  · cases h

/-- If only one step binding among the nodes has the name then its declaration is the only one. -/
theorem made_eq_singleton {y : Node} {i : Nat} (hnodup : (marks ns).Nodup) (hy : y ∈ ns)
    (hi : construct? y = some i) (hd : own? target y = some d) (hname : d.name = fresh)
    (hother : ∀ z ∈ ns, ∀ d', own? target z = some d' → d'.name = fresh → construct? z = some i) :
    made target fresh ns = [.declarator d] := by
  obtain ⟨before, after, rfl⟩ := append_of_mem hy
  have hmarks : marks (before ++ y :: after) = marks before ++ i :: marks after := by
    rw [marks_append]
    exact congrArg (marks before ++ ·) (filterMap_cons_some hi)
  rw [hmarks, nodup_append, nodup_cons] at hnodup
  obtain ⟨-, ⟨hafter, -⟩, hbefore⟩ := hnodup
  have hnone {k : List Node} (hk : k ⊆ before ++ y :: after) (hi : i ∉ marks k) :
      made target fresh k = [] := by
    rw [made, map_eq_nil_iff, filter_eq_nil_iff]
    intro d' hd' hname'
    obtain ⟨z, hz, hown⟩ := mem_filterMap.mp hd'
    exact hi (mem_filterMap.mpr ⟨z, hz, hother z (hk hz) d' hown (by simpa using hname')⟩)
  have hbefore : i ∉ marks before := fun hmem => hbefore i hmem i mem_cons_self rfl
  rw [made_append, made_cons hd, hnone (subset_append_left _ _) hbefore,
    hnone (fun z hz => mem_append_right _ (mem_cons_of_mem _ hz)) hafter,
    nil_append, append_nil]
  exact filter_cons_of_pos (by simp [declares, hname])

theorem declaring_value (span : Span) (name : String) (later : List Expr) :
    declaring fresh (walkExpr (value span name later)) = declaring fresh (walkExprs later) := by
  have hsteps : declaring fresh (walkExprs
      (later.map fun step => .assign span (.identifier span name) .plain step)) =
      declaring fresh (walkExprs later) := by
    induction later with
    | nil => rfl
    | cons step later ih =>
      change declaring fresh (walkExpr step ++ walkExprs (later.map _)) =
        declaring fresh (walkExpr step ++ walkExprs later)
      rw [declaring_append, declaring_append, ih]
  unfold value
  split
  · rename_i h
    rw [isEmpty_iff.mp h]
    rfl
  · exact hsteps

theorem declaring_opening (span : Span) (q : Qualifier) (name : String) (first : Expr)
    (later : List Expr) :
    declaring fresh (walkStmt (opening span q name (first :: later))) =
      declaring fresh [.declarator (.mk span name (some first))] ++
        declaring fresh (walkExpr first) := by
  change declaring fresh (.stmt _ :: ([.declarator (.mk span name (some first))] ++
    (walkExpr first ++ []))) = _
  rw [declaring_cons not_mem_nil, declaring_append, append_nil]

/-- The two statements of a step binding declare its name, after which come its steps. -/
theorem declaring_pair {span : Span} {q : Qualifier} {name : String} {first : Expr}
    {later : List Expr} {s : Stmt}
    (hs : declaring fresh (walkStmt s) = declaring fresh (walkExpr (value span name later))) :
    declaring fresh (walkStmts [opening span q name (first :: later), s]) =
      declaring fresh [.declarator (.mk span name (some first))] ++
        declaring fresh (walkExpr first ++ walkExprs later) := by
  change declaring fresh (walkStmt _ ++ (walkStmt s ++ [])) = _
  rw [append_nil, declaring_append, declaring_opening, hs, declaring_value, declaring_append,
    append_assoc]

theorem declaring_expression (span : Span) (name : String) (first : Expr) (later : List Expr) :
    declaring fresh (walkExpr (expression target span name (first :: later))) =
      declaring fresh [.declarator (.mk span name (some first))] ++
        declaring fresh (walkExpr first ++ walkExprs later) := by
  have hbody (q : Qualifier) := @declaring_pair fresh span q name first later
    (.ret span (some (value span name later))) (declaring_cons not_mem_nil)
  cases target with
  | es2015 =>
    change declaring fresh (.expr _ :: ((.expr _ :: .expr _ :: .stmt _ :: walkStmts _) ++ [])) = _
    rw [append_nil, declaring_cons not_mem_nil, declaring_cons not_mem_nil,
      declaring_cons not_mem_nil, declaring_cons not_mem_nil]
    exact hbody .let_
  | es5 =>
    change declaring fresh (.expr _ :: ((.expr _ :: .expr _ :: .expr _ :: walkStmts _) ++
      [.expr (.this span)])) = _
    rw [declaring_cons not_mem_nil, declaring_append, declaring_cons not_mem_nil,
      declaring_cons not_mem_nil, declaring_cons not_mem_nil, declaring_cons not_mem_nil]
    exact (append_nil _).trans (hbody .var)

theorem declaring_declaration (span : Span) (q : Qualifier) {result : String} (name : String)
    (first : Expr) (later : List Expr) (h : fresh ≠ result) :
    declaring fresh (walkStmts (declaration target span q result name (first :: later))) =
      declaring fresh [.declarator (.mk span name (some first))] ++
        declaring fresh (walkExpr first ++ walkExprs later) := by
  refine declaring_pair ?_
  change declaring fresh (.stmt _ :: .declarator _ :: (walkExpr (value span name later) ++ [])) = _
  rw [declaring_cons not_mem_nil, declaring_cons (by simpa [declares, Declarator.name] using h),
    append_nil]

theorem declaring_slot (span : Span) (ss : List Stmt) :
    declaring fresh (walkStmt (slot span ss)) = declaring fresh (walkStmts ss) := by
  match ss with
  | [] => rfl
  | [s] => exact (congrArg (declaring fresh) (append_nil (walkStmt s))).symm
  | _ :: _ :: _ => exact declaring_cons not_mem_nil

section

set_option linter.unusedSectionVars false

variable (hF : F fresh)

include hF

mutual

/-- The declarations of a fresh name in a lowered expression. -/
theorem declaring_expr : (e : Expr) → AllExpr (Ordered ctx F N) e →
    declaring fresh (walkExpr (expr target e)) = made target fresh (walkExpr e)
  | .template _ _ es, h | .array _ es, h | .sequence _ es, h =>
    declaring_cons_eq not_mem_nil rfl (declaring_exprs es h.2)
  | .object _ ps, h => declaring_cons_eq not_mem_nil rfl (declaring_properties ps h.2)
  | .function _ _ _ body, h =>
    declaring_cons_eq (fun hmem => h.1.1.declares fresh hmem hF) rfl (declaring_stmts body h.2)
  | .arrow _ _ e, h =>
    declaring_cons_eq (fun hmem => h.1.1.declares fresh hmem hF) rfl (declaring_expr e h.2)
  | .arrowBlock _ _ _ body, h =>
    declaring_cons_eq (fun hmem => h.1.1.declares fresh hmem hF) rfl
      (declaring_cons_eq not_mem_nil rfl (declaring_stmts body h.2.2))
  | .call _ callee args, h | .new _ callee args, h =>
    declaring_cons_eq not_mem_nil rfl
      (declaring_append_eq (declaring_expr callee h.2.1) (declaring_exprs args h.2.2))
  | .member _ e _, h | .unary _ _ e, h | .update _ _ _ e, h | .paren _ e, h =>
    declaring_cons_eq not_mem_nil rfl (declaring_expr e h.2)
  | .index _ l r, h | .binary _ l _ r, h | .assign _ l _ r, h =>
    declaring_cons_eq not_mem_nil rfl
      (declaring_append_eq (declaring_expr l h.2.1) (declaring_expr r h.2.2))
  | .conditional _ t c a, h =>
    declaring_cons_eq not_mem_nil rfl (declaring_append_eq
      (declaring_append_eq (declaring_expr t h.2.1) (declaring_expr c h.2.2.1))
      (declaring_expr a h.2.2.2))
  | .steps _ _ _ [] _ _, h => absurd rfl h.1.2.2.2
  | .steps span _ _ (first :: later) _ name, h => by
    refine (declaring_expression span (Tree.freshName name) _ _).trans ((made_cons rfl).trans ?_).symm
    exact congrArg (_ ++ ·) (declaring_append_eq (declaring_expr first h.2.1)
      (declaring_exprs later h.2.2)).symm
  | .identifier .., _ | .number .., _ | .string .., _ | .boolean .., _ | .null .., _ | .this .., _
  | .rejected .., _ | .foreign .., _ => declaring_cons_eq not_mem_nil rfl rfl

theorem declaring_exprs : (es : List Expr) → AllExprs (Ordered ctx F N) es →
    declaring fresh (walkExprs (exprs target es)) = made target fresh (walkExprs es)
  | [], _ => rfl
  | e :: es, h => declaring_append_eq (declaring_expr e h.1) (declaring_exprs es h.2)

theorem declaring_properties : (ps : List Property) →
    AllProperties (Ordered ctx F N) ps →
    declaring fresh (walkProperties (properties target ps)) = made target fresh (walkProperties ps)
  | [], _ => rfl
  | .mk _ _ e _ :: ps, h =>
    declaring_cons_eq not_mem_nil rfl
      (declaring_append_eq (declaring_expr e h.2.1) (declaring_properties ps h.2.2))

theorem declaring_declarators : (ds : List Declarator) →
    AllDeclarators (Ordered ctx F N) ds →
    declaring fresh (walkDeclarators (declarators target ds)) =
      made target fresh (walkDeclarators ds)
  | [], _ => rfl
  | .mk _ _ none :: ds, h =>
    declaring_cons_eq (fun hmem => h.1.1.declares fresh hmem hF) rfl
      (declaring_declarators ds h.2)
  | .mk _ _ (some e) :: ds, h =>
    declaring_cons_eq (fun hmem => h.1.1.declares fresh hmem hF) rfl
      (declaring_append_eq (declaring_expr e h.2.1) (declaring_declarators ds h.2.2))

/-- The declarations of a fresh name in a lowered statement. -/
theorem declaring_stmt : (s : Stmt) → AllStmt (Ordered ctx F N) s →
    declaring fresh (walkStmts (stmt target s)) = made target fresh (walkStmt s)
  | .declare _ _ ds, h =>
    declaring_cons_eq not_mem_nil rfl
      ((congrArg _ (append_nil _)).trans (declaring_declarators ds h.2))
  | .steps _ _ _ _ [] _ _, h => absurd rfl h.1.2.2.2.2
  | .steps span q _ result (first :: later) _ name, h => by
    have hresult : fresh ≠ result := by
      rintro rfl
      exact h.1.1.declares fresh (mem_singleton.mpr rfl) hF
    refine (declaring_declaration span q (Tree.freshName name) _ _ hresult).trans
      ((made_cons rfl).trans ?_).symm
    exact congrArg (_ ++ ·) (declaring_append_eq (declaring_expr first h.2.1)
      (declaring_exprs later h.2.2)).symm
  | .function _ _ _ body, h =>
    declaring_cons_eq (fun hmem => h.1.1.declares fresh hmem hF) rfl
      ((congrArg _ (append_nil _)).trans (declaring_stmts body h.2))
  | .block _ body, h =>
    declaring_cons_eq not_mem_nil rfl
      ((congrArg _ (append_nil _)).trans (declaring_stmts body h.2))
  | .ret _ (some e), h | .throw_ _ e, h =>
    declaring_cons_eq not_mem_nil rfl
      ((congrArg _ (append_nil _)).trans (declaring_expr e h.2))
  | .ifElse _ t c none, h | .whileLoop _ t c, h =>
    declaring_cons_eq not_mem_nil rfl ((congrArg _ (append_nil _)).trans
      (declaring_append_eq (declaring_expr t h.2.1)
        ((declaring_slot _ _).trans (declaring_stmt c h.2.2))))
  | .ifElse _ t c (some a), h =>
    declaring_cons_eq not_mem_nil rfl ((congrArg _ (append_nil _)).trans
      (declaring_append_eq (declaring_append_eq (declaring_expr t h.2.1)
        ((declaring_slot _ _).trans (declaring_stmt c h.2.2.1)))
        ((declaring_slot _ _).trans (declaring_stmt a h.2.2.2))))
  | .forLoop span init test update body, h => by
    rw [stmt_forLoop]
    change declaring fresh (walkStmt _ ++ []) = _
    rw [append_nil, walkStmt_forLoop, walkStmt_forLoop]
    refine declaring_cons_eq not_mem_nil rfl (declaring_append_eq
      (declaring_append_eq (declaring_append_eq ?_ ?_) ?_)
      ((declaring_slot _ _).trans (declaring_stmt body h.2.2.2.2)))
    · cases init with
      | none => rfl
      | some s =>
        cases s with
        | declare s q ds =>
          exact declaring_cons_eq not_mem_nil rfl (declaring_declarators ds h.2.1.2)
        | expr s e => exact declaring_expr e h.2.1
        | _ => exact h.1.2.elim
    · cases test with
      | none => rfl
      | some e => exact declaring_expr e h.2.2.1
    · cases update with
      | none => rfl
      | some e => exact declaring_expr e h.2.2.2.1
  | .forOf _ _ _ e b, h =>
    declaring_cons_eq (fun hmem => h.1.1.declares fresh hmem hF) rfl
      ((congrArg _ (append_nil _)).trans (declaring_append_eq (declaring_expr e h.2.1)
        ((declaring_slot _ _).trans (declaring_stmt b h.2.2))))
  | .expr span e, h => by
    cases e with
    | rejected => rfl
    | _ =>
      exact declaring_cons_eq not_mem_nil rfl
        ((congrArg _ (append_nil _)).trans (declaring_expr _ h.2))
  | .ret _ none, _ | .break_ _, _ | .continue_ _, _ | .empty _, _ | .rejected .., _
  | .foreign _, _ => rfl

theorem declaring_stmts : (ss : List Stmt) → AllStmts (Ordered ctx F N) ss →
    declaring fresh (walkStmts (stmts target ss)) = made target fresh (walkStmts ss)
  | [], _ => rfl
  | s :: ss, h => by
    change declaring fresh (walkStmts (stmt target s ++ stmts target ss)) = _
    rw [walkStmts_eq, flatMap_append, ← walkStmts_eq, ← walkStmts_eq]
    exact declaring_append_eq (declaring_stmt s h.1) (declaring_stmts ss h.2)

end

end

end

end Lower

end StepBinding
