import StepBinding.Proofs.Lower.Shape
import StepBinding.Proofs.Tree.Reach

/-! Lowered code is plain: it is well-formed code of the language, without step bindings and
without places of rejected ones. -/

namespace StepBinding

open List StepBinding.Tree

variable {ds : List Declarator} {first : Expr} {later : List Expr}

namespace Node

/-- A well-formed node of the plain language. -/
structure Plain (N : String → Prop) (n : Node) : Prop where
  formed : n.Formed N
  construct : construct? n = none
  kept : n.isRejected = false

end Node

namespace Lower

open Node

/-- A well-formed node, with names of the given kind also for its fresh name. -/
abbrev Given (N : String → Prop) (n : Node) : Prop :=
  n.Formed N ∧ ∀ name, n.fresh? = some name → N name

variable {target : Target} {N : String → Prop}

section Shape

theorem length_exprs (es : List Expr) : (exprs target es).length = es.length := by
  rw [exprs_eq_map, length_map]

theorem length_declarators (ds : List Declarator) : (declarators target ds).length = ds.length := by
  have := congrArg List.length (names_declarators target ds)
  simpa using this

theorem init?_declarators (h : ∀ d ∈ ds, d.init?.isSome) :
    ∀ d ∈ declarators target ds, d.init?.isSome := by
  induction ds with
  | nil => exact nofun
  | cons d ds ih =>
    obtain ⟨hd, hds⟩ := forall_mem_cons.mp h
    obtain ⟨span, name, init⟩ := d
    cases init with
    | none => cases hd
    | some e => exact forall_mem_cons.mpr ⟨rfl, ih hds⟩

theorem isTarget_expr {e : Expr} (h : e.isTarget) : (expr target e).isTarget := by
  cases e with
  | identifier | member | index => rfl
  | _ => cases h

theorem isNewCallee_expr {e : Expr} (h : e.isNewCallee) : (expr target e).isNewCallee := by
  cases e with
  | member _ o _ => exact @isNewCallee_expr o h
  | index _ o _ => exact @isNewCallee_expr o h
  | steps | rejected => cases h
  | _ => exact h

/-- Lowering leaves no if open that was not. -/
theorem endsOpenIf_slot {s : Stmt} (span : Span) (h : s.endsOpenIf = false) :
    (slot span (stmt target s)).endsOpenIf = false := by
  cases s with
  | ret _ value => cases value <;> rfl
  | ifElse _ _ _ alternate =>
    cases alternate with
    | none => cases h
    | some a => exact @endsOpenIf_slot a a.span h
  | whileLoop _ _ body => exact @endsOpenIf_slot body body.span h
  | forLoop _ _ _ _ body =>
    rw [stmt_forLoop]
    exact @endsOpenIf_slot body body.span h
  | forOf _ _ _ _ body => exact @endsOpenIf_slot body body.span h
  | expr span' e =>
    rcases stmt_expr_cases target span' e with hs | hs <;> rw [hs] <;> rfl
  | _ => rfl

end Shape

section Made

variable {span : Span} {fresh : String} {q : Qualifier}

theorem plain_value (hfresh : N fresh) (h : AllExprs (Plain N) later) :
    AllExpr (Plain N) (value span fresh later) := by
  have hname : AllExpr (Plain N) (.identifier span fresh) := ⟨hfresh, rfl, rfl⟩
  unfold value
  split
  · exact hname
  · rename_i hne
    refine ⟨⟨trivial, rfl, rfl⟩, ⟨?_, rfl, rfl⟩, ?_⟩
    · intro hnil
      rw [map_eq_nil_iff] at hnil
      simp [hnil] at hne
    · rw [allExprs_iff] at h ⊢
      intro e he
      obtain ⟨step, hstep, rfl⟩ := mem_map.mp he
      exact ⟨⟨⟨trivial, rfl⟩, rfl, rfl⟩, hname, h step hstep⟩

theorem plain_opening (hq : q.Known) (hfresh : N fresh) (h : AllExpr (Plain N) first) :
    AllStmt (Plain N) (opening span q fresh (first :: later)) := by
  refine ⟨⟨⟨hq, cons_ne_nil _ _, fun _ d hd => ?_⟩, rfl, rfl⟩, ⟨hfresh, rfl, rfl⟩, h, trivial⟩
  cases mem_singleton.mp hd
  rfl

theorem plain_declaration {result : String} (hq : q.Known) (hresult : N result) (hfresh : N fresh)
    (hfirst : AllExpr (Plain N) first) (hlater : AllExprs (Plain N) later) :
    AllStmts (Plain N) (declaration target span q result fresh (first :: later)) := by
  refine ⟨plain_opening ?_ hfresh hfirst, ⟨⟨⟨hq, cons_ne_nil _ _, fun _ d hd => ?_⟩, rfl, rfl⟩,
    ⟨hresult, rfl, rfl⟩, plain_value hfresh hlater, trivial⟩, trivial⟩
  · unfold freshQualifier
    split <;> trivial
  · cases mem_singleton.mp hd
    rfl

theorem plain_expression (hfresh : N fresh) (hfirst : AllExpr (Plain N) first)
    (hlater : AllExprs (Plain N) later) :
    AllExpr (Plain N) (expression target span fresh (first :: later)) := by
  have hbody (q : Qualifier) (hq : q.Known) : AllStmts (Plain N)
      [opening span q fresh (first :: later), .ret span (some (value span fresh later))] :=
    ⟨plain_opening hq hfresh hfirst, ⟨⟨trivial, rfl, rfl⟩, plain_value hfresh hlater⟩, trivial⟩
  cases target with
  | es2015 =>
    exact ⟨⟨trivial, rfl, rfl⟩, ⟨⟨trivial, rfl, rfl⟩, ⟨nofun, rfl, rfl⟩, ⟨trivial, rfl, rfl⟩,
      hbody .let_ trivial⟩, trivial⟩
  | es5 =>
    have hcall : Token.IsWord "call" := ⟨'c', ['a', 'l', 'l'], rfl, rfl, all_eq_true.mp rfl⟩
    exact ⟨⟨trivial, rfl, rfl⟩, ⟨⟨hcall, rfl, rfl⟩, ⟨trivial, rfl, rfl⟩, ⟨⟨nofun, nofun⟩, rfl, rfl⟩,
      hbody .var trivial⟩, ⟨trivial, rfl, rfl⟩, trivial⟩

theorem plain_slot {ss : List Stmt} (h : AllStmts (Plain N) ss) :
    AllStmt (Plain N) (slot span ss) := by
  match ss, h with
  | [], _ => exact ⟨trivial, rfl, rfl⟩
  | [s], h => exact h.1
  | _ :: _ :: _, h => exact ⟨⟨trivial, rfl, rfl⟩, h⟩

end Made

section Induction

theorem plain_declare {span : Span} {q : Qualifier} (h : Given N (.stmt (.declare span q ds)))
    (hds : AllDeclarators (Plain N) (declarators target ds)) :
    AllStmt (Plain N) (.declare span q (declarators target ds)) := by
  refine ⟨⟨⟨h.1.1, fun hnil => h.1.2.1 (length_eq_zero_iff.mp ?_),
    fun hq => init?_declarators (h.1.2.2 hq)⟩, rfl, rfl⟩, hds⟩
  exact (length_declarators ds).symm.trans (congrArg List.length hnil)

section

set_option linter.unusedSectionVars false

variable (hundefined : N "undefined") (hnone : N "None")

include hundefined hnone

mutual

/-- A lowered expression is plain. -/
theorem plain_expr : (e : Expr) → AllExpr (Given N) e →
    AllExpr (Plain N) (expr target e)
  | .template _ _ es, h =>
    ⟨⟨h.1.1.trans (congrArg (· + 1) (length_exprs es).symm), rfl, rfl⟩,
      plain_exprs es h.2⟩
  | .array _ es, h => ⟨⟨trivial, rfl, rfl⟩, plain_exprs es h.2⟩
  | .object _ ps, h => ⟨⟨trivial, rfl, rfl⟩, plain_properties ps h.2⟩
  | .function _ _ _ body, h => ⟨⟨h.1.1, rfl, rfl⟩, plain_stmts body h.2⟩
  | .arrow _ _ e, h => ⟨⟨h.1.1, rfl, rfl⟩, plain_expr e h.2⟩
  | .arrowBlock _ _ _ body, h =>
    ⟨⟨h.1.1, rfl, rfl⟩, ⟨trivial, rfl, rfl⟩, plain_stmts body h.2.2⟩
  | .call _ callee args, h =>
    ⟨⟨trivial, rfl, rfl⟩, plain_expr callee h.2.1, plain_exprs args h.2.2⟩
  | .new _ callee args, h =>
    ⟨⟨isNewCallee_expr h.1.1, rfl, rfl⟩, plain_expr callee h.2.1, plain_exprs args h.2.2⟩
  | .member _ e _, h | .unary _ _ e, h => ⟨⟨h.1.1, rfl, rfl⟩, plain_expr e h.2⟩
  | .update _ _ _ e, h =>
    ⟨⟨⟨h.1.1.1, isTarget_expr h.1.1.2⟩, rfl, rfl⟩, plain_expr e h.2⟩
  | .paren _ e, h => ⟨⟨trivial, rfl, rfl⟩, plain_expr e h.2⟩
  | .index _ l r, h =>
    ⟨⟨trivial, rfl, rfl⟩, plain_expr l h.2.1, plain_expr r h.2.2⟩
  | .binary _ l _ r, h =>
    ⟨⟨h.1.1, rfl, rfl⟩, plain_expr l h.2.1, plain_expr r h.2.2⟩
  | .assign _ l _ r, h =>
    ⟨⟨⟨h.1.1.1, isTarget_expr h.1.1.2⟩, rfl, rfl⟩, plain_expr l h.2.1,
      plain_expr r h.2.2⟩
  | .conditional _ t c a, h =>
    ⟨⟨trivial, rfl, rfl⟩, plain_expr t h.2.1, plain_expr c h.2.2.1,
      plain_expr a h.2.2.2⟩
  | .sequence _ es, h => by
    refine ⟨⟨fun hnil => h.1.1 (length_eq_zero_iff.mp ?_), rfl, rfl⟩,
      plain_exprs es h.2⟩
    exact (length_exprs es).symm.trans (congrArg List.length hnil)
  | .steps _ _ _ [] _ _, h => absurd rfl h.1.1.2.2
  | .steps _ _ _ (first :: later) _ fresh, h => by
    refine plain_expression ?_ (plain_expr first h.2.1) (plain_exprs later h.2.2)
    cases fresh with
    | none => exact hnone
    | some name => exact h.1.2 name rfl
  | .rejected .., _ => ⟨hundefined, rfl, rfl⟩
  | .identifier .., h | .number .., h | .string .., h | .boolean .., h | .null .., h
  | .this .., h => ⟨h.1, rfl, rfl⟩
  | .foreign .., h => h.1.elim

theorem plain_exprs : (es : List Expr) → AllExprs (Given N) es →
    AllExprs (Plain N) (exprs target es)
  | [], _ => trivial
  | e :: es, h => ⟨plain_expr e h.1, plain_exprs es h.2⟩

theorem plain_properties : (ps : List Property) →
    AllProperties (Given N) ps → AllProperties (Plain N) (properties target ps)
  | [], _ => trivial
  | .mk _ _ e _ :: ps, h =>
    ⟨⟨trivial, rfl, rfl⟩, plain_expr e h.2.1, plain_properties ps h.2.2⟩

theorem plain_declarators : (ds : List Declarator) →
    AllDeclarators (Given N) ds → AllDeclarators (Plain N) (declarators target ds)
  | [], _ => trivial
  | .mk _ _ none :: ds, h => ⟨⟨h.1.1, rfl, rfl⟩, plain_declarators ds h.2⟩
  | .mk _ _ (some e) :: ds, h =>
    ⟨⟨h.1.1, rfl, rfl⟩, plain_expr e h.2.1, plain_declarators ds h.2.2⟩

/-- A lowered statement is plain. -/
theorem plain_stmt : (s : Stmt) → AllStmt (Given N) s →
    AllStmts (Plain N) (stmt target s)
  | .declare span q ds, h => ⟨plain_declare h.1 (plain_declarators ds h.2), trivial⟩
  | .steps _ _ _ _ [] _ _, h => absurd rfl h.1.1.2.2.2
  | .steps _ _ _ _ (first :: later) _ fresh, h => by
    refine plain_declaration h.1.1.1 h.1.1.2.2.1 ?_ (plain_expr first h.2.1)
      (plain_exprs later h.2.2)
    cases fresh with
    | none => exact hnone
    | some name => exact h.1.2 name rfl
  | .function _ _ _ body, h =>
    ⟨⟨⟨h.1.1, rfl, rfl⟩, plain_stmts body h.2⟩, trivial⟩
  | .ret _ none, _ => ⟨⟨trivial, rfl, rfl⟩, trivial⟩
  | .ret _ (some e), h | .throw_ _ e, h =>
    ⟨⟨⟨trivial, rfl, rfl⟩, plain_expr e h.2⟩, trivial⟩
  | .ifElse _ t c none, h | .whileLoop _ t c, h =>
    ⟨⟨⟨trivial, rfl, rfl⟩, plain_expr t h.2.1, plain_slot (plain_stmt c h.2.2)⟩, trivial⟩
  | .ifElse _ t c (some a), h =>
    ⟨⟨⟨endsOpenIf_slot _ h.1.1, rfl, rfl⟩, plain_expr t h.2.1,
      plain_slot (plain_stmt c h.2.2.1), plain_slot (plain_stmt a h.2.2.2)⟩,
      trivial⟩
  | .forLoop span init test update body, h => by
    rw [stmt_forLoop]
    refine ⟨⟨⟨?_, rfl, rfl⟩, ?_, ?_, ?_, plain_slot (plain_stmt body h.2.2.2.2)⟩, trivial⟩
    · cases init with
      | none => trivial
      | some s =>
        cases s with
        | declare | expr => trivial
        | _ => exact h.1.1.elim
    · cases init with
      | none => trivial
      | some s =>
        cases s with
        | declare s q ds => exact plain_declare h.2.1.1 (plain_declarators ds h.2.1.2)
        | expr s e => exact plain_expr e h.2.1
        | _ => exact h.1.1.elim
    · cases test with
      | none => trivial
      | some e => exact plain_expr e h.2.2.1
    · cases update with
      | none => trivial
      | some e => exact plain_expr e h.2.2.2.1
  | .forOf _ _ _ e b, h =>
    ⟨⟨⟨h.1.1, rfl, rfl⟩, plain_expr e h.2.1, plain_slot (plain_stmt b h.2.2)⟩, trivial⟩
  | .block _ body, h => ⟨⟨⟨trivial, rfl, rfl⟩, plain_stmts body h.2⟩, trivial⟩
  | .expr span e, h => by
    rcases stmt_expr_cases target span e with hs | hs
    · rw [hs]
      trivial
    · rw [hs]
      exact ⟨⟨⟨trivial, rfl, rfl⟩, plain_expr e h.2⟩, trivial⟩
  | .rejected .., _ => trivial
  | .break_ _, _ | .continue_ _, _ | .empty _, _ => ⟨⟨trivial, rfl, rfl⟩, trivial⟩
  | .foreign _, h => h.1.elim

theorem plain_stmts : (ss : List Stmt) → AllStmts (Given N) ss →
    AllStmts (Plain N) (stmts target ss)
  | [], _ => trivial
  | s :: ss, h =>
    allStmts_append.mpr ⟨plain_stmt s h.1, plain_stmts ss h.2⟩

end

end

end Induction

end Lower

end StepBinding
