import StepBinding.Proofs.Lower.Shape
import StepBinding.Proofs.Tree.Relabel
import StepBinding.Tree.Print

/-! Lowering and printing do not look at positions. A tree with other ranges is lowered
to the same tree with other ranges, and its text is the same. -/

namespace StepBinding.Relabel

open StepBinding.Tree

variable {f : Relabel}

section Lower

variable {target : Target}

theorem expr_value (span : Span) (fresh : String) (later : List Expr) :
    f.expr (Lower.value span fresh later) = Lower.value (f.span span) fresh (f.exprs later) := by
  unfold Lower.value
  rw [exprs_eq_map, List.isEmpty_map]
  split
  · rfl
  · rw [expr, expr, exprs_eq_map, List.map_map, List.map_map]
    rfl

theorem stmt_opening (span : Span) (q : Qualifier) (fresh : String) (steps : List Expr) :
    f.stmt (Lower.opening span q fresh steps) =
      Lower.opening (f.span span) q fresh (f.exprs steps) := by
  cases steps <;> rfl

theorem stmts_declaration (span : Span) (q : Qualifier) (result fresh : String)
    (steps : List Expr) :
    f.stmts (Lower.declaration target span q result fresh steps) =
      Lower.declaration target (f.span span) q result fresh (f.exprs steps) := by
  rw [Lower.declaration, Lower.declaration, stmts, stmt_opening, stmts, stmt, declarators, stmts,
    declarators, expr_value]
  cases steps <;> rfl

theorem expr_expression (span : Span) (fresh : String) (steps : List Expr) :
    f.expr (Lower.expression target span fresh steps) =
      Lower.expression target (f.span span) fresh (f.exprs steps) := by
  have hending : f.stmt (.ret span (some (Lower.value span fresh steps.tail))) =
      .ret (f.span span) (some (Lower.value (f.span span) fresh (f.exprs steps).tail)) := by
    rw [stmt, option, expr_value]
    cases steps <;> rfl
  have hopening (q : Qualifier) := f.stmt_opening span q fresh steps
  unfold Lower.expression
  cases target with
  | es2015 => simp only [expr, exprs, stmts, hending, hopening]
  | es5 => simp only [expr, exprs, stmts, hending, hopening]

theorem stmt_slot (span : Span) (ss : List Stmt) :
    f.stmt (Lower.slot span ss) = Lower.slot (f.span span) (f.stmts ss) := by
  match ss with
  | [] => rfl
  | [_] => rfl
  | _ :: _ :: _ => rfl

theorem span_stmt (hf : f.span default = default) (s : Stmt) : (f.stmt s).span = f.span s.span := by
  cases s with
  | foreign c => exact hf.symm
  | ifElse s t c a => cases a <;> rfl
  | _ => rfl

/-- Lowering a fragment at other positions gives the lowered fragment at these positions. -/
def Lowers (f : Relabel) (target : Target) : Fragment → Prop
  | .expr e => Lower.expr target (f.expr e) = f.expr (Lower.expr target e)
  | .exprs es => Lower.exprs target (f.exprs es) = f.exprs (Lower.exprs target es)
  | .properties ps =>
    Lower.properties target (f.properties ps) = f.properties (Lower.properties target ps)
  | .declarators ds =>
    Lower.declarators target (f.declarators ds) = f.declarators (Lower.declarators target ds)
  | .stmt s => Lower.stmt target (f.stmt s) = f.stmts (Lower.stmt target s)
  | .start init => Lower.start target (f.start init) = f.start (Lower.start target init)
  | .option value => (f.option value).map (Lower.expr target) = f.option (value.map (Lower.expr target))
  | .stmts ss => Lower.stmts target (f.stmts ss) = f.stmts (Lower.stmts target ss)

theorem lowers_fragment (hf : f.span default = default) (x : Fragment) : Lowers f target x := by
  induction x using Fragment.induct with
  | h x ih =>
    rcases x with ⟨⟨⟩⟩ | ⟨_ | _⟩ | ⟨_ | ⟨⟨⟩, _⟩⟩ | ⟨_ | ⟨⟨_, _, _ | _⟩, _⟩⟩ |
      ⟨_ | _ | _ | ⟨_, _ | _⟩ | ⟨_, _, _, _ | _⟩ | _⟩ | ⟨_ | s⟩ | ⟨_ | _⟩ | ⟨_ | _⟩
    all_goals simp [Fragment.parts, Lowers] at ih
    case start.some =>
      cases s with
      | ifElse s t c a => cases a <;> rfl
      | _ => simp_all [Lowers, start, stmt, stmts, Lower.stmt, Lower.start]
    case stmt.forLoop =>
      rw [Lowers, stmt, Lower.stmt_forLoop, Lower.stmt_forLoop, ih.1, ih.2.1, ih.2.2.1, ih.2.2.2,
        span_stmt hf, ← stmt_slot]
      rfl
    case stmt.expr span e => cases e <;> simp_all [Lowers, stmt, stmts, expr, Lower.stmt, Lower.expr]
    case stmts.cons => simp_all [Lowers, stmts_eq_map, Lower.stmts]
    all_goals simp [Lowers, expr, exprs, properties, declarators, stmt, start, option, stmts,
      Lower.expr, Lower.exprs, Lower.properties, Lower.declarators, Lower.stmt, Lower.start,
      Lower.stmts, hf, ih, expr_expression, stmts_declaration, stmt_slot, span_stmt hf]

theorem lower_stmts (hf : f.span default = default) (ss : List Stmt) :
    Lower.stmts target (f.stmts ss) = f.stmts (Lower.stmts target ss) :=
  lowers_fragment hf (.stmts ss)

end Lower

section Print

open Print Text.CharClass

variable {indent : String}

section Lines

variable {level : Nat} {span : Span}

theorem stmtText_declare (q : Qualifier) (ds : List Declarator) :
    stmtText indent level (.declare span q ds) =
      [pad indent level ++ q.word ++ " " ++ commas (declaratorTexts indent level ds) ++ ";"] := rfl

theorem stmtText_steps (q : Qualifier) (b result : String) (es : List Expr) (i : Nat)
    (fresh : Option String) :
    stmtText indent level (.steps span q b result es i fresh) =
      [pad indent level ++ q.word ++ "(" ++ b ++ ") " ++ result ++ " = "
        ++ commas ((exprTexts indent level es).map (wrap assignLevel)) ++ ";"] := rfl

theorem stmtText_function (n : String) (params : List String) (body : List Stmt) :
    stmtText indent level (.function span n params body) =
      bracedAfter (pad indent level) ("function " ++ n ++ "(" ++ commas params ++ ")") body.isEmpty
        (stmtsText indent (level + 1) body) := rfl

theorem stmtText_ret (e : Expr) :
    stmtText indent level (.ret span (some e)) =
      [pad indent level ++ "return " ++ (exprText indent level e).1 ++ ";"] := rfl

theorem stmtText_throw (e : Expr) :
    stmtText indent level (.throw_ span e) =
      [pad indent level ++ "throw " ++ (exprText indent level e).1 ++ ";"] := rfl

theorem stmtText_expr (e : Expr) :
    stmtText indent level (.expr span e) =
      [pad indent level ++ stmtExprText (exprText indent level e).1 ++ ";"] := rfl

theorem stmtText_block (body : List Stmt) :
    stmtText indent level (.block span body) =
      if body.isEmpty then [pad indent level ++ "\x7b\x7d"]
      else braced (pad indent level) "" (stmtsText indent (level + 1) body) := rfl

/-- The lines of a statement after a header. -/
def slotText (indent : String) (level : Nat) (header : String) : Stmt → List String
  | .block _ body =>
    bracedAfter (pad indent level) header body.isEmpty (stmtsText indent (level + 1) body)
  | s => (pad indent level ++ header) :: stmtText indent (level + 1) s

/-- The lines of an else part. -/
def elseText (indent : String) (level : Nat) (alternate : Stmt) : List String :=
  if isIf alternate then
    mapHead (fun line => pad indent level ++ "else " ++ trimStart line)
      (stmtText indent level alternate)
  else slotText indent level "else" alternate

theorem stmtText_if (span : Span) (t : Expr) (c : Stmt) :
    stmtText indent level (.ifElse span t c none) =
      slotText indent level ("if (" ++ (exprText indent level t).1 ++ ")") c := by
  cases c <;> rfl

theorem stmtText_ifElse (span : Span) (t : Expr) (c a : Stmt) :
    stmtText indent level (.ifElse span t c (some a)) =
      joinElse (pad indent level)
        (if isIf c then
          bracedAfter (pad indent level) ("if (" ++ (exprText indent level t).1 ++ ")") false
            (stmtText indent (level + 1) c)
        else slotText indent level ("if (" ++ (exprText indent level t).1 ++ ")") c)
        (elseText indent level a) := by
  cases c <;> cases a <;> rfl

theorem stmtText_while (span : Span) (t : Expr) (b : Stmt) :
    stmtText indent level (.whileLoop span t b) =
      slotText indent level ("while (" ++ (exprText indent level t).1 ++ ")") b := by
  cases b <;> rfl

theorem stmtText_forOf (span : Span) (q : Qualifier) (n : String) (e : Expr) (b : Stmt) :
    stmtText indent level (.forOf span q n e b) =
      slotText indent level ("for (" ++ q.word ++ " " ++ n ++ " of "
        ++ wrap assignLevel (exprText indent level e) ++ ")") b := by
  cases b <;> rfl

/-- The text of the start of a loop. -/
def startText (indent : String) (level : Nat) : Option Stmt → String
  | some (.declare _ q ds) => q.word ++ " " ++ commas (declaratorTexts indent level ds)
  | some (.expr _ e) => (exprText indent level e).1
  | _ => ""

/-- The text of a further part of the head of a loop. -/
def optionText (indent : String) (level : Nat) : Option Expr → String
  | none => ""
  | some e => " " ++ (exprText indent level e).1

theorem stmtText_for (span : Span) (init : Option Stmt) (test update : Option Expr) (b : Stmt) :
    stmtText indent level (.forLoop span init test update b) =
      slotText indent level ("for (" ++ startText indent level init ++ ";"
        ++ optionText indent level test ++ ";" ++ optionText indent level update ++ ")") b := by
  cases b <;> cases test <;> cases update <;>
  · cases init with
    | none => rfl
    | some s => cases s <;> rfl

end Lines

theorem isIf_stmt (s : Stmt) : isIf (f.stmt s) = isIf s := by
  cases s with
  | ifElse s t c a => cases a <;> rfl
  | _ => rfl

theorem isCall_expr (e : Expr) : isCall (f.expr e) = isCall e := by
  cases e with
  | foreign c => rw [expr]; split <;> rfl
  | _ => rfl

theorem propertyText_expr (key : String) (value : Expr) (text : Piece) :
    propertyText key (f.expr value) text = propertyText key value text := by
  cases value with
  | foreign c => rw [expr]; split <;> rfl
  | _ => rfl

theorem isEmpty_properties (ps : List Property) : (f.properties ps).isEmpty = ps.isEmpty := by
  rw [properties_eq_map, List.isEmpty_map]

theorem isEmpty_stmts (ss : List Stmt) : (f.stmts ss).isEmpty = ss.isEmpty := by
  rw [stmts_eq_map, List.isEmpty_map]

/-- A statement has the same lines, alone and after a header. -/
def SameLines (f : Relabel) (indent : String) (s : Stmt) : Prop :=
  ∀ level, stmtText indent level (f.stmt s) = stmtText indent level s ∧
    ∀ header, slotText indent level header (f.stmt s) = slotText indent level header s

theorem sameLines_of_ne {s : Stmt} (hne : ∀ span body, s ≠ .block span body)
    (hne' : ∀ span body, f.stmt s ≠ .block span body)
    (h : ∀ level, stmtText indent level (f.stmt s) = stmtText indent level s) :
    SameLines f indent s := fun level => by
  refine ⟨h level, fun header => ?_⟩
  rw [slotText.eq_2 _ _ _ _ hne, slotText.eq_2 _ _ _ _ hne', h (level + 1)]

/-- A fragment has the same text at other positions. -/
def SameText (f : Relabel) (indent : String) : Fragment → Prop
  | .expr e => ∀ level, exprText indent level (f.expr e) = exprText indent level e
  | .exprs es => ∀ level, exprTexts indent level (f.exprs es) = exprTexts indent level es
  | .properties ps => ∀ level,
    propertyTexts indent level (f.properties ps) = propertyTexts indent level ps
  | .declarators ds =>
    ∀ level, declaratorTexts indent level (f.declarators ds) = declaratorTexts indent level ds
  | .stmt s => SameLines f indent s
  | .start init => ∀ level, startText indent level (f.start init) = startText indent level init
  | .option value => ∀ level, optionText indent level (f.option value) = optionText indent level value
  | .stmts ss => ∀ level, stmtsText indent level (f.stmts ss) = stmtsText indent level ss

theorem sameText_fragment (hf : f.span default = default) (x : Fragment) : SameText f indent x := by
  induction x using Fragment.induct with
  | h x ih =>
    rcases x with ⟨⟨⟩⟩ | ⟨_ | _⟩ | ⟨_ | ⟨⟨⟩, _⟩⟩ | ⟨_ | ⟨⟨_, _, _ | _⟩, _⟩⟩ |
      ⟨_ | _ | _ | ⟨_, _ | _⟩ | ⟨_, _, _, _ | _⟩ | _⟩ | ⟨_ | s⟩ | ⟨_ | _⟩ | ⟨_ | _⟩
    all_goals simp [Fragment.parts, SameText, SameLines] at ih
    case start.some =>
      cases s with
      | ifElse s t c a => cases a <;> exact fun _ => rfl
      | declare s q ds => simp_all [SameText, start, stmt, startText, stmtText_declare, slotText]
      | expr s e => simp_all [SameText, start, stmt, startText]
      | _ => exact fun _ => rfl
    case option.some => simp [SameText, option, optionText, ih]
    case stmt.block => simp [SameText, SameLines, stmt, stmtText_block, slotText, isEmpty_stmts, ih]
    all_goals try refine sameLines_of_ne (by simp) (by simp [stmt]) fun level => ?_
    all_goals simp [SameText, expr, exprs, properties, declarators, stmt, option, stmts, exprText,
      exprTexts, propertyTexts, declaratorTexts, stmtText_declare, stmtText_steps, stmtText_function,
      stmtText_ret, stmtText_if, stmtText_ifElse, stmtText_while, stmtText_for, stmtText_forOf,
      stmtText_throw, stmtText_expr, stmtsText, elseText, isIf_stmt, isCall_expr,
      propertyText_expr, isEmpty_properties, isEmpty_stmts, hf, ih]
    all_goals first | rfl | exact fun _ => rfl

theorem stmtsText_stmts (hf : f.span default = default) (level : Nat) (ss : List Stmt) :
    stmtsText indent level (f.stmts ss) = stmtsText indent level ss :=
  sameText_fragment hf (.stmts ss) level

end Print

end StepBinding.Relabel
