import StepBinding.Lower
import StepBinding.Proofs.Tree.Form

/-! The shape of lowered code. A statement becomes a list of statements: a step binding becomes
two, what was rejected nothing, and anything else a single statement of the same kind. -/

namespace StepBinding

namespace Lower

variable (target : Target)

/-- The lowered start of a loop. -/
def start : Option Stmt → Option Stmt
  | some (.declare s qualifier ds) => some (.declare s qualifier (declarators target ds))
  | some (.expr s e) => some (.expr s (expr target e))
  | other => other

theorem stmt_forLoop (span : Span) (init : Option Stmt) (test update : Option Expr) (body : Stmt) :
    stmt target (.forLoop span init test update body) =
      [.forLoop span (start target init) (test.map (expr target)) (update.map (expr target))
        (slot body.span (stmt target body))] := by
  rcases init with _ | s
  · cases test <;> cases update <;> rfl
  · cases s <;> cases test <;> cases update <;> rfl

theorem stmt_expr_cases (span : Span) (e : Expr) :
    stmt target (.expr span e) = [] ∨ stmt target (.expr span e) = [.expr span (expr target e)] := by
  cases e with
  | rejected => exact .inl rfl
  | _ => exact .inr rfl

theorem exprs_eq_map (es : List Expr) : exprs target es = es.map (expr target) := by
  induction es with
  | nil => rfl
  | cons e es ih => exact congrArg (expr target e :: ·) ih

theorem names_declarators (ds : List Declarator) :
    (declarators target ds).map Declarator.name = ds.map Declarator.name := by
  induction ds with
  | nil => rfl
  | cons d ds ih =>
    obtain ⟨span, name, init⟩ := d
    cases init <;> exact congrArg (name :: ·) ih

theorem varNamesOf_append (ss ts : List Stmt) :
    Tree.varNamesOf (ss ++ ts) = Tree.varNamesOf ss ++ Tree.varNamesOf ts := by
  induction ss with
  | nil => rfl
  | cons s ss ih =>
    change Tree.varNames s ++ Tree.varNamesOf (ss ++ ts) = _
    rw [ih, ← List.append_assoc]
    rfl

theorem varNamesOf_singleton (s : Stmt) : Tree.varNamesOf [s] = Tree.varNames s :=
  List.append_nil _

theorem varNames_slot (span : Span) (ss : List Stmt) :
    Tree.varNames (slot span ss) = Tree.varNamesOf ss := by
  match ss with
  | [] => rfl
  | [s] => exact (varNamesOf_singleton s).symm
  | _ :: _ :: _ => rfl

end Lower

end StepBinding
