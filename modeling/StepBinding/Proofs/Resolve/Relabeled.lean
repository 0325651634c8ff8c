import StepBinding.Proofs.Resolve.Form
import StepBinding.Proofs.Tree.Relabel

/-! Resolving does not look at positions. If the ranges of a tree are changed, the visit of the tree
changes only in ranges. -/

namespace StepBinding

open List StepBinding.Tree Resolve

variable {s : Scope} {span : Span} {index : Nat}

namespace Relabel

variable {α β α' β' : Type} (f : Relabel)

def binding (b : Binding) : Binding :=
  { b with span := b.span.map f.span }

def scope (s : Scope) : Scope := s.map fun frame => frame.map f.binding

def reference (r : Reference) : Reference := { r with span := f.span r.span }

/-- A visit of a changed tree. -/
def visit (g : α → α') (v : Visit α) : Visit α' where
  value := g v.value
  unresolved := v.unresolved.map f.reference
  diagnostics := v.diagnostics.map f.diagnostic
  edits := v.edits
  asked := v.asked

theorem visit_bind {g : α → α'} {h : β → β'} {v : Visit α} {w : α → Visit β} {v' : Visit α'}
    {w' : α' → Visit β'} (hv : v' = f.visit g v) (hw : w' (g v.value) = f.visit h (w v.value)) :
    v' >>= w' = f.visit h (v >>= w) := by
  subst hv
  simp only [bind]
  simp only [visit] at hw ⊢
  rw [hw]
  simp [map_append]

section Scopes

theorem lookup_frame (frame : Frame) (name : String) :
    Frame.lookup (frame.map f.binding) name = (Frame.lookup frame name).map f.binding := by
  unfold Frame.lookup
  rw [find?_map]
  rfl

theorem lookup_scope (s : Scope) (name : String) :
    (f.scope s).lookup name = (s.lookup name).map f.binding := by
  induction s with
  | nil => rfl
  | cons frame s ih =>
    rw [scope, map_cons, Scope.lookup, Scope.lookup, lookup_frame]
    cases Frame.lookup frame name with
    | none => exact ih
    | some b => rfl

theorem scope_id (s : Scope) : (⟨id⟩ : Relabel).scope s = s := by
  have hbinding : (⟨id⟩ : Relabel).binding = id := funext fun b => by simp [binding]
  simp [scope, hbinding]

theorem defineAll_binding (frame : Frame) (bs : List Binding) :
    Frame.defineAll (frame.map f.binding) (bs.map f.binding) =
      (Frame.defineAll frame bs).map f.binding := by
  unfold Frame.defineAll
  induction bs generalizing frame with
  | nil => rfl
  | cons b bs ih =>
    have hdefine : Frame.define (frame.map f.binding) (f.binding b) =
        (Frame.define frame b).map f.binding := by
      unfold Frame.define
      rw [show (f.binding b).name = b.name from rfl, lookup_frame, Option.isSome_map]
      split <;> simp
    rw [map_cons, foldl_cons, hdefine]
    exact ih (Frame.define frame b)

theorem declaratorBindings (ds : List Declarator) :
    (f.declarators ds).map declaratorBinding = (ds.map declaratorBinding).map f.binding := by
  rw [declarators_eq_map, map_map, map_map]
  exact map_congr_left fun d _ => by cases d; rfl

theorem declared_stmt (s : Stmt) : declared (f.stmt s) = (declared s).map f.binding := by
  cases s with
  | declare s q ds =>
    cases q with
    | var => rfl
    | _ => exact f.declaratorBindings ds
  | steps s q b result es i fresh => cases q <;> rfl
  | ifElse s t c a => cases a <;> rfl
  | _ => rfl

theorem flatMap_declared (ss : List Stmt) :
    (f.stmts ss).flatMap declared = (ss.flatMap declared).map f.binding := by
  rw [stmts_eq_map, flatMap_map, map_flatMap]
  exact congrArg (List.flatMap · ss) (funext f.declared_stmt)

mutual

theorem varNamesBy_stmt (ofSteps : String → String → Option String → List String) (s : Stmt) :
    varNamesBy ofSteps (f.stmt s) = varNamesBy ofSteps s := by
  have hdeclarators (ds : List Declarator) :
      ((f.declarators ds).map fun | .mk _ name _ => name) = ds.map fun | .mk _ name _ => name := by
    rw [declarators_eq_map, map_map]
    exact map_congr_left fun d _ => by cases d; rfl
  cases s with
  | declare s q ds =>
    cases q with
    | var => exact hdeclarators ds
    | _ => rfl
  | steps s q b result es i fresh => cases q <;> rfl
  | ifElse s t c a =>
    cases a with
    | none => exact varNamesBy_stmt ofSteps c
    | some a =>
      rw [stmt, varNamesBy, varNamesBy, varNamesBy_stmt ofSteps c, varNamesBy_stmt ofSteps a]
  | whileLoop s t body => exact varNamesBy_stmt ofSteps body
  | forLoop s init test update body =>
    have hbody := varNamesBy_stmt ofSteps body
    cases init with
    | none => exact hbody
    | some i =>
      cases i with
      | declare s q ds =>
        cases q with
        | var =>
          rw [stmt, start, stmt, varNamesBy, varNamesBy, hbody]
          exact congrArg (· ++ _) (hdeclarators ds)
        | _ => exact hbody
      | ifElse s t c a => cases a <;> exact hbody
      | _ => exact hbody
  | forOf s q n e body =>
    have hbody := varNamesBy_stmt ofSteps body
    cases q with
    | var => rw [stmt, varNamesBy, varNamesBy, hbody]
    | _ => exact hbody
  | block s body => exact varNamesOfBy_stmts ofSteps body
  | _ => rfl

theorem varNamesOfBy_stmts (ofSteps : String → String → Option String → List String)
    (ss : List Stmt) : varNamesOfBy ofSteps (f.stmts ss) = varNamesOfBy ofSteps ss := by
  cases ss with
  | nil => rfl
  | cons s ss =>
    rw [stmts, varNamesOfBy, varNamesOfBy, varNamesBy_stmt ofSteps s, varNamesOfBy_stmts ofSteps ss]

end

theorem binding_names {kind : BindingKind} (names : List String) :
    (names.map fun name => ({ name, kind } : Binding)).map f.binding =
      names.map fun name => ({ name, kind } : Binding) := by
  rw [map_map]
  rfl

theorem blockFrame_stmts (body : List Stmt) :
    blockFrame (f.stmts body) = (blockFrame body).map f.binding := by
  rw [blockFrame, flatMap_declared]
  exact f.defineAll_binding [] _

theorem functionFrame_stmts (params : List String) (body : List Stmt) :
    functionFrame params (f.stmts body) = (functionFrame params body).map f.binding := by
  rw [functionFrame, flatMap_declared, varNamesOf, varNamesOfBy_stmts, parameters, variableBindings,
    ← f.binding_names params, ← f.binding_names (varNamesOfBy _ body), ← map_append, ← map_append]
  exact f.defineAll_binding [] _

theorem loopFrame_start (init : Option Stmt) :
    loopFrame (f.start init) = (loopFrame init).map f.binding := by
  cases init with
  | none => rfl
  | some s =>
    cases s with
    | declare s q ds =>
      have hframe := f.defineAll_binding [] (ds.map declaratorBinding)
      rw [← f.declaratorBindings ds] at hframe
      cases q with
      | var => rfl
      | _ => exact hframe
    | ifElse s t c a => cases a <;> rfl
    | _ => rfl

theorem nameScope_scope (s : Scope) (name : Option String) :
    nameScope (f.scope s) name = f.scope (nameScope s name) := by
  cases name <;> rfl

end Scopes

variable {f} {ctx ctx' : Context}

theorem identifier_scope (s : Scope) (span : Span) (name : String) :
    Resolve.identifier (f.scope s) (f.span span) name =
      f.visit f.expr (Resolve.identifier s span name) := by
  unfold Resolve.identifier
  rw [lookup_scope]
  cases s.lookup name with
  | none => rfl
  | some b =>
    dsimp only [Option.map_some]
    rw [show (f.binding b).kind = b.kind from rfl, show (f.binding b).fresh = b.fresh from rfl]
    split <;> rfl

theorem stepScope_scope (hfresh : ∀ i, ctx'.freshOf i = ctx.freshOf i) (s : Scope)
    (binding : String) (span : Span) (index : Nat) :
    stepScope ctx' (f.scope s) binding (f.span span) index =
      f.scope (stepScope ctx s binding span index) := by
  unfold stepScope
  rw [hfresh]
  rfl

theorem warn_scope (s : Scope) (binding : String) (span : Span) (index : Nat) :
    warn ctx (f.scope s) binding (f.span span) index =
      f.visit id (warn ctx s binding span index) := by
  unfold warn
  rw [lookup_scope]
  cases s.lookup binding with
  | none => rfl
  | some hidden =>
    dsimp only [Option.map_some]
    split
    · cases hspan : hidden.span <;> simp [visit, shadowWarning, diagnostic, Relabel.binding, hspan]
    · rfl

theorem settle_visit {binding : String} {first : Visit Expr} {later : Visit (List Expr)} :
    settle ctx (f.scope s) binding (f.span span) index (f.visit f.expr first)
        (f.visit f.exprs later) =
      f.visit (Option.map f.exprs) (settle ctx s binding span index first later) := by
  have hfilter (q : String → Bool) :
      (first.unresolved.map f.reference).filter (fun ref => q ref.name) =
        (first.unresolved.filter fun ref => q ref.name).map f.reference := by
    rw [filter_map]
    rfl
  have hown := hfilter fun name => name == binding
  have hothers := hfilter fun name => name != binding
  unfold settle
  rw [warn_scope]
  dsimp only [visit]
  rw [hown, hothers, isEmpty_map, show f.expr first.value :: f.exprs later.value =
    f.exprs (first.value :: later.value) from rfl, constructs_exprs]
  split <;> simp [earlyUse, diagnostic, reference, Diagnostic.error, Function.comp_def]

section Induction

/-- What `V` makes of the visit of a tree is the visit of the changed tree, as it is for names and for
step bindings. -/
structure Carries (f : Relabel) (V : ∀ {α β : Type}, (α → β) → Visit α → Visit β)
    (ctx ctx' : Context) : Prop where
  pure {α β : Type} {g : α → β} {a : α} {b : β} : g a = b → pure b = V g (pure a)
  bind {α β α' β' : Type} {g : α → α'} {h : β → β'} {v : Visit α} {w : α → Visit β} {v' : Visit α'}
    {w' : α' → Visit β'} : v' = V g v → w' (g v.value) = V h (w v.value) → v' >>= w' = V h (v >>= w)
  fresh : ∀ i, ctx'.freshOf i = ctx.freshOf i
  ask : ∀ i, ask i = V id (ask i)
  identifier : ∀ s span name, Resolve.identifier (f.scope s) (f.span span) name =
    V f.expr (Resolve.identifier s span name)
  settle : ∀ s binding span index first later,
    settle ctx' (f.scope s) binding (f.span span) index (V f.expr first) (V f.exprs later) =
      V (Option.map f.exprs) (settle ctx s binding span index first later)

theorem carries_visit : f.Carries f.visit ctx ctx where
  pure h := by rw [← h]; rfl
  bind := f.visit_bind
  fresh _ := rfl
  ask _ := rfl
  identifier := identifier_scope
  settle _ _ _ _ _ _ := settle_visit

set_option linter.unusedSectionVars false

variable {V : ∀ {α β : Type}, (α → β) → Visit α → Visit β} (t : f.Carries V ctx ctx')

include t

theorem resolve_steps {binding : String} {first : Expr} {later : List Expr}
    (hfirst : Resolve.expr ctx' (f.scope s) (f.expr first) = V f.expr (Resolve.expr ctx s first))
    (hlater : Resolve.exprs ctx' (f.scope (stepScope ctx s binding span index)) (f.exprs later) =
      V f.exprs (Resolve.exprs ctx (stepScope ctx s binding span index) later)) :
    settle ctx' (f.scope s) binding (f.span span) index
        (Resolve.expr ctx' (f.scope s) (f.expr first)) (Resolve.exprs ctx'
          (stepScope ctx' (f.scope s) binding (f.span span) index) (f.exprs later)) =
      V (Option.map f.exprs) (settle ctx s binding span index (Resolve.expr ctx s first)
        (Resolve.exprs ctx (stepScope ctx s binding span index) later)) := by
  rw [stepScope_scope t.fresh, hfirst, hlater]
  exact t.settle ..

mutual

theorem resolve_expr (s : Scope) : (e : Expr) →
    Resolve.expr ctx' (f.scope s) (f.expr e) = V f.expr (Resolve.expr ctx s e)
  | .identifier span name => t.identifier s span name
  | .template _ _ es | .array _ es | .sequence _ es => t.bind (resolve_exprs s es) (t.pure rfl)
  | .object _ ps => t.bind (resolve_properties s ps) (t.pure rfl)
  | .function _ name params body => by
    have hbody := resolve_stmts (functionFrame params body :: nameScope s name) body
    rw [scope, map_cons, ← functionFrame_stmts] at hbody
    refine t.bind (g := f.stmts) ?_ (t.pure rfl)
    rw [nameScope_scope]
    exact hbody
  | .arrow _ params body => by
    have hbody := resolve_expr (Frame.defineAll [] (parameters params) :: s) body
    rw [scope, map_cons, ← f.defineAll_binding, parameters, f.binding_names] at hbody
    exact t.bind hbody (t.pure rfl)
  | .arrowBlock _ params _ body => by
    have hbody := resolve_stmts (functionFrame params body :: s) body
    rw [scope, map_cons, ← functionFrame_stmts] at hbody
    exact t.bind hbody (t.pure rfl)
  | .call _ callee args | .new _ callee args =>
    t.bind (resolve_expr s callee) (t.bind (resolve_exprs s args) (t.pure rfl))
  | .member _ e _ | .unary _ _ e | .update _ _ _ e | .paren _ e =>
    t.bind (resolve_expr s e) (t.pure rfl)
  | .index _ l r | .binary _ l _ r | .assign _ l _ r =>
    t.bind (resolve_expr s l) (t.bind (resolve_expr s r) (t.pure rfl))
  | .conditional _ test c a =>
    t.bind (resolve_expr s test) (t.bind (resolve_expr s c)
      (t.bind (resolve_expr s a) (t.pure rfl)))
  | .steps _ _ _ [] i _ => t.bind (t.ask i) (t.pure rfl)
  | .steps span _ binding (first :: later) index _ => by
    refine t.bind (resolve_steps t (resolve_expr s first) (resolve_exprs _ later)) ?_
    rw [t.fresh]
    cases (settle ctx s binding span index _ _).value <;> exact t.pure rfl
  | .number .. | .string .. | .boolean .. | .null .. | .this .. | .rejected .. => t.pure rfl
  | .foreign c => by
    rw [expr]
    split <;> rename_i h <;> exact t.pure (by simp [expr, h])

theorem resolve_exprs (s : Scope) : (es : List Expr) →
    Resolve.exprs ctx' (f.scope s) (f.exprs es) = V f.exprs (Resolve.exprs ctx s es)
  | [] => t.pure rfl
  | e :: es => t.bind (resolve_expr s e) (t.bind (resolve_exprs s es) (t.pure rfl))

theorem resolve_properties (s : Scope) : (ps : List Property) →
    Resolve.properties ctx' (f.scope s) (f.properties ps) = V f.properties (Resolve.properties ctx s ps)
  | [] => t.pure rfl
  | .mk _ _ e _ :: ps =>
    t.bind (resolve_expr s e) (t.bind (resolve_properties s ps) (t.pure rfl))

theorem resolve_declarators (s : Scope) : (ds : List Declarator) →
    Resolve.declarators ctx' (f.scope s) (f.declarators ds) =
      V f.declarators (Resolve.declarators ctx s ds)
  | [] => t.pure rfl
  | .mk _ _ none :: ds => t.bind (resolve_declarators s ds) (t.pure rfl)
  | .mk _ _ (some e) :: ds =>
    t.bind (resolve_expr s e) (t.bind (resolve_declarators s ds) (t.pure rfl))

theorem resolve_stmt (s : Scope) : (x : Stmt) →
    Resolve.stmt ctx' (f.scope s) (f.stmt x) = V f.stmt (Resolve.stmt ctx s x)
  | .declare _ _ ds => t.bind (resolve_declarators s ds) (t.pure rfl)
  | .steps _ _ _ _ [] i _ => t.bind (t.ask i) (t.pure rfl)
  | .steps span _ binding _ (first :: later) index _ => by
    refine t.bind (resolve_steps t (resolve_expr s first) (resolve_exprs _ later)) ?_
    rw [t.fresh]
    cases (settle ctx s binding span index _ _).value <;> exact t.pure rfl
  | .function _ _ params body => by
    have hbody := resolve_stmts (functionFrame params body :: s) body
    rw [scope, map_cons, ← functionFrame_stmts] at hbody
    exact t.bind hbody (t.pure rfl)
  | .ret _ (some e) | .throw_ _ e | .expr _ e => t.bind (resolve_expr s e) (t.pure rfl)
  | .ifElse _ test c none | .whileLoop _ test c =>
    t.bind (resolve_expr s test) (t.bind (resolve_stmt s c) (t.pure rfl))
  | .ifElse _ test c (some a) =>
    t.bind (resolve_expr s test) (t.bind (resolve_stmt s c)
      (t.bind (resolve_stmt s a) (t.pure rfl)))
  | .forLoop _ init test update body => by
    rw [stmt, stmt_forLoop, stmt_forLoop, loopFrame_start]
    exact t.bind (resolve_start (loopFrame init :: s) init)
      (t.bind (resolve_option (loopFrame init :: s) test)
      (t.bind (resolve_option (loopFrame init :: s) update)
      (t.bind (resolve_stmt (loopFrame init :: s) body) (t.pure rfl))))
  | .forOf _ _ name e body =>
    t.bind (resolve_expr s e)
      (t.bind (resolve_stmt ([{ name, kind := .variable }] :: s) body) (t.pure rfl))
  | .block _ body => by
    have hbody := resolve_stmts (blockFrame body :: s) body
    rw [scope, map_cons, ← blockFrame_stmts] at hbody
    exact t.bind hbody (t.pure rfl)
  | .ret _ none | .break_ _ | .continue_ _ | .empty _ | .rejected .. | .foreign _ => t.pure rfl

theorem resolve_start (s : Scope) : (init : Option Stmt) →
    Resolve.start ctx' (f.scope s) (f.start init) = V f.start (Resolve.start ctx s init)
  | none => t.pure rfl
  | some x => t.bind (resolve_stmt s x) (t.pure rfl)

theorem resolve_option (s : Scope) : (value : Option Expr) →
    Resolve.option ctx' (f.scope s) (f.option value) = V f.option (Resolve.option ctx s value)
  | none => t.pure rfl
  | some e => t.bind (resolve_expr s e) (t.pure rfl)

theorem resolve_stmts (s : Scope) : (ss : List Stmt) →
    Resolve.stmts ctx' (f.scope s) (f.stmts ss) = V f.stmts (Resolve.stmts ctx s ss)
  | [] => t.pure rfl
  | x :: ss => t.bind (resolve_stmt s x) (t.bind (resolve_stmts s ss) (t.pure rfl))

end

end Induction

end Relabel

end StepBinding
