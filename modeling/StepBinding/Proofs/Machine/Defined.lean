import StepBinding.Proofs.Machine.Expressions
import StepBinding.Proofs.Machine.Known

/-! No use of a name in scoped code ends in the error that the name is not defined. Each rule of the
evaluator is safe if the evaluator for what is nested is; so every evaluator is, by induction on
the bound, and with it the run of a whole program. -/

namespace StepBinding.Machine

open List StepBinding.Tree

variable {name x : String} {m : Machine} {env inner : Nat} {start known : Prop} {v this : Value}
  {vs args : List Value} {ss : List Stmt} {q : Qualifier} {s body : Stmt} {params : List String}
  {test update : Option Expr} {e : Expr}

/-- Evaluating scoped code where what it relies on can be seen is safe. -/
structure Careful (name : String) (r : Evaluator) : Prop where
  expr : ∀ {m e env known}, ScopedExpr name known e → Sees name m env known →
    Safe name m (r.expr e env) (Fine name)
  stmt : ∀ {m s env start known}, ScopedStmt name start known s → Sees name m env known →
    Safe name m (r.stmt s env) fun m' _ => Sees name m' env (Lets name s)
  call : ∀ {m f this args}, Fine name m f → Fine name m this → Fine name m args →
    Safe name m (r.call f this args) (Fine name)
  forLoop : ∀ {m test update body env inner known} names, ScopedOption name known test →
    ScopedOption name known update → ScopedStmt name known known body → Sees name m env known →
    Sees name m inner known → Safe name m (r.forLoop test update body names env inner) Any
  forOf : ∀ {m q x body env items known} i, (q = .var → x = name → known) →
    ScopedStmt name known known body → Sees name m env known → Fine name m items →
    Safe name m (r.forOf q x body env items i) Any

section Hoisting

theorem safe_hoistFunctions (h : ScopedStmts name start known ss) (hs : Sees name m env start) :
    Safe name m (hoistFunctions env ss) Any := by
  induction ss generalizing m known with
  | nil => exact .pure fun _ _ => trivial
  | cons s ss ih =>
    cases s with
    | function span x params body =>
      have hf : Fine name m (Callable.closure { name := x, params, body := .statements body, env }) :=
        ⟨start, hs, h.1⟩
      refine Safe.bind (.library (judge_newFunction hf)) fun m1 f hle hf => ?_
      refine (safe_define (hle.lt_size hs.1) hf).bind fun m2 _ hle2 _ => ?_
      exact ih h.2 ((hs.mono hle).mono hle2)
    | _ => exact ih h.2 hs

theorem safe_hoistNames (names : List String) (henv : env < m.envs.size) :
    Safe name m (hoistNames env names) fun m' _ => Sees name m' env (name ∈ names) := by
  induction names generalizing m with
  | nil => exact .pure fun m' hle => ⟨hle.lt_size henv, nofun⟩
  | cons x names ih =>
    refine .get_bind fun m1 hle hm1 => ?_
    have rest (m' : Machine) (h : Sees name m' env (x = name)) :
        Safe name m' (hoistNames env names) fun m' _ => Sees name m' env (name ∈ x :: names) := by
      refine (ih h.1).imp fun m2 _ hle2 hs => ((h.mono hle2).or hs).imp fun hmem => ?_
      exact (mem_cons.mp hmem).imp Eq.symm id
    by_cases hx : ((m1.valuesOf env).get? x).isNone
    · rw [if_pos hx]
      exact (safe_define (hle.lt_size henv) fine_undefined).bind fun m2 _ _ hs => rest m2 hs
    · rw [if_neg hx]
      refine rest m1 ⟨hle.lt_size henv, ?_⟩
      rintro rfl
      -- a name that the environment has itself is seen from it
      rw [home?, Array.getElem?_eq_getElem (hle.lt_size henv)]
      rw [valuesOf, Array.getElem?_eq_getElem (hle.lt_size henv)] at hx
      simp only [Option.map_some, Option.getD_some, Option.isNone_iff_eq_none,
        ← Option.isSome_iff_ne_none] at hx
      simp only [hx, if_true, Option.isSome_some]

theorem safe_hoist (h : ScopedBody name known ss) (hs : Sees name m env known) :
    Safe name m (hoist .refuse env ss) fun m' _ =>
      Sees name m' env (known ∨ name ∈ varNamesOf ss) := by
  refine (safe_hoistNames (varNamesOf ss) hs.1).bind fun m1 _ hle hnames => ?_
  have hs1 := (hs.mono hle).or hnames
  exact (safe_hoistFunctions h hs1).imp fun m2 _ hle2 _ => hs1.mono hle2

end Hoisting

section Loops

variable {body : Run Unit} {Q : Machine → Unit → Prop}

theorem safe_pass (h : Safe name m body Q) : Safe name m (pass body) Any := by
  intro m1 hle hm1
  have hends := h m1 hle hm1
  unfold pass
  split <;> rename_i heq <;> rw [heq] at hends
  iterate 3 exact ⟨hends.1, hends.2.1, trivial⟩
  exact hends

theorem safe_returned (h : Safe name m body Q) : Safe name m (returned body) (Fine name) := by
  intro m1 hle hm1
  have hends := h m1 hle hm1
  unfold returned
  split <;> rename_i heq <;> rw [heq] at hends
  · exact ⟨hends.1, hends.2.1, trivial⟩
  iterate 2 exact hends

end Loops

section Operands

theorem scopedProperties_iff {ps : List Property} : ScopedProperties name known ps ↔
    ∀ e ∈ ps.map fun | .mk _ _ e _ => e, ScopedExpr name known e := by
  induction ps with
  | nil => simp [ScopedProperties]
  | cons p ps ih =>
    obtain ⟨span, key, e, shorthand⟩ := p
    exact (and_congr_right' ih).trans forall_mem_cons.symm

theorem scoped_operand (h : ScopedExpr name known e) :
    ∀ e' ∈ operands e, ScopedExpr name known e' := by
  cases e with
  | template | array | sequence => exact scopedExprs_iff.mp h
  | object => exact scopedProperties_iff.mp h
  | call | new => exact forall_mem_cons.mpr ⟨h.1, scopedExprs_iff.mp h.2⟩
  | this | paren | member | unary | update => exact forall_mem_singleton.mpr h
  | index | binary | assign | conditional => simpa [operands, ScopedExpr] using h
  | _ => exact nofun

/-- Scoped expressions where what they rely on can be seen. -/
def Careful.code {r : Evaluator} (hr : Careful name r) : (safety name).Code r r where
  Fits m env e := ∃ known, ScopedExpr name known e ∧ Sees name m env known
  mono := fun hle ⟨known, h, hs⟩ => ⟨known, h, hs.mono hle⟩
  operand := fun ⟨known, h, hs⟩ e' he' => ⟨known, scoped_operand h e' he', hs⟩
  rejected := fun _ h => h
  read := fun ⟨_, h, hs⟩ => safe_readName fun hx => hs.2 (h hx)
  store := fun ⟨_, h, hs⟩ hv =>
    (safe_assignName (fun hx => hs.2 (h hx)) hv).imp fun _ _ _ _ => trivial
  expr := fun ⟨_, h, hs⟩ => hr.expr h hs
  call _ _ _ _ _ _ := hr.call

end Operands

section Rules

variable {r : Evaluator} (hr : Careful name r)

include hr

omit hr in
theorem safe_declareName (hvar : q = .var → x = name → known) (hs : Sees name m env known)
    (hv : Fine name m v) :
    Safe name m (declareName q env x v) fun m' _ => Sees name m' env (q ≠ .var ∧ x = name) := by
  cases q with
  | var =>
    refine (safe_assignName (fun hx => hs.2 (hvar rfl hx)) hv).imp fun m' _ hle _ => ?_
    exact ⟨hle.lt_size hs.1, fun h => absurd rfl h.1⟩
  | _ => exact (safe_define hs.1 hv).imp fun m' _ _ h => h.imp And.right

theorem safe_declareAll {ds : List Declarator}
    (hvar : q = .var → name ∈ ds.map Declarator.name → known) (h : ScopedDeclarators name known ds)
    (hs : Sees name m env known) : Safe name m (declareAll r q env ds) fun m' _ =>
      Sees name m' env (q ≠ .var ∧ name ∈ ds.map Declarator.name) := by
  induction ds generalizing m with
  | nil => exact .pure fun m' hle => ⟨hle.lt_size hs.1, fun h => absurd h.2 not_mem_nil⟩
  | cons d ds ih =>
    obtain ⟨span, x, init⟩ := d
    have rest (m' : Machine) (hle : m.Leads m') (hrest : ScopedDeclarators name known ds)
        (hx : Sees name m' env (q ≠ .var ∧ x = name)) :
        Safe name m' (declareAll r q env ds) fun m' _ =>
          Sees name m' env (q ≠ .var ∧ name ∈ x :: ds.map Declarator.name) := by
      refine (ih (fun hq hmem => hvar hq (mem_cons_of_mem _ hmem)) hrest (hs.mono hle)).imp
        fun m2 _ hle2 hds => ((hx.mono hle2).or hds).imp fun hmem => ?_
      exact (mem_cons.mp hmem.2).imp (fun heq => ⟨hmem.1, heq.symm⟩) fun hmem' => ⟨hmem.1, hmem'⟩
    cases init with
    | none =>
      refine .ite (fun hq => ?_) fun hq => ?_
      · exact (safe_define hs.1 fine_undefined).bind fun m1 _ hle hx => rest m1 hle h (hx.imp And.right)
      · exact rest m (.refl m) h ⟨hs.1, fun hx => absurd hx.1 hq⟩
    | some e =>
      refine (hr.expr h.1 hs).bind fun m1 v hle hv => ?_
      have hvar' : q = .var → x = name → known :=
        fun hq hx => hvar hq (mem_cons.mpr (.inl hx.symm))
      exact (safe_declareName hvar' (hs.mono hle) hv).bind fun m2 _ hle2 hx =>
        rest m2 (hle.trans hle2) h.2 hx

theorem safe_runStmts (h : ScopedStmts name start known ss) (hs : Sees name m env known) :
    Safe name m (runStmts r env ss) Any := by
  induction ss generalizing m known with
  | nil => exact .pure fun _ _ => trivial
  | cons s ss ih =>
    exact (hr.stmt h.1 hs).bind fun m1 _ hle hlets => ih h.2 ((hs.mono hle).or hlets)

theorem safe_runBody (h : ScopedStmt name known known s) (hs : Sees name m env known) :
    Safe name m (runBody r env s) Any := by
  cases s with
  | steps => exact (safe_newEnv hs).bind fun m1 inner _ hs1 =>
      (hr.stmt h hs1).imp fun _ _ _ _ => trivial
  | _ => exact (hr.stmt h hs).imp fun _ _ _ _ => trivial

omit hr in
theorem safe_defineParams {i : Nat} (params : List String) (henv : env < m.envs.size)
    (hargs : Fine name m args) : Safe name m (defineParams env args i params) Any := by
  induction params generalizing m i with
  | nil => exact .pure fun _ _ => trivial
  | cons p ps ih =>
    refine (safe_define henv (every_arg hargs i)).bind fun m1 _ hle _ => ?_
    exact ih (hle.lt_size henv) (hargs.mono hle)

theorem safe_code {body : Body} (hcode : ScopedCode name known body) (hs : Sees name m env known)
    (hargs : Fine name m args) :
    Safe name m (do
      defineParams env args 0 params
      match body with
      | .expression e => r.expr e env
      | .statements ss =>
        hoist .refuse env ss
        returned (runStmts r env ss)) (Fine name) := by
  refine (safe_defineParams params hs.1 hargs).bind fun m1 _ hle _ => ?_
  cases body with
  | expression e => exact hr.expr hcode (hs.mono hle)
  | statements ss =>
    refine (safe_hoist hcode (hs.mono hle)).bind fun m2 _ _ hs2 => ?_
    exact safe_returned (safe_runStmts hr hcode hs2)

theorem safe_callClosure {c : Closure} (hc : Knowing name m c) (hthis : Fine name m this)
    (hargs : Fine name m args) : Safe name m (callClosure .refuse r c this args) (Fine name) := by
  obtain ⟨known, hs, hcode⟩ := hc
  refine (safe_newEnv hs).bind fun m1 env hle hs1 => ?_
  refine .ite (fun _ => ?_) fun _ => safe_code hr hcode hs1 (hargs.mono hle)
  exact (safe_define hs1.1 (hthis.mono hle)).bind fun m2 _ hle2 _ =>
    safe_code hr hcode (hs1.mono hle2) ((hargs.mono hle).mono hle2)

theorem safe_callStep {f : Callable} (hf : Fine name m f) (hthis : Fine name m this)
    (hargs : Fine name m args) : Safe name m (callStep .refuse r f this args) (Fine name) := by
  have hclosure : ∀ c, f = .closure c →
      Safe name m (callClosure .refuse r c this args) (Fine name) := by
    rintro c rfl
    exact safe_callClosure hr hf hthis hargs
  exact .library (hr.code.judge_callStep .refuse .refuse hf hargs hclosure)

omit hr in
theorem safe_makeFunction {body : List Stmt} (h : ScopedBody name known body)
    (hs : Sees name m env known) : Safe name m (makeFunction env x params body) (Fine name) := by
  have make (m' : Machine) (env : Nat) (hs : Sees name m' env known) :
      Safe name m' (newFunction (.closure { name := x, params, body := .statements body, env }))
        (Fine name) := by
    have hf : Fine name m' (Callable.closure { name := x, params, body := .statements body, env }) :=
      ⟨known, hs, h⟩
    exact .library (judge_newFunction hf)
  refine .ite (fun _ => make m env hs) fun _ => ?_
  refine (safe_newEnv hs).bind fun m1 own hle hs1 => (make m1 own hs1).bind fun m2 f hle2 hf => ?_
  refine (safe_define (hle2.lt_size hs1.1) hf).bind fun m3 _ hle3 _ => ?_
  exact .pure_fine (hf.mono hle3)

omit hr in
/-- A function that is made where its code is scoped. -/
theorem safe_arrow (body : Body) (h : ScopedCode name known body) (hs : Sees name m env known) :
    Safe name m (newFunction (.closure { name := "", params, body, env, isArrow := true }))
      (Fine name) := by
  have hf : Fine name m (Callable.closure { name := "", params, body, env, isArrow := true }) :=
    ⟨known, hs, h⟩
  exact .library (judge_newFunction hf)

theorem safe_exprStep (h : ScopedExpr name known e) (hs : Sees name m env known) :
    Safe name m (exprStep .refuse r e env) (Fine name) := by
  refine .library (hr.code.judge_exprStep .refuse .refuse ⟨known, h, hs⟩ fun hapart => ?_)
  cases e with
  | function => exact safe_makeFunction h hs
  | arrow span params body => exact safe_arrow (.expression body) h hs
  | arrowBlock span params blockSpan body => exact safe_arrow (.statements body) h hs
  | steps | rejected => exact Safe.fail nofun
  | _ => cases hapart

theorem safe_startLoop {init : Option Stmt} (h : ScopedStart name known init)
    (hs : Sees name m env known) : Safe name m (startLoop r env init) Any := by
  cases init with
  | none => exact .pure fun _ _ => trivial
  | some s =>
    cases s with
    | declare span q ds =>
      exact (safe_declareAll hr h.1 h.2 hs).bind_any fun _ => .pure fun _ _ => trivial
    | expr span e => exact (hr.expr (e := e) h hs).bind_any fun _ => .pure fun _ _ => trivial
    | _ => exact (hr.stmt h hs).bind_any fun _ => .pure fun _ _ => trivial

omit hr in
theorem safe_copyNames {source target : Nat} (names : List String) (htarget : target < m.envs.size) :
    Safe name m (copyNames source target names) Any := by
  induction names generalizing m with
  | nil => exact .pure fun _ _ => trivial
  | cons x names ih =>
    refine .get_bind fun m1 hle hm1 => ?_
    have hv : Fine name m1 (((m1.valuesOf source).get? x).getD .undefined) :=
      every_getD (every_get? (every_valuesOf hm1 source) x) trivial
    exact (safe_define (hle.lt_size htarget) hv).bind fun m2 _ hle2 _ =>
      ih (hle2.lt_size (hle.lt_size htarget))

omit hr in
theorem safe_nextPass (names : List String) (hs : Sees name m env known)
    (hinner : Sees name m inner known) :
    Safe name m (nextPass names env inner) fun m' next => Sees name m' next known := by
  refine .ite (fun _ => .pure fun _ hle => hinner.mono hle) fun _ => ?_
  refine (safe_newEnv hs).bind fun m1 next _ hnext => ?_
  refine (safe_copyNames names hnext.1).bind fun m2 _ hle2 _ => ?_
  exact .pure fun _ hle => (hnext.mono hle2).mono hle

theorem safe_rounds (names : List String) (ht : ScopedOption name known test)
    (hu : ScopedOption name known update) (hb : ScopedStmt name known known body)
    (hs : Sees name m env known) (hinner : Sees name m inner known) (b : Bool) :
    Safe name m (do
      if b then
        if ← pass (runBody r inner body) then
          let next ← nextPass names env inner
          match update with
          | none => r.forLoop test update body names env next
          | some e =>
            let _ ← r.expr e next
            r.forLoop test update body names env next) Any := by
  have again (m' : Machine) (hle : m.Leads m') (next : Nat) (hnext : Sees name m' next known) :
      Safe name m' (r.forLoop test update body names env next) Any :=
    hr.forLoop names ht hu hb (hs.mono hle) hnext
  refine .ite (fun _ => ?_) fun _ => .pure fun _ _ => trivial
  refine (safe_pass (safe_runBody hr hb hinner)).bind fun m1 goesOn hle _ => ?_
  refine .ite (fun _ => ?_) fun _ => .pure fun _ _ => trivial
  refine (safe_nextPass names (hs.mono hle) (hinner.mono hle)).bind fun m2 next hle2 hnext => ?_
  have hle' := hle.trans hle2
  cases update with
  | none => exact again m2 hle' next hnext
  | some e =>
    exact (hr.expr (e := e) hu hnext).bind fun m3 _ hle3 _ =>
      again m3 (hle'.trans hle3) next (hnext.mono hle3)

theorem safe_forLoopStep (names : List String) (ht : ScopedOption name known test)
    (hu : ScopedOption name known update) (hb : ScopedStmt name known known body)
    (hs : Sees name m env known) (hinner : Sees name m inner known) :
    Safe name m (forLoopStep r test update body names env inner) Any := by
  have rounds := safe_rounds hr names ht hu hb hs hinner
  cases test with
  | none => exact rounds true
  | some e =>
    exact (hr.expr (e := e) ht hinner).bind_any fun v =>
      Safe.bind_any (.library (judge_holds v)) rounds

theorem safe_forOfStep {items : Items} (i : Nat) (hvar : q = .var → x = name → known)
    (hb : ScopedStmt name known known body) (hs : Sees name m env known)
    (hitems : Fine name m items) : Safe name m (forOfStep r q x body env items i) Any := by
  refine Safe.bind (.library (judge_itemAt hitems i)) fun m1 item hle hitem => ?_
  cases item with
  | none => exact .pure fun _ _ => trivial
  | some v =>
    have hv : Fine name m1 v := hitem v rfl
    have rest (m' : Machine) (inner : Nat) (hle' : m1.Leads m') (hinner : Sees name m' inner known) :
        Safe name m' (do
          if ← pass (runBody r inner body) then r.forOf q x body env items (i + 1)) Any := by
      refine (safe_pass (safe_runBody hr hb hinner)).bind fun m2 goesOn hle2 _ => ?_
      refine .ite (fun _ => ?_) fun _ => .pure fun _ _ => trivial
      have hall := (hle.trans hle').trans hle2
      exact hr.forOf (i + 1) hvar hb (hs.mono hall) (hitems.mono hall)
    have fresh : Safe name m1 (do
        let inner ← newEnv env
        define inner x v
        if ← pass (runBody r inner body) then r.forOf q x body env items (i + 1)) Any := by
      refine (safe_newEnv (hs.mono hle)).bind fun m2 inner hle2 hinner => ?_
      refine (safe_define hinner.1 (hv.mono hle2)).bind fun m3 _ hle3 _ => ?_
      exact rest m3 inner (hle2.trans hle3) (hinner.mono hle3)
    cases q with
    | var =>
      refine (safe_assignName (fun hx => (hs.mono hle).2 (hvar rfl hx)) hv).bind fun m2 _ hle2 _ => ?_
      exact rest m2 env hle2 ((hs.mono hle).mono hle2)
    | _ => exact fresh

theorem safe_stmtStep (h : ScopedStmt name start known s) (hs : Sees name m env known) :
    Safe name m (stmtStep .refuse r s env) fun m' _ => Sees name m' env (Lets name s) := by
  -- only declarations make names known to the statements after them
  have quiet {x : Run Unit} (hx : Safe name m x Any) :
      Safe name m x fun m' _ => Sees name m' env False :=
    hx.imp fun m' _ hle _ => ⟨hle.lt_size hs.1, nofun⟩
  cases s with
  | declare span q ds => exact safe_declareAll hr h.1 h.2 hs
  | expr span e => exact quiet ((hr.expr (e := e) h hs).bind_any fun _ => .pure fun _ _ => trivial)
  | function | empty => exact quiet (.pure fun _ _ => trivial)
  | ret span value =>
    cases value with
    | none => exact quiet (.throw fun _ _ => trivial)
    | some e =>
      exact quiet ((hr.expr (e := e) h hs).bind fun _ v _ hv => .throw fun _ hle => hv.mono hle)
  | ifElse span t c a =>
    cases a with
    | none =>
      refine quiet ((hr.expr h.1 hs).bind_any fun v => ?_)
      refine Safe.bind_any (.library (judge_holds v)) fun b => ?_
      exact .ite (fun _ => safe_runBody hr h.2 hs) fun _ => .pure fun _ _ => trivial
    | some a =>
      refine quiet ((hr.expr h.1 hs).bind_any fun v => ?_)
      refine Safe.bind_any (.library (judge_holds v)) fun b => ?_
      exact .ite (fun _ => safe_runBody hr h.2.1 hs) fun _ => safe_runBody hr h.2.2 hs
  | whileLoop span t b =>
    refine quiet ((hr.expr h.1 hs).bind_any fun v => ?_)
    refine Safe.bind_any (.library (judge_holds v)) fun goesIn => ?_
    refine .ite (fun _ => ?_) fun _ => .pure fun _ _ => trivial
    refine (safe_pass (safe_runBody hr h.2 hs)).bind_any fun goesOn => ?_
    refine .ite (fun _ => ?_) fun _ => .pure fun _ _ => trivial
    have hagain : ScopedStmt name start known (.whileLoop span t b) := h
    exact (hr.stmt hagain hs).imp fun _ _ _ _ => trivial
  | forLoop span init test update body =>
    refine quiet ((safe_newEnv hs).bind fun m1 inner hle hinner => ?_)
    refine (safe_startLoop hr h.1 hinner).bind fun m2 names hle2 _ => ?_
    exact hr.forLoop names h.2.1 h.2.2.1 h.2.2.2 ((hs.mono hle).mono hle2) (hinner.mono hle2)
  | forOf span q x e b =>
    refine quiet ((hr.expr h.2.1 hs).bind fun m1 v hle hv => ?_)
    refine Safe.bind (.library (judge_itemsOf hv)) fun m2 items hle2 hitems => ?_
    exact hr.forOf 0 h.1 h.2.2 ((hs.mono hle).mono hle2) hitems
  | block span ss =>
    refine quiet ((safe_newEnv hs).bind fun m1 inner _ hinner => ?_)
    refine (safe_hoistFunctions h hinner).bind fun m2 _ hle2 _ => ?_
    exact safe_runStmts hr h (hinner.mono hle2)
  | break_ | continue_ => exact quiet (.throw fun _ _ => trivial)
  | throw_ span e =>
    refine quiet ((hr.expr (e := e) h hs).bind_any fun v => ?_)
    refine Safe.bind_any (.library (judge_displayOf v)) fun shown => ?_
    exact .throw fun _ _ => trivial
  | steps | rejected | «foreign» => exact .fail nofun

theorem safe_runTop (h : ScopedStmts name start known ss) (hs : Sees name m env known)
    (hv : Fine name m v) : Safe name m (runTop r env v ss) (Fine name) := by
  induction ss generalizing m known v with
  | nil => exact .pure_fine hv
  | cons s ss ih =>
    cases s with
    | expr span e =>
      refine (hr.expr (e := e) h.1 hs).bind fun m1 w hle hw => ih h.2 ?_ hw
      exact (hs.mono hle).imp fun hk => hk.elim id False.elim
    | _ =>
      exact (hr.stmt h.1 hs).bind fun m1 _ hle hlets => ih h.2 ((hs.mono hle).or hlets) (hv.mono hle)

end Rules

/-- Every evaluator is careful. -/
theorem careful_evaluator (name : String) (bound : Nat) : Careful name (evaluator .refuse bound) := by
  induction bound with
  | zero =>
    have exhausted {α : Type} {m : Machine} {Q : Machine → α → Prop} :
        Safe name m (throw .exhausted : Run α) Q := .throw fun _ _ => trivial
    exact ⟨fun _ _ => exhausted, fun _ _ => exhausted, fun _ _ _ => exhausted,
      fun _ _ _ _ _ _ => exhausted, fun _ _ _ _ _ => exhausted⟩
  | succ bound hr =>
    exact ⟨fun h hs => safe_exprStep hr h hs, fun h hs => safe_stmtStep hr h hs,
      fun hf hthis hargs => safe_callStep hr hf hthis hargs,
      fun names ht hu hb hs hinner => safe_forLoopStep hr names ht hu hb hs hinner,
      fun i hvar hb hs hitems => safe_forOfStep hr i hvar hb hs hitems⟩

/-- A program that uses a name only where it is known never ends in the error that the name is not
defined. -/
theorem run_ne_notDefined {name : String} {program : Module} (h : ScopedBody name False program.body)
    (bound : Nat) (m : Machine) :
    run .refuse bound program Machine.start ≠ .error (.error (.notDefined name)) m := by
  have hs : Sees name Machine.start globalEnv False := ⟨Nat.zero_lt_one, nofun⟩
  have hsafe : Safe name Machine.start (run .refuse bound program) (Fine name) :=
    (safe_hoist h hs).bind fun m1 _ _ hs1 =>
      safe_runTop (careful_evaluator name bound) h hs1 fine_undefined
  have hends := hsafe _ (.refl _) every_start
  intro hrun
  rw [hrun] at hends
  exact hends.2.2 rfl

end StepBinding.Machine
