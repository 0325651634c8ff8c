import StepBinding.Proofs.Lower.Shape
import StepBinding.Proofs.Machine.Expressions
import StepBinding.Proofs.Machine.Frame

/-! Lowering keeps the meaning of programs. The evaluator that runs step bindings directly and
the evaluator of plain programs, given lowered code, do the same on a machine and on its lowered
image. A lowered step binding nests its steps at most six computations deeper, so a direct run
within a bound is matched within six times that bound; a lowered run is matched within the same
bound. The argument is by induction on the bound; what a step binding does is compared once. -/

namespace StepBinding

variable {name binding : String} {args : List Value} {α : Type} {names : List String}
  {body s : Stmt} {e : Expr} {i outer inner : Nat} {es : List Expr} {span : Span} {q : Qualifier}
  {fresh : Option String} {init : Option Stmt} {test update : Option Expr} {ss : List Stmt}

namespace Machine

open StepBinding.Tree (AllExpr AllExprs AllProperties AllDeclarators
  AllOption AllStart AllStmt AllStmts)

section Hoisting

/-- What a step binding with `var` declares when it is run directly. -/
abbrev directNames (_ result : String) (fresh : Option String) : List String :=
  [Tree.freshName fresh, result]

mutual

/-- The names that lowered code declares for a function are those of the direct run. -/
theorem varNames_lower : ∀ s, AllStmt Node.Ready s →
    Tree.varNamesOf (Lower.stmt .es2015 s) = Tree.varNamesBy directNames s
  | .declare _ q ds, _ => by
    refine (Lower.varNamesOf_singleton _).trans ?_
    cases q with
    | var => exact Lower.names_declarators .es2015 ds
    | _ => rfl
  | .steps _ q binding result es _ fresh, _ => by cases q <;> rfl
  | .block _ body, h => (Lower.varNamesOf_singleton _).trans (varNamesOf_lower body h.2)
  | .ifElse _ _ c none, h => by
    refine (Lower.varNamesOf_singleton _).trans ((Lower.varNames_slot _ _).trans ?_)
    exact varNames_lower c h.2.2
  | .ifElse _ _ c (some a), h => by
    have hc := (Lower.varNames_slot c.span _).trans (varNames_lower c h.2.2.1)
    have ha := (Lower.varNames_slot a.span _).trans (varNames_lower a h.2.2.2)
    refine (Lower.varNamesOf_singleton _).trans ?_
    change Tree.varNames _ ++ Tree.varNames _ = _
    rw [hc, ha]
    rfl
  | .whileLoop _ _ b, h => by
    refine (Lower.varNamesOf_singleton _).trans ((Lower.varNames_slot _ _).trans ?_)
    exact varNames_lower b h.2.2
  | .forLoop _ init _ _ b, h => by
    have hb := (Lower.varNames_slot b.span _).trans (varNames_lower b h.2.2.2.2)
    rw [Lower.stmt_forLoop, Lower.varNamesOf_singleton]
    rcases init with _ | s
    · exact hb
    · cases s with
      | declare _ q ds =>
        cases q with
        | var =>
          change (Lower.declarators .es2015 ds).map Declarator.name ++ Tree.varNames _ = _
          rw [Lower.names_declarators, hb]
          rfl
        | _ => exact hb
      | expr _ e => exact hb
      | _ => exact h.1.elim
  | .forOf _ q name _ b, h => by
    have hb := (Lower.varNames_slot b.span _).trans (varNames_lower b h.2.2)
    refine (Lower.varNamesOf_singleton _).trans ?_
    cases q with
    | var => exact congrArg (name :: ·) hb
    | _ => exact hb
  | .function .., _ | .ret _ none, _ | .ret _ (some _), _ | .break_ _, _ | .continue_ _, _
  | .throw_ .., _ | .empty _, _ | .foreign _, _ => rfl
  | .expr _ e, h => by
    cases e with
    | rejected => exact h.2.elim
    | _ => rfl
  | .rejected .., h => h.elim

theorem varNamesOf_lower : ∀ ss, AllStmts Node.Ready ss →
    Tree.varNamesOf (Lower.stmts .es2015 ss) = hoisted .direct ss
  | [], _ => rfl
  | s :: ss, h => by
    refine (Lower.varNamesOf_append _ _).trans ?_
    rw [varNames_lower s h.1, varNamesOf_lower ss h.2]
    rfl

end

end Hoisting

section Steps

variable {x y : Run Unit}

/-- The body of a branch or a loop in lowered code. -/
abbrev lowerBody (s : Stmt) : Stmt := Lower.slot s.span (Lower.stmt .es2015 s)

/-- One evaluator on code and another on lowered code. -/
structure EvalSim (d : Direction) (r r' : Evaluator) : Prop where
  expr : ∀ {e env b}, AllExpr Node.Ready e → env < b →
    Sim d b (r.expr e env) (r'.expr (Lower.expr .es2015 e) env)
  stmt : ∀ {s env b}, AllStmt Node.Ready s → env < b →
    Sim d b (r.stmt s env) (runStmts r' env (Lower.stmt .es2015 s))
  call : ∀ {f this args b}, Fit f → Fit this → Fit args →
    Sim d b (r.call f this args) (r'.call (lower f) (lower this) (lower args))
  forLoop : ∀ {test update body names outer inner b}, AllOption Node.Ready test →
    AllOption Node.Ready update → AllStmt Node.Ready body → outer < b → inner < b →
    Sim d b (r.forLoop test update body names outer inner)
      (r'.forLoop (test.map (Lower.expr .es2015)) (update.map (Lower.expr .es2015))
        (lowerBody body) names outer inner)
  forOf : ∀ {q name body env items i b}, AllStmt Node.Ready body → env < b → Fit items →
    Sim d b (r.forOf q name body env items i)
      (r'.forOf q name (lowerBody body) env (lower items) i)

variable {d : Direction} {b env : Nat} {r r' : Evaluator} {v w : Value}

section Plain

theorem sim_hoistNames (names : List String) :
    Sim d b (hoistNames env names) (hoistNames env names) := by
  induction names with
  | nil => exact .plain _
  | cons name names ih =>
    refine Sim.bind .get fun m hm => ?_
    rw [valuesOf_lower, get?_lower, show (lower ((m.valuesOf env).get? name)).isNone = _ from
      Option.isNone_map]
    refine .ite ?_ ih
    exact .bind_plain (sim_define (v := .undefined) trivial) fun _ => ih

theorem sim_hoistFunctions : ∀ ss : List Stmt, AllStmts Node.Ready ss →
    Sim d b (hoistFunctions env ss) (hoistFunctions env (Lower.stmts .es2015 ss))
  | [], _ => .plain _
  | .function _ name params body :: ss, h => by
    let f : Callable := .closure ⟨name, params, .statements body, env, false⟩
    exact Sim.bind (judge_newFunction (f := f) h.1.2) fun f hf =>
      .bind_plain (sim_define hf) fun _ => sim_hoistFunctions ss h.2
  | .declare .. :: ss, h | .steps .. :: ss, h | .ret _ none :: ss, h | .ret _ (some _) :: ss, h
  | .ifElse _ _ _ none :: ss, h | .ifElse _ _ _ (some _) :: ss, h | .whileLoop .. :: ss, h
  | .forOf .. :: ss, h | .break_ _ :: ss, h | .continue_ _ :: ss, h | .throw_ .. :: ss, h
  | .block .. :: ss, h | .empty _ :: ss, h | .foreign _ :: ss, h => sim_hoistFunctions ss h.2
  | .forLoop span init test update body :: ss, h => by
    change Sim d b _ (hoistFunctions env (Lower.stmt .es2015 (.forLoop ..) ++ _))
    rw [Lower.stmt_forLoop]
    exact sim_hoistFunctions ss h.2
  | .expr span e :: ss, h => by
    cases e with
    | rejected => exact h.1.2.elim
    | _ => exact sim_hoistFunctions ss h.2
  | .rejected .. :: ss, h => h.1.elim

theorem sim_hoist (h : AllStmts Node.Ready ss) :
    Sim d b (hoist .direct env ss) (hoist .refuse env (Lower.stmts .es2015 ss)) := by
  unfold hoist
  rw [show hoisted .refuse _ = _ from varNamesOf_lower ss h]
  exact .bind_plain (sim_hoistNames _) fun _ => sim_hoistFunctions ss h

theorem sim_declareName (q : Qualifier) (hv : Fit v) :
    Sim d b (declareName q env name v) (declareName q env name (lower v)) := by
  cases q with
  | var => exact sim_assignName hv
  | _ => exact sim_define hv

theorem sim_defineParams (hargs : Fit args) (params : List String) (i : Nat) :
    Sim d b (defineParams env args i params) (defineParams env (lower args) i params) := by
  induction params generalizing i with
  | nil => exact .plain _
  | cons p params ih =>
    unfold defineParams
    rw [arg_lower]
    exact .bind_plain (sim_define (every_arg hargs i)) fun _ => ih (i + 1)

theorem sim_copyNames (source target : Nat) (names : List String) :
    Sim d b (copyNames source target names) (copyNames source target names) := by
  induction names with
  | nil => exact .plain _
  | cons name names ih =>
    refine Sim.bind .get fun m hm => ?_
    rw [valuesOf_lower, get?_lower]
    have h := every_get? (every_valuesOf hm source) name
    cases hv : (m.valuesOf source).get? name with
    | none => exact .bind_plain (sim_define (v := .undefined) trivial) fun _ => ih
    | some v => exact .bind_plain (sim_define (h v hv)) fun _ => ih

/-- Handling the end of a computation, the same way for lowered values. -/
theorem sim_handled [Carrier α] [Holder α]
    {f : EStateM.Result Exit Machine Unit → EStateM.Result Exit Machine α} (h : Sim d b x y)
    (hf : ∀ r, f (lower r) = lower (f r) ∧ (Fit r → Fit (f r)) ∧ finalState (f r) = finalState r)
    (hcut : ∀ m, f (.error .exhausted m) = .error .exhausted m) :
    Sim d b (fun m => f (x m)) fun m => f (y m) := by
  intro m hm hs
  have cut {r : EStateM.Result Exit Machine Unit} : Exhausted r → Exhausted (f r) := by
    rintro ⟨m, rfl⟩
    exact ⟨m, hcut m⟩
  rcases h m hm hs with hc | ⟨heq, hr, hsize⟩
  · left
    cases d with
    | forth => exact cut hc
    | back => exact cut hc
  · obtain ⟨hlower, hready, hstate⟩ := hf (x m)
    exact .inr ⟨(congrArg f heq).trans hlower, hready hr, hstate.symm ▸ hsize⟩

/-- The result of a pass from the result of its body. -/
def passResult : EStateM.Result Exit Machine Unit → EStateM.Result Exit Machine Bool
  | .ok () m | .error .continued m => .ok true m
  | .error .broke m => .ok false m
  | .error e m => .error e m

/-- The result of a call from the result of its body. -/
def returnResult : EStateM.Result Exit Machine Unit → EStateM.Result Exit Machine Value
  | .ok () m => .ok .undefined m
  | .error (.returned v) m => .ok v m
  | .error e m => .error e m

theorem sim_pass (h : Sim d b x y) : Sim d b (pass x) (pass y) := by
  have heq (x : Run Unit) : pass x = fun m => passResult (x m) := by
    funext m
    unfold pass passResult
    cases x m with
    | ok => rfl
    | error e _ => cases e <;> rfl
  rw [heq, heq]
  refine sim_handled h ?_ fun m => rfl
  rintro (_ | ⟨⟨⟩, _⟩) <;> exact ⟨rfl, id, rfl⟩

theorem sim_returned (h : Sim d b x y) : Sim d b (returned x) (returned y) := by
  have heq (x : Run Unit) : returned x = fun m => returnResult (x m) := by
    funext m
    unfold returned returnResult
    cases x m with
    | ok => rfl
    | error e _ => cases e <;> rfl
  rw [heq, heq]
  refine sim_handled h ?_ fun m => rfl
  rintro (_ | ⟨⟨⟩, _⟩) <;> exact ⟨rfl, id, rfl⟩

theorem sim_makeFunction {params : List String} {body : List Stmt} (h : AllStmts Node.Ready body) :
    Sim d b (makeFunction env name params body)
      (makeFunction env name params (Lower.stmts .es2015 body)) := by
  refine .ite ?_ (Sim.newEnv_bind fun own b' _ _ => ?_)
  · exact judge_newFunction (f := .closure ⟨name, params, .statements body, env, false⟩) h
  · let f : Callable := .closure ⟨name, params, .statements body, own, false⟩
    exact Sim.bind (judge_newFunction (f := f) h) fun f hf =>
      .bind_plain (sim_define hf) fun _ => .pure hf

end Plain

section Nested

theorem allProperties_ready {ps : List Property} (h : AllProperties Node.Ready ps) :
    ∀ e ∈ ps.map fun | .mk _ _ e _ => e, AllExpr Node.Ready e := by
  induction ps with
  | nil => exact nofun
  | cons p ps ih =>
    obtain ⟨span, key, e, shorthand⟩ := p
    exact List.forall_mem_cons.mpr ⟨h.2.1, ih h.2.2⟩

theorem ready_operand (h : AllExpr Node.Ready e) : ∀ e' ∈ operands e, AllExpr Node.Ready e' := by
  cases e with
  | this => exact List.forall_mem_singleton.mpr h
  | template | array | sequence => exact Tree.allExprs_iff.mp h.2
  | object => exact allProperties_ready h.2
  | call | new => exact List.forall_mem_cons.mpr ⟨h.2.1, Tree.allExprs_iff.mp h.2.2⟩
  | paren | member | unary | update => exact List.forall_mem_singleton.mpr h.2
  | index | binary | assign | conditional => simpa [operands] using h.2
  | _ => exact nofun

/-- Ready expressions in environments that exist. -/
def EvalSim.code (hr : EvalSim d r r') : (simulation d).Code r r' where
  Fits b env e := AllExpr Node.Ready e ∧ env < b
  mono hle h := ⟨h.1, Nat.lt_of_lt_of_le h.2 hle⟩
  operand h e' he' := ⟨ready_operand h.1 e' he', h.2⟩
  rejected h := h.1.elim
  read _ := sim_readName _
  store _ := sim_assignName
  expr h := hr.expr h.1 h.2
  call _ _ _ _ _ _ := hr.call

theorem sim_declareAll (hr : EvalSim d r r') (henv : env < b) (q : Qualifier) :
    ∀ {ds : List Declarator}, AllDeclarators Node.Ready ds →
    Sim d b (declareAll r q env ds) (declareAll r' q env (Lower.declarators .es2015 ds))
  | [], _ => .plain _
  | .mk _ _ (some _) :: _, h =>
    Sim.bind (hr.expr h.2.1 henv) fun _ hv => .bind_plain (sim_declareName q hv) fun _ =>
      sim_declareAll hr henv q h.2.2
  | .mk _ _ none :: _, h =>
    .ite (.bind_plain (sim_define (v := .undefined) trivial) fun _ => sim_declareAll hr henv q h.2)
      (sim_declareAll hr henv q h.2)

theorem runStmts_append (ss ts : List Stmt) :
    runStmts r env (ss ++ ts) = (do runStmts r env ss; runStmts r env ts) := by
  induction ss with
  | nil => exact (pure_bind () fun _ => runStmts r env ts).symm
  | cons s ss ih =>
    change (do r.stmt s env; runStmts r env (ss ++ ts)) = (do (do r.stmt s env; runStmts r env ss); _)
    rw [ih, bind_assoc]

theorem sim_runStmts (hr : EvalSim d r r') (henv : env < b) (h : AllStmts Node.Ready ss) :
    Sim d b (runStmts r env ss) (runStmts r' env (Lower.stmts .es2015 ss)) := by
  induction ss with
  | nil => exact .plain _
  | cons s ss ih =>
    change Sim d b _ (runStmts r' env (Lower.stmt .es2015 s ++ Lower.stmts .es2015 ss))
    rw [runStmts_append]
    exact .bind_plain (hr.stmt h.1 henv) fun _ => ih h.2

theorem sim_code (hr : EvalSim d r r') {a : Nat} (ha : a < b) {body : Body} (hbody : Ready body)
    (hargs : Fit args) (params : List String) :
    Sim d b
      (do
        defineParams a args 0 params
        match body with
        | .expression e => r.expr e a
        | .statements ss => do
          hoist .direct a ss
          returned (runStmts r a ss))
      (do
        defineParams a (lower args) 0 params
        match lower body with
        | .expression e => r'.expr e a
        | .statements ss => do
          hoist .refuse a ss
          returned (runStmts r' a ss)) := by
  refine .bind_plain (sim_defineParams hargs params 0) fun _ => ?_
  cases body with
  | expression e => exact hr.expr hbody ha
  | statements ss =>
    exact .bind_plain (sim_hoist hbody) fun _ => sim_returned (sim_runStmts hr ha hbody)

theorem sim_callClosure (hr : EvalSim d r r') {c : Closure} (hc : Ready c) {this : Value}
    (hthis : Fit this) (hargs : Fit args) :
    Sim d b (callClosure .direct r c this args)
      (callClosure .refuse r' (lower c) (lower this) (lower args)) := by
  obtain ⟨name, params, body, env, isArrow⟩ := c
  refine Sim.newEnv_bind fun a b' _ ha => ?_
  have rest := sim_code hr ha hc hargs params
  exact .ite (.bind_plain (sim_define hthis) fun _ => rest) rest

end Nested

end Steps

section Binding

/-- How the bound `n` of a direct run and the bound `j` of a lowered run compare, if the lowered
run is to nest `k` computations more before it comes to the same parts. -/
def Room (d : Direction) (n k j : Nat) : Prop :=
  match d with
  | .forth => 6 * n + k ≤ j
  | .back => j ≤ n

variable {d : Direction} {b env n k j : Nat} {v : Value}

theorem Room.step (h : Room d (n + 1) 0 (j + 1)) : Room d n 5 j := by
  cases d <;> simp only [Room] at * <;> omega

theorem Room.pred (h : Room d n (k + 1) (j + 1)) : Room d n k j := by
  cases d <;> simp only [Room] at * <;> omega

theorem Room.weaken {k' : Nat} (h : Room d n k j) (hk : k' ≤ k) : Room d n k' j := by
  cases d <;> simp only [Room] at * <;> omega

theorem Sim.cut_forth [Carrier α] [Holder α] {y : Run α} :
    Sim .forth b (MonadExcept.throw .exhausted) y :=
  fun m _ _ => .inl ⟨m, rfl⟩

theorem Sim.cut_back [Carrier α] [Holder α] {x : Run α} :
    Sim .back b x (MonadExcept.throw .exhausted) :=
  fun m _ _ => .inl ⟨lower m, rfl⟩

/-- A lowered run that has room left goes one computation deeper. Only a lowered run that is
given can be without room. -/
theorem Sim.deeper [Carrier α] [Holder α] {x : Run α} (y : Nat → Run α)
    (hzero : Sim .back b x (y 0)) (hroom : Room d n (k + 1) j)
    (hsucc : ∀ j, Room d n k j → Sim d b x (y (j + 1))) : Sim d b x (y j) := by
  cases j with
  | zero =>
    cases d with
    | forth => simp only [Room] at hroom; omega
    | back => exact hzero
  | succ j => exact hsucc j hroom.pred

/-- Lowered code may be exchanged for code that does the same where environments exist. -/
theorem Sim.congr_right [Carrier α] [Holder α] {x y y' : Run α} (h : Sim d b x y')
    (heq : ∀ m : Machine, b ≤ m.envs.size → y m = y' m) : Sim d b x y := by
  intro m hm hs
  rw [heq (lower m) (by rwa [size_envs_lower])]
  exact h m hm hs

theorem readName_defined {m : Machine} {home : Nat} (hsize : home < m.envs.size)
    (h : (defined m home name v).home? env name = some home) :
    readName env name (defined m home name v) = .ok v (defined m home name v) := by
  rw [readName_run, lookup?_defined hsize h]
  rfl

/-- A name that was just declared is read as what it was declared to be. -/
theorem declareName_readName (q : Qualifier) (name : String) (m : Machine)
    (hsize : env < m.envs.size) :
    (do declareName q env name v; readName env name) m =
      (do declareName q env name v; pure v : Run Value) m := by
  have read {x : Run Unit} {home : Nat} (hx : x m = .ok () (defined m home name v))
      (hhome : home < m.envs.size) (h : (defined m home name v).home? env name = some home) :
      (do x; readName env name) m = (do x; pure v : Run Value) m := by
    rw [bind_of_ok hx, bind_of_ok hx, readName_defined hhome h]
    rfl
  cases q with
  | var =>
    have hassign := assignName_run env name v m
    cases h : m.home? env name with
    | none =>
      rw [h] at hassign
      exact (bind_of_error hassign).trans (bind_of_error hassign).symm
    | some home =>
      rw [h] at hassign
      exact read hassign (home?_le h).2 (home?_defined_home h)
  | _ => exact read rfl hsize (home?_defined_self hsize)

/-- The steps of a binding as lowered code runs them. -/
def loweredSteps (r : Evaluator) (q : Qualifier) (env : Nat) (span : Span) (name : String)
    (first : Expr) (later : List Expr) : Run Value := do
  let v ← r.expr first env
  declareName q env name v
  r.expr (Lower.value span name later) env

/-- What is known of all smaller bounds. -/
def Matches (d : Direction) (n : Nat) : Prop :=
  ∀ j, Room d n 0 j → EvalSim d (evaluator .direct n) (evaluator .refuse j)

theorem sim_laterSteps (ih : Matches d n) (henv : env < b) (span : Span) (name : String)
    (hroom : Room d n 1 j) (h : AllExprs Node.Ready es) (hv : Fit v) :
    Sim d b (laterSteps (evaluator .direct n) env name v es)
      (lastValue (evaluator .refuse j) env (lower v) ((Lower.exprs .es2015 es).map
        fun step => .assign span (.identifier span name) .plain step)) := by
  induction es generalizing v with
  | nil => exact .pure hv
  | cons e es ihes =>
    refine Sim.deeper (k := 0) (fun i => do
      lastValue (evaluator .refuse j) env
        (← (evaluator .refuse i).expr
          (.assign span (.identifier span name) .plain (Lower.expr .es2015 e)) env)
        ((Lower.exprs .es2015 es).map fun step => .assign span (.identifier span name) .plain step))
      Sim.cut_back hroom fun i hi => ?_
    have hstep : (evaluator .refuse (i + 1)).expr
        (.assign span (.identifier span name) .plain (Lower.expr .es2015 e)) env = (do
          let v ← (evaluator .refuse i).expr (Lower.expr .es2015 e) env
          assignName env name v
          return v) := rfl
    rw [hstep]
    simp only [bind_assoc, pure_bind]
    exact Sim.bind ((ih i hi).expr h.1 henv) fun v hv => .bind_plain (sim_assignName hv) fun _ =>
      ihes h.2 hv

theorem sim_allSteps (ih : Matches d n) (henv : env < b) (q : Qualifier) (span : Span)
    (name : String) (hroom : Room d n 3 j) (h : AllExprs Node.Ready (e :: es)) :
    Sim d b (allSteps (evaluator .direct n) q env name (e :: es))
      (loweredSteps (evaluator .refuse j) q env span name (Lower.expr .es2015 e)
        (Lower.exprs .es2015 es)) := by
  refine Sim.bind ((ih j (hroom.weaken (Nat.zero_le _))).expr h.1 henv) fun v hv => ?_
  cases es with
  | nil =>
    refine Sim.deeper (k := 2) (fun j => do
      declareName q env name (lower v)
      (evaluator .refuse j).expr (Lower.value span name []) env)
      (.bind_plain (sim_declareName q hv) fun _ => Sim.cut_back) hroom fun i _ => ?_
    have direct : Sim d b (do declareName q env name v; pure v : Run Value)
        (do declareName q env name (lower v); pure (lower v)) :=
      .bind_plain (sim_declareName q hv) fun _ => .pure hv
    exact direct.congr_right fun m hm =>
      declareName_readName q name m (Nat.lt_of_lt_of_le henv hm)
  | cons e' es =>
    refine .bind_plain (sim_declareName q hv) fun _ => ?_
    refine Sim.deeper (k := 2) (fun j => (evaluator .refuse j).expr (.paren span _) env) Sim.cut_back
      hroom fun i hi => ?_
    refine Sim.deeper (k := 1) (fun j => (evaluator .refuse j).expr (.sequence span _) env) Sim.cut_back
      hi fun i hi => ?_
    exact sim_laterSteps ih henv span name hi h.2 hv

/-- Returning the value of a computation without returns of its own gives that computation. -/
theorem returned_bind_throw {own : Nat → Prop} {x : Run Value} (hx : Tame own x) :
    returned (x >>= fun v => throw (.returned v)) = x := by
  funext m
  unfold returned
  cases h : x m with
  | ok v m1 =>
    rw [bind_of_ok h]
    rfl
  | error e m1 =>
    rw [bind_of_error h]
    split
    next heq => cases heq
    next heq =>
      cases heq
      exact absurd h (hx.notReturned m _ m1)
    next heq => cases heq; rfl

theorem tame_loweredSteps {own : Nat → Prop} {q : Qualifier} (henv : q ≠ .var → own env) (span : Span)
    (name : String) (first : Expr) (later : List Expr) :
    Tame own (loweredSteps (evaluator .refuse j) q env span name first later) :=
  .bind inferInstance fun v => .bind (tame_declareName henv name v) fun _ => inferInstance

theorem throw_bind {β : Type} (e : Exit) (f : α → Run β) : (throw e >>= f) = throw e := rfl

/-- The function that stands for an expression form returns the value of its steps. -/
theorem returned_steps (q : Qualifier) (span : Span) (name : String)
    (first : Expr) (later : List Expr) :
    returned (runStmts (evaluator .refuse (j + 1)) env
      [Lower.opening span q name (first :: later),
        .ret span (some (Lower.value span name later))]) =
      loweredSteps (evaluator .refuse j) q env span name first later := by
  have hrun : runStmts (evaluator .refuse (j + 1)) env
      [Lower.opening span q name (first :: later),
        .ret span (some (Lower.value span name later))] =
      loweredSteps (evaluator .refuse j) q env span name first later >>=
        fun v => throw (.returned v) := by
    change (do
      (do
        declareName q env name (← (evaluator .refuse j).expr first env)
        pure ())
      (do throw (Exit.returned (← (evaluator .refuse j).expr (Lower.value span name later) env)) :
        Run Unit)
      pure ()) = _
    simp only [loweredSteps, bind_assoc, pure_bind, throw_bind]
  rw [hrun]
  exact returned_bind_throw (@tame_loweredSteps env j (fun _ => True) q (fun _ => trivial) span name
    first later)

/-- Lowered code for an expression form calls a function that returns its steps. -/
theorem exprStep_expression (span : Span) (name : String) (first : Expr) (later : List Expr) :
    exprStep .refuse (evaluator .refuse (j + 2))
      (Lower.expression .es2015 span name (first :: later)) env = (do
        let _ ← newFunctionId
        let inner ← newEnv env
        loweredSteps (evaluator .refuse j) .let_ inner span name first later) := by
  have hcall (id : Nat) : callValue (evaluator .refuse (j + 2))
      (.function id (.closure ⟨"", [], .statements [Lower.opening span .let_ name (first :: later),
        .ret span (some (Lower.value span name later))], env, true⟩)) .undefined [] = (do
        let inner ← newEnv env
        loweredSteps (evaluator .refuse j) .let_ inner span name first later) := by
    simp only [← returned_steps]
    rfl
  change (do
    let p ← (do
      let f ← (do
        let id ← newFunctionId
        pure (Value.function id (.closure ⟨"", [], .statements [Lower.opening span .let_ name
          (first :: later), .ret span (some (Lower.value span name later))], env, true⟩)))
      pure (f, Value.undefined))
    callValue (evaluator .refuse (j + 2)) p.1 p.2 []) = _
  simp only [bind_assoc, pure_bind, hcall]

/-- The statements of a declaration store the value of its steps. -/
theorem runStmts_declaration (target : Target) (span : Span) (q : Qualifier) (result name : String)
    (first : Expr) (later : List Expr) :
    runStmts (evaluator .refuse (j + 1)) env
      (Lower.declaration target span q result name (first :: later)) = (do
        let v ← loweredSteps (evaluator .refuse j) (Lower.freshQualifier target q) env span name first
          later
        declareName q env result v) := by
  change (do
    (do
      declareName (Lower.freshQualifier target q) env name (← (evaluator .refuse j).expr first env)
      pure ())
    (do
      (do
        declareName q env result (← (evaluator .refuse j).expr (Lower.value span name later) env)
        pure ())
      pure ())) = _
  simp only [loweredSteps, bind_assoc, bind_pure_unit]

theorem sim_stepsExpr (ih : Matches d n) (hroom : Room d n 5 j)
    (h : AllExpr Node.Ready (.steps span q binding es i fresh)) :
    Sim d b (exprStep .direct (evaluator .direct n) (.steps span q binding es i fresh) env)
      (exprStep .refuse (evaluator .refuse j)
        (Lower.expr .es2015 (.steps span q binding es i fresh)) env) := by
  obtain ⟨hne, hes⟩ := h
  cases es with
  | nil => exact absurd rfl hne
  | cons e es =>
    refine Sim.deeper (k := 4) (fun j => exprStep .refuse (evaluator .refuse j) _ env)
      Sim.cut_back hroom
      fun j hj => ?_
    refine Sim.deeper (k := 3) (fun j => exprStep .refuse (evaluator .refuse (j + 1)) _ env)
      Sim.cut_back hj
      fun j hj => ?_
    change Sim d b _ (exprStep .refuse (evaluator .refuse (j + 2))
      (Lower.expression .es2015 span (Tree.freshName fresh)
        (Lower.expr .es2015 e :: Lower.exprs .es2015 es)) env)
    rw [exprStep_expression]
    refine .bind_plain judge_newFunctionId fun _ => Sim.newEnv_bind fun inner b' _ hinner => ?_
    exact sim_allSteps ih hinner .let_ span (Tree.freshName fresh) hj hes

theorem sim_stepsStmt (ih : Matches d n) (henv : env < b) (hroom : Room d n 5 j) {result : String}
    (h : AllStmt Node.Ready (.steps span q binding result es i fresh)) :
    Sim d b (stmtStep .direct (evaluator .direct n) (.steps span q binding result es i fresh) env)
      (runStmts (evaluator .refuse (j + 1)) env
        (Lower.stmt .es2015 (.steps span q binding result es i fresh))) := by
  obtain ⟨hne, hes⟩ := h
  cases es with
  | nil => exact absurd rfl hne
  | cons e es =>
    have hq : Lower.freshQualifier .es2015 q = if q = .var then .var else .let_ := by
      cases q <;> rfl
    change Sim d b _ (runStmts (evaluator .refuse (j + 1)) env (Lower.declaration .es2015 span q result
      (Tree.freshName fresh) (Lower.expr .es2015 e :: Lower.exprs .es2015 es)))
    rw [runStmts_declaration, hq]
    have hsteps := sim_allSteps ih henv (if q = .var then .var else .let_) span
      (Tree.freshName fresh) (hroom.weaken (by decide)) hes
    exact Sim.bind hsteps fun v hv => sim_declareName q hv

end Binding

section Evaluation

variable {d : Direction} {b env n k j : Nat}

theorem sim_exprStep (ih : Matches d n) (hroom : Room d n 5 j) (h : AllExpr Node.Ready e)
    (henv : env < b) :
    Sim d b (exprStep .direct (evaluator .direct n) e env)
      (exprStep .refuse (evaluator .refuse j) (Lower.expr .es2015 e) env) := by
  have hr := ih j (hroom.weaken (Nat.zero_le _))
  refine hr.code.judge_exprStep .direct .refuse ⟨h, henv⟩ fun hapart => ?_
  cases e with
  | function => exact sim_makeFunction h.2
  | arrow _ params body =>
    exact judge_newFunction (f := .closure ⟨"", params, .expression body, env, true⟩) h.2
  | arrowBlock _ params _ body =>
    exact judge_newFunction (f := .closure ⟨"", params, .statements body, env, true⟩) h.2.2
  | steps => exact sim_stepsExpr ih hroom h
  | rejected => exact h.elim
  | _ => cases hapart

/-- A statement that is no step binding stays one statement that is none. -/
theorem stmt_lower_cases (h : AllStmt Node.Ready s) :
    (∃ span q binding result es i fresh, s = .steps span q binding result es i fresh) ∨
      ∃ s', Lower.stmt .es2015 s = [s'] ∧ (∀ (r : Evaluator) env, runBody r env s = r.stmt s env) ∧
        ∀ (r : Evaluator) env, runBody r env s' = r.stmt s' env := by
  cases s with
  | steps => exact .inl ⟨_, _, _, _, _, _, _, rfl⟩
  | ret _ value => cases value <;> exact .inr ⟨_, rfl, fun _ _ => rfl, fun _ _ => rfl⟩
  | ifElse _ _ _ alternate =>
    cases alternate <;> exact .inr ⟨_, rfl, fun _ _ => rfl, fun _ _ => rfl⟩
  | forLoop => exact .inr ⟨_, Lower.stmt_forLoop .., fun _ _ => rfl, fun _ _ => rfl⟩
  | expr _ e =>
    cases e with
    | rejected => exact h.2.elim
    | _ => exact .inr ⟨_, rfl, fun _ _ => rfl, fun _ _ => rfl⟩
  | rejected => exact h.elim
  | _ => exact .inr ⟨_, rfl, fun _ _ => rfl, fun _ _ => rfl⟩

theorem sim_runBody (ih : Matches d n) (hroom : Room d n 1 j) (h : AllStmt Node.Ready s)
    (henv : env < b) :
    Sim d b (runBody (evaluator .direct n) env s)
      (runBody (evaluator .refuse j) env (lowerBody s)) := by
  rcases stmt_lower_cases h with ⟨_, _, _, _, _, _, _, rfl⟩ | ⟨s', hs', hbody, hbody'⟩
  · refine Sim.deeper (k := 0) (fun j => (evaluator .refuse j).stmt (lowerBody _) env)
      Sim.cut_back hroom
      fun j hj => ?_
    exact Sim.newEnv_bind fun inner b' _ hinner => (ih j hj).stmt h hinner
  · have hr := (ih j (hroom.weaken (Nat.zero_le _))).stmt h henv
    rw [hs'] at hr
    change Sim d b _ (do (evaluator .refuse j).stmt s' env; pure ()) at hr
    rw [lowerBody, hs', hbody]
    change Sim d b _ (runBody (evaluator .refuse j) env s')
    rwa [bind_pure_unit, ← hbody'] at hr

theorem ready_forLoop (h : Node.Ready (.stmt (.forLoop span init test update body))) :
    init = none ∨ (∃ span q ds, init = some (.declare span q ds)) ∨
      ∃ span e, init = some (.expr span e) := by
  rcases init with _ | s
  · exact .inl rfl
  · cases s with
    | declare => exact .inr (.inl ⟨_, _, _, rfl⟩)
    | expr => exact .inr (.inr ⟨_, _, rfl⟩)
    | _ => exact h.elim

theorem sim_startLoop {r r' : Evaluator} (hr : EvalSim d r r') (henv : env < b)
    (h : AllStart Node.Ready init)
    (hready : Node.Ready (.stmt (.forLoop span init test update body))) :
    Sim d b (startLoop r env init) (startLoop r' env (Lower.start .es2015 init)) := by
  obtain rfl | ⟨_, q, ds, rfl⟩ | ⟨_, e, rfl⟩ := ready_forLoop hready
  · exact .plain _
  · have hnames : (Lower.declarators .es2015 ds).map Declarator.name = ds.map Declarator.name :=
      Lower.names_declarators .es2015 ds
    refine .bind_plain (sim_declareAll hr henv q h.2) fun _ => ?_
    change Sim d b (pure (if q = .var then [] else ds.map Declarator.name))
      (pure (if q = .var then [] else (Lower.declarators .es2015 ds).map Declarator.name))
    rw [hnames]
    exact .plain _
  · exact Sim.bind (hr.expr h henv) fun _ _ => .plain _

/-- What follows a pass runs in the environment of the next one. -/
theorem Sim.nextPass_bind {f g : Nat → Run Unit} (hinner : inner < b)
    (hf : ∀ a b', b ≤ b' → a < b' → Sim d b' (f a) (g a)) :
    Sim d b (nextPass names outer inner >>= f) (nextPass names outer inner >>= g) := by
  have hbind (f : Nat → Run Unit) : nextPass names outer inner >>= f =
      if names.isEmpty then f inner
      else newEnv outer >>= fun next => copyNames inner next names >>= fun _ => f next := by
    unfold nextPass
    split
    · rfl
    · simp only [bind_assoc, pure_bind]
  rw [hbind, hbind]
  refine .ite (hf inner b .refl hinner) (Sim.newEnv_bind fun a b' hb ha => ?_)
  exact .bind_plain (sim_copyNames _ _ _) fun _ => hf a b' hb ha

/-- The rest of a loop once its test is decided. -/
def afterTest (r : Evaluator) (test update : Option Expr) (body : Stmt) (names : List String)
    (outer inner : Nat) (goesOn : Bool) : Run Unit := do
  if goesOn then
    if ← pass (runBody r inner body) then
      let next ← nextPass names outer inner
      match update with
      | none => r.forLoop test update body names outer next
      | some e =>
        let _ ← r.expr e next
        r.forLoop test update body names outer next

theorem sim_forLoopStep (ih : Matches d n) (hroom : Room d n 1 j)
    (htest : AllOption Node.Ready test) (hupdate : AllOption Node.Ready update)
    (hbody : AllStmt Node.Ready body) (houter : outer < b) (hinner : inner < b) :
    Sim d b (forLoopStep (evaluator .direct n) test update body names outer inner)
      (forLoopStep (evaluator .refuse j) (test.map (Lower.expr .es2015))
        (update.map (Lower.expr .es2015)) (lowerBody body) names outer inner) := by
  have hr := ih j (hroom.weaken (Nat.zero_le _))
  have rest (goesOn : Bool) :
      Sim d b (afterTest (evaluator .direct n) test update body names outer inner goesOn)
        (afterTest (evaluator .refuse j) (test.map (Lower.expr .es2015))
          (update.map (Lower.expr .es2015)) (lowerBody body) names outer inner goesOn) := by
    refine .ite ?_ (.plain _)
    refine .bind_plain (sim_pass (sim_runBody ih hroom hbody hinner)) fun goesOn => ?_
    refine .ite (Sim.nextPass_bind hinner fun a b' hb ha => ?_) (.plain _)
    have houter := Nat.lt_of_lt_of_le houter hb
    cases update with
    | none => exact hr.forLoop htest hupdate hbody houter ha
    | some e =>
      exact Sim.bind (hr.expr hupdate ha) fun _ _ => hr.forLoop htest hupdate hbody houter ha
  cases test with
  | none => exact rest true
  | some e => exact Sim.bind (hr.expr htest hinner) fun v _ => .bind_plain (judge_holds v) rest

theorem sim_forOfStep (ih : Matches d n) (hroom : Room d n 1 j) {items : Items}
    (hbody : AllStmt Node.Ready body) (henv : env < b) (hitems : Fit items) :
    Sim d b (forOfStep (evaluator .direct n) q name body env items i)
      (forOfStep (evaluator .refuse j) q name (lowerBody body) env (lower items) i) := by
  have hr := ih j (hroom.weaken (Nat.zero_le _))
  refine Sim.bind (judge_itemAt hitems i) fun item hitem => ?_
  cases item with
  | none => exact .plain _
  | some v =>
    have hv := hitem v rfl
    have run {b' inner : Nat} (hb : b ≤ b') (hinner : inner < b') : Sim d b'
        (do
          if ← pass (runBody (evaluator .direct n) inner body) then
            (evaluator .direct n).forOf q name body env items (i + 1))
        (do
          if ← pass (runBody (evaluator .refuse j) inner (lowerBody body)) then
            (evaluator .refuse j).forOf q name (lowerBody body) env (lower items) (i + 1)) :=
      .bind_plain (sim_pass (sim_runBody ih hroom hbody hinner)) fun _ =>
        .ite (hr.forOf hbody (Nat.lt_of_lt_of_le henv hb) hitems) (.plain _)
    cases q with
    | var => exact .bind_plain (sim_assignName hv) fun _ => run .refl henv
    | _ =>
      exact Sim.newEnv_bind fun inner b' hb hinner => .bind_plain (sim_define hv) fun _ =>
        run hb hinner

theorem sim_stmtStep (ih : Matches d n) (hroom : Room d n 5 j) (h : AllStmt Node.Ready s)
    (henv : env < b) :
    Sim d b (stmtStep .direct (evaluator .direct n) s env)
      (runStmts (evaluator .refuse (j + 1)) env (Lower.stmt .es2015 s)) := by
  have hr := ih j (hroom.weaken (Nat.zero_le _))
  have hroom' : Room d n 1 j := hroom.weaken (by decide)
  have single {s' : Stmt} (hs : Sim d b (stmtStep .direct (evaluator .direct n) s env)
      (stmtStep .refuse (evaluator .refuse j) s' env)) :
      Sim d b (stmtStep .direct (evaluator .direct n) s env)
        (runStmts (evaluator .refuse (j + 1)) env [s']) := by
    change Sim d b _ (do stmtStep .refuse (evaluator .refuse j) s' env; pure ())
    rwa [bind_pure_unit]
  cases s with
  | declare _ q ds => exact single (sim_declareAll hr henv q h.2)
  | steps => exact sim_stepsStmt ih henv hroom h
  | function | empty => exact single (.plain _)
  | ret _ value =>
    cases value with
    | none => exact single (.throw (e := .returned .undefined) trivial)
    | some e => exact single (Sim.bind (hr.expr h.2 henv) fun v hv => Sim.throw (e := .returned v) hv)
  | ifElse _ test consequent alternate =>
    cases alternate with
    | none =>
      refine single (Sim.bind (hr.expr h.2.1 henv) fun v _ => ?_)
      refine .bind_plain (judge_holds v) fun c => ?_
      exact .ite (sim_runBody ih hroom' h.2.2 henv) (.plain _)
    | some s =>
      refine single (Sim.bind (hr.expr h.2.1 henv) fun v _ => ?_)
      refine .bind_plain (judge_holds v) fun c => ?_
      exact .ite (sim_runBody ih hroom' h.2.2.1 henv) (sim_runBody ih hroom' h.2.2.2 henv)
  | whileLoop span test body =>
    have hloop := hr.stmt h henv
    change Sim d b _ (do (evaluator .refuse j).stmt (.whileLoop ..) env; pure ()) at hloop
    rw [bind_pure_unit] at hloop
    refine single (Sim.bind (hr.expr h.2.1 henv) fun v _ => .bind_plain (judge_holds v) fun c => ?_)
    refine .ite ?_ (.plain _)
    exact .bind_plain (sim_pass (sim_runBody ih hroom' h.2.2 henv)) fun _ =>
      .ite hloop (.plain _)
  | forLoop _ init test update body =>
    rw [Lower.stmt_forLoop]
    refine single (Sim.newEnv_bind fun inner b' hb hinner => ?_)
    exact .bind_plain (sim_startLoop hr hinner h.2.1 h.1) fun names =>
      hr.forLoop h.2.2.1 h.2.2.2.1 h.2.2.2.2 (Nat.lt_of_lt_of_le henv hb) hinner
  | forOf _ q name e body =>
    exact single (Sim.bind (hr.expr h.2.1 henv) fun v hv =>
      Sim.bind (judge_itemsOf hv) fun items hitems => hr.forOf h.2.2 henv hitems)
  | block _ ss =>
    exact single (Sim.newEnv_bind fun inner b' _ hinner => .bind_plain (sim_hoistFunctions ss h.2)
      fun _ => sim_runStmts hr hinner h.2)
  | break_ => exact single (.throw (e := .broke) trivial)
  | continue_ => exact single (.throw (e := .continued) trivial)
  | throw_ _ e =>
    exact single (Sim.bind (hr.expr h.2 henv) fun v hv =>
      .bind_plain (judge_displayOf v) fun shown => Sim.throw (e := .thrown v shown) hv)
  | expr span e =>
    have hs : Sim d b (stmtStep .direct (evaluator .direct n) (.expr span e) env)
        (runStmts (evaluator .refuse (j + 1)) env [.expr span (Lower.expr .es2015 e)]) :=
      single (Sim.bind (hr.expr h.2 henv) fun _ _ => .plain _)
    cases e with
    | rejected => exact h.2.elim
    | _ => exact hs
  | rejected => exact h.elim
  | foreign => exact single (.fail nofun)

/-- Without any room nothing is left to compare. -/
theorem evalSim_zero (r : Evaluator) : EvalSim .back r (evaluator .refuse 0) where
  expr _ _ := Sim.cut_back
  stmt h _ := by
    rcases stmt_lower_cases h with ⟨_, _, _, _, _, _, _, rfl⟩ | ⟨s', hs', _⟩
    · exact Sim.cut_back
    · rw [hs']
      exact Sim.cut_back
  call _ _ _ := Sim.cut_back
  forLoop _ _ _ _ _ := Sim.cut_back
  forOf _ _ _ := Sim.cut_back

/-- Direct running and the running of lowered code match within their bounds. -/
theorem evaluator_sim (n : Nat) : Matches d n := by
  induction n with
  | zero =>
    intro j hroom
    cases d with
    | forth =>
      exact ⟨fun _ _ => Sim.cut_forth, fun _ _ => Sim.cut_forth, fun _ _ _ => Sim.cut_forth,
        fun _ _ _ _ _ => Sim.cut_forth, fun _ _ _ => Sim.cut_forth⟩
    | back =>
      obtain rfl : j = 0 := Nat.le_zero.mp hroom
      exact evalSim_zero _
  | succ n ih =>
    intro j hroom
    cases j with
    | zero =>
      cases d with
      | forth => simp only [Room] at hroom; omega
      | back => exact evalSim_zero _
    | succ j =>
      have hstep := hroom.step
      have hstep' : Room d n 1 j := hstep.weaken (by decide)
      have hr := ih j (hstep.weaken (Nat.zero_le _))
      exact ⟨fun h henv => sim_exprStep ih hstep h henv, fun h henv => sim_stmtStep ih hstep h henv,
        fun hf hthis hargs => hr.code.judge_callStep .direct .refuse hf hargs
          fun c heq => sim_callClosure hr (by subst heq; exact hf) hthis hargs,
        fun htest hupdate hbody houter hinner =>
          sim_forLoopStep ih hstep' htest hupdate hbody houter hinner,
        fun hbody henv hitems => sim_forOfStep ih hstep' hbody henv hitems⟩

end Evaluation

end Machine
end StepBinding
