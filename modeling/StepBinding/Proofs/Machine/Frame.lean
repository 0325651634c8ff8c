import StepBinding.Proofs.Machine.Environments
import StepBinding.Proofs.Machine.Simulation

/-! Which environments gain names, and where a return ends. A statement may declare names in the
environment it runs in and in new environments. Expressions and calls run statements only in new
environments, so the environments that are there before keep exactly the names they have, and a name
is found where it was found before. A call catches the return of its body, so neither expressions nor
calls end in a return. -/

namespace StepBinding.Machine

variable {env : Nat} {α : Type}

/-- The environments of the first machine are also in the second one, and none but `own` has more
names there. -/
structure Within (own : Nat → Prop) (m m₁ : Machine) : Prop where
  leads : m.Leads m₁
  gains : ∀ (i : Nat) (e e₁ : Environment), m.envs[i]? = some e → m₁.envs[i]? = some e₁ → ¬own i →
    ∀ x, (e₁.values.get? x).isSome = true → (e.values.get? x).isSome = true

namespace Within

variable {own own' : Nat → Prop} {m m₁ m₂ : Machine} {home : Nat} {x : String}

theorem of_envs (h : m₁.envs = m.envs) : Within own m m₁ where
  leads := .of_envs h
  gains i e e₁ he he₁ _ x hx := by
    rw [h, he] at he₁
    cases he₁
    exact hx

theorem trans (h : Within own m m₁) (h' : Within own m₁ m₂) : Within own m m₂ where
  leads := h.leads.trans h'.leads
  gains i e e₂ he he₂ hi x hx := by
    obtain ⟨e₁, he₁, -⟩ := h.leads i e he
    exact h.gains i e e₁ he he₁ hi x (h'.gains i e₁ e₂ he₁ he₂ hi x hx)

theorem mono (h : Within own m m₁) (ho : ∀ i, i < m.envs.size → own i → own' i) :
    Within own' m m₁ where
  leads := h.leads
  gains i e e₁ he he₁ hi x hx :=
    h.gains i e e₁ he he₁ (fun hown => hi (ho i (Array.getElem?_eq_some_iff.mp he).1 hown)) x hx

theorem push (m : Machine) (e : Environment) : Within own m { m with envs := m.envs.push e } where
  leads := .push m e
  gains i e e₁ he he₁ _ x hx := by
    rw [Array.getElem?_push_lt (Array.getElem?_eq_some_iff.mp he).1,
      (Array.getElem?_eq_some_iff.mp he).2] at he₁
    cases he₁
    exact hx

theorem define (henv : own env) (name : String) (v : Value) : Within own m (defined m env name v) where
  leads := .define m env name v
  gains i e e₁ he he₁ hi x hx := by
    have hne : env ≠ i := fun heq => hi (heq ▸ henv)
    rw [defined, Array.getElem?_modify, if_neg hne, he] at he₁
    cases he₁
    exact hx

/-- A name that is there already is given another value. -/
theorem assign {name : String} (v : Value) (h : m.home? env name = some home) :
    Within own m (defined m home name v) where
  leads := .define m home name v
  gains i e e₁ he he₁ _ x hx := by
    rw [defined, Array.getElem?_modify, he] at he₁
    split at he₁
    · rename_i hi
      cases hi
      cases he₁
      rcases isSome_get?_put.mp hx with rfl | hx
      · have hhome := isSome_get?_home h
        rwa [valuesOf, he] at hhome
      · exact hx
    · cases he₁
      exact hx

/-- A name is found where it was found before. -/
theorem home?_eq (h : Within (fun _ => False) m m₁) (hx : m.home? env x = some home) :
    m₁.home? env x = some home := by
  fun_induction home? m env x with
  | case1 | case3 | case5 => cases hx
  | case2 env e he hv =>
    obtain ⟨e₁, he₁, -, hvalues⟩ := h.leads env e he
    rw [home?, he₁]
    simpa only [hvalues x hv, if_true] using hx
  | case4 env e he hv parent hp hlt ih =>
    obtain ⟨e₁, he₁, hparent, -⟩ := h.leads env e he
    rw [home?, he₁]
    have hv1 : ¬(e₁.values.get? x).isSome := fun hx => hv (h.gains env e e₁ he he₁ id x hx)
    simp only [hv1, hparent, hp, dif_pos hlt]
    exact ih hx

end Within

/-- A computation in which no environments but `own` and new ones gain names. -/
class Keeps (own : Nat → Prop) {α : Type} (x : Run α) : Prop where
  ends : ∀ m, Within own m (finalState (x m))

/-- A computation that, moreover, never ends in a return. -/
class Tame (own : Nat → Prop) {α : Type} (x : Run α) : Prop extends Keeps own x where
  notReturned : ∀ (m : Machine) (v : Value) (m' : Machine), x m ≠ .error (.returned v) m'

section Base

variable {own : Nat → Prop} {β : Type} {x : Run α} {f : α → Run β}

theorem Keeps.bind (hx : Keeps own x) (hf : ∀ a, Keeps own (f a)) : Keeps own (x >>= f) := by
  constructor
  intro m
  have hends := hx.ends m
  cases h : x m with
  | ok a m₁ =>
    rw [h] at hends
    rw [bind_of_ok h]
    exact hends.trans ((hf a).ends m₁)
  | error e m₁ =>
    rw [h] at hends
    rw [bind_of_error h]
    exact hends

instance [Keeps own x] [∀ a, Keeps own (f a)] : Keeps own (x >>= f) :=
  .bind inferInstance fun _ => inferInstance

instance (e : Exit) : Keeps own (throw e : Run α) := ⟨fun _ => .of_envs rfl⟩

instance (c : Prop) [Decidable c] (x y : Run α) [Keeps own x] [Keeps own y] :
    Keeps own (if c then x else y) := by
  split <;> infer_instance

/-- A new environment is not one that was there before. -/
theorem Keeps.newEnv_bind {f : Nat → Run β}
    (hf : ∀ inner, Keeps (fun i => own i ∨ i = inner) (f inner)) :
    Keeps own (newEnv env >>= f) := by
  constructor
  intro m
  have hpush : Within own m { m with envs := m.envs.push ⟨some env, []⟩ } := .push m _
  refine ⟨hpush.leads.trans ((hf m.envs.size).ends _).leads, fun i e e₂ he he₂ hi x hx => ?_⟩
  obtain ⟨e₁, he₁, -⟩ := hpush.leads i e he
  refine hpush.gains i e e₁ he he₁ hi x (((hf m.envs.size).ends _).gains i e₁ e₂ he₁ he₂ ?_ x hx)
  rintro (hown | rfl)
  · exact hi hown
  · exact absurd (Array.getElem?_eq_some_iff.mp he).1 (Nat.lt_irrefl _)

namespace Tame

theorem of_ok (h : ∀ m, ∃ a m', x m = .ok a m' ∧ m'.envs = m.envs) : Tame own x where
  ends m := by
    obtain ⟨a, m', hx, henvs⟩ := h m
    rw [hx]
    exact .of_envs henvs
  notReturned m v m' he := by
    obtain ⟨a, m₁, hx, -⟩ := h m
    rw [hx] at he
    cases he

theorem throw {e : Exit} (he : ∀ v, e ≠ .returned v) : Tame own (throw e : Run α) where
  notReturned _ v _ h := by
    cases h
    exact he v rfl

instance : Tame own (MonadExcept.throw .noSuchElement : Run α) := .throw nofun
instance : Tame own (MonadExcept.throw .notAList : Run α) := .throw nofun

instance (a : α) : Tame own (pure a : Run α) := .of_ok fun _ => ⟨_, _, rfl, rfl⟩

instance (e : Error) : Tame own (fail e : Run α) := .throw nofun

instance : Tame own (get : Run Machine) := .of_ok fun _ => ⟨_, _, rfl, rfl⟩

theorem bind (hx : Tame own x) (hf : ∀ a, Tame own (f a)) : Tame own (x >>= f) where
  toKeeps := .bind hx.toKeeps fun a => (hf a).toKeeps
  notReturned m v m' he := by
    cases h : x m with
    | ok a m₁ =>
      rw [bind_of_ok h] at he
      exact (hf a).notReturned m₁ v m' he
    | error e m₁ =>
      rw [bind_of_error h] at he
      cases he
      exact hx.notReturned m v m' h

instance [Tame own x] [∀ a, Tame own (f a)] : Tame own (x >>= f) :=
  .bind inferInstance fun _ => inferInstance

instance (c : Prop) [Decidable c] (x y : Run α) [Tame own x] [Tame own y] :
    Tame own (if c then x else y) := by
  split <;> infer_instance

theorem newEnv_bind {f : Nat → Run β} (hf : ∀ inner, Tame (fun i => own i ∨ i = inner) (f inner)) :
    Tame own (newEnv env >>= f) where
  toKeeps := .newEnv_bind fun inner => (hf inner).toKeeps
  notReturned m := (hf m.envs.size).notReturned _

theorem define (henv : own env) (name : String) (v : Value) :
    Tame own (Machine.define env name v) where
  ends _ := .define henv name v
  notReturned _ _ _ h := by cases h

end Tame

end Base

section Library

variable {own : Nat → Prop}

/-- The library does not touch environments. -/
def tameness (own : Nat → Prop) : Logic where
  Stage := Unit
  Leads _ _ := True
  Known _ _ := True
  Judge _ _ _ _ x _ := Tame own x
  refl _ := trivial
  trans _ _ := trivial
  known _ _ := id
  mono _ h := h
  pure _ := inferInstance
  throw he := .throw fun v h => by subst h; cases he
  bind hx hf := .bind hx fun a => hf () a trivial (Holder.all a)
  modifyGet henvs _ _ := .of_ok fun m => ⟨_, _, rfl, henvs m⟩

theorem Tame.library [Carrier α] [Holder α] {x y : Run α} (h : (tameness own).Judge () x y) :
    Tame own x := h

instance (v : Value) : Tame own (textOf v) := .library (judge_textOf v)
instance (v : Value) : Tame own (displayOf v) := .library (judge_displayOf v)
instance (v : Value) : Tame own (numberOf v) := .library (judge_numberOf v)
instance (v : Value) : Tame own (holds v) := .library (judge_holds v)
instance (v : Value) : Tame own (intArg v) := .library (judge_intArg v)

instance (x : Except Number.Fault α) : Tame own (known x) := by
  cases x with
  | ok a => exact .of_ok fun _ => ⟨_, _, rfl, rfl⟩
  | error e => exact .throw nofun

instance (op : BinaryOp) (v w : Value) : Tame own (binary op v w) :=
  .library (judge_binary op (Holder.all v) (Holder.all w))

instance (op : UnaryOp) (v : Value) : Tame own (unary op v) := .library (judge_unary op v)

instance (vs : List Value) : Tame own (newArray vs) := .library (judge_newArray (Holder.all vs))

instance (fs : Fields) : Tame own (newObject fs) := .library (judge_newObject (Holder.all fs))

instance : Tame own newFunctionId := .library judge_newFunctionId

instance (f : Callable) : Tame own (newFunction f) :=
  .library (judge_newFunction (Holder.all f))

instance (v key : Value) : Tame own (readProperty v key) :=
  .library (judge_readProperty (Holder.all v) key)

instance (target key v : Value) : Tame own (writeProperty target key v) :=
  .library (judge_writeProperty target key (Holder.all v))

instance (b : Builtin) (args : List Value) : Tame own (builtin b args) :=
  .library (judge_builtin b args)

instance (s : String) (method : StringMethod) (args : List Value) :
    Tame own (stringMethod s method args) :=
  .library (judge_stringMethod s method args)

instance {call : Caller} [∀ f this args, Tame own (call f this args)] (array : Nat)
    (method : ArrayMethod) (args : List Value) : Tame own (arrayMethod call array method args) :=
  have hcall : (tameness own).Calls () call call := fun _ f this args _ _ _ _ =>
    inferInstanceAs (Tame own (call f this args))
  .library (judge_arrayMethod hcall array method (Holder.all args))

instance (env : Nat) (name : String) : Tame own (readName env name) := by
  unfold readName
  refine .bind inferInstance fun m => ?_
  split <;> infer_instance

instance (env : Nat) (name : String) : Tame own (hasName env name) :=
  .of_ok fun _ => ⟨_, _, rfl, rfl⟩

instance (env : Nat) (name : String) (v : Value) : Tame own (assignName env name v) := by
  refine @Tame.mk _ _ _ ⟨fun m => ?_⟩ fun m w m' h => ?_
  · rw [assignName_run]
    cases h : m.home? env name with
    | none => exact .of_envs rfl
    | some home => exact .assign v h
  · rw [assignName_run] at h
    cases hhome : m.home? env name <;> rw [hhome] at h <;> cases h

end Library

section Evaluation

variable {own : Nat → Prop} {mode : Mode} {r : Evaluator} {inner : Nat}

/-- An environment that may gain names. -/
class Owned (own : Nat → Prop) (env : Nat) : Prop where
  own : own env

instance : Owned (fun i => own i ∨ i = inner) inner := ⟨.inr rfl⟩

instance [h : Owned own env] : Owned (fun i => own i ∨ i = inner) env := ⟨.inl h.own⟩

instance [h : Owned own env] (name : String) (v : Value) : Tame own (define env name v) :=
  .define h.own name v

instance (f : Nat → Run α) [∀ inner, Tame (fun i => own i ∨ i = inner) (f inner)] :
    Tame own (newEnv env >>= f) :=
  .newEnv_bind inferInstance

instance (f : Nat → Run α) [∀ inner, Keeps (fun i => own i ∨ i = inner) (f inner)] :
    Keeps own (newEnv env >>= f) :=
  .newEnv_bind inferInstance

instance [Owned own env] (ss : List Stmt) : Tame own (hoistFunctions env ss) := by
  fun_induction hoistFunctions env ss <;> infer_instance

instance [Owned own env] (names : List String) : Tame own (hoistNames env names) := by
  fun_induction hoistNames env names <;> infer_instance

instance [Owned own env] (ss : List Stmt) : Tame own (hoist mode env ss) := by
  unfold hoist; infer_instance

theorem tame_declareName {q : Qualifier} (henv : q ≠ .var → own env) (name : String) (v : Value) :
    Tame own (declareName q env name v) := by
  cases q with
  | var => exact inferInstanceAs (Tame own (assignName env name v))
  | _ => exact .define (henv nofun) name v

instance [h : Owned own env] (q : Qualifier) (name : String) (v : Value) :
    Tame own (declareName q env name v) :=
  tame_declareName (fun _ => h.own) name v

instance [Owned own env] (args : List Value) (i : Nat) (params : List String) :
    Tame own (defineParams env args i params) := by
  fun_induction defineParams env args i params <;> infer_instance

instance (body : Run Unit) [h : Keeps own body] : Keeps own (pass body) := by
  constructor
  intro m
  have hends := h.ends m
  unfold pass
  split <;> rename_i heq <;> rw [heq] at hends <;> exact hends

/-- A call catches the return of its body. -/
instance (body : Run Unit) [h : Keeps own body] : Tame own (returned body) where
  ends m := by
    have hends := h.ends m
    unfold returned
    split <;> rename_i heq <;> rw [heq] at hends <;> exact hends
  notReturned m v m' he := by
    unfold returned at he
    split at he
    case h_3 hne _ => injection he with he _; exact hne v he
    all_goals cases he

/-- What an evaluator does with environments: expressions and calls give names to new ones only,
statements and loops also to the one they run in, and only these may end in a return. -/
class Frames (r : Evaluator) : Prop where
  expr : ∀ own e env, Tame own (r.expr e env)
  call : ∀ own f this args, Tame own (r.call f this args)
  stmt : ∀ {own : Nat → Prop} s {env : Nat}, own env → Keeps own (r.stmt s env)
  forLoop : ∀ {own : Nat → Prop} test update body names outer {inner : Nat}, own inner →
    Keeps own (r.forLoop test update body names outer inner)
  forOf : ∀ {own : Nat → Prop} q name body {env : Nat} items i, own env →
    Keeps own (r.forOf q name body env items i)

variable [hr : Frames r]

instance (e : Expr) (env : Nat) : Tame own (r.expr e env) := hr.expr own e env

instance (f : Callable) (this : Value) (args : List Value) : Tame own (r.call f this args) :=
  hr.call own f this args

instance [h : Owned own env] (s : Stmt) : Keeps own (r.stmt s env) := hr.stmt s h.own

instance [h : Owned own inner] (test update : Option Expr) (body : Stmt) (names : List String)
    (outer : Nat) : Keeps own (r.forLoop test update body names outer inner) :=
  hr.forLoop _ _ _ _ _ h.own

instance [h : Owned own env] (q : Qualifier) (name : String) (body : Stmt) (items : Items) (i : Nat) :
    Keeps own (r.forOf q name body env items i) :=
  hr.forOf _ _ _ _ _ h.own

instance (env : Nat) (es : List Expr) : Tame own (values r env es) := by
  fun_induction values r env es <;> infer_instance

instance (env : Nat) (v : Value) (es : List Expr) : Tame own (lastValue r env v es) := by
  fun_induction lastValue r env v es <;> infer_instance

instance (env : Nat) (ps : List Property) (fs : Fields) : Tame own (fieldValues r env ps fs) := by
  fun_induction fieldValues r env ps fs <;> infer_instance

instance (env : Nat) (es : List Expr) (quasis : List String) :
    Tame own (templateText r env es quasis) := by
  fun_induction templateText r env es quasis <;> infer_instance

instance [Owned own env] (q : Qualifier) (ds : List Declarator) : Tame own (declareAll r q env ds) := by
  fun_induction declareAll r q env ds <;> infer_instance

instance (env : Nat) (name : String) (v : Value) (es : List Expr) :
    Tame own (laterSteps r env name v es) := by
  fun_induction laterSteps r env name v es <;> infer_instance

instance [Owned own env] (q : Qualifier) (name : String) (es : List Expr) :
    Tame own (allSteps r q env name es) := by
  cases es <;> unfold allSteps <;> infer_instance

instance [Owned own env] (ss : List Stmt) : Keeps own (runStmts r env ss) := by
  fun_induction runStmts r env ss <;> infer_instance

instance [Owned own env] (s : Stmt) : Keeps own (runBody r env s) := by
  unfold runBody; split <;> infer_instance

instance (c : Closure) (this : Value) (args : List Value) :
    Tame own (callClosure mode r c this args) := by
  obtain ⟨name, params, body, env, isArrow⟩ := c
  cases body <;> unfold callClosure <;> dsimp only <;> infer_instance

instance (f : Callable) (this : Value) (args : List Value) :
    Tame own (callStep mode r f this args) := by
  unfold callStep
  split
  case h_8 =>
    refine .bind inferInstance fun m => ?_
    split <;> infer_instance
  all_goals infer_instance

instance (f this : Value) (args : List Value) : Tame own (callValue r f this args) := by
  unfold callValue; split <;> infer_instance

instance (env : Nat) (e : Expr) : Tame own (callee r env e) := by
  unfold callee; split <;> infer_instance

instance (f : Value) (args : List Value) : Tame own (construct r f args) := by
  unfold construct
  split
  case h_2 =>
    split
    · infer_instance
    · refine .bind inferInstance fun this => .bind inferInstance fun v => ?_
      split <;> infer_instance
  all_goals infer_instance

instance (env : Nat) (target : Expr) (v : Value) : Tame own (assign r env target v) := by
  unfold assign; split <;> infer_instance

omit hr in
instance (env : Nat) (name : String) (params : List String) (body : List Stmt) :
    Tame own (makeFunction env name params body) := by
  unfold makeFunction; infer_instance

instance (env : Nat) (op : UnaryOp) (e : Expr) : Tame own (unaryStep r env op e) := by
  unfold unaryStep; split <;> infer_instance

instance (env : Nat) (left : Expr) (op : BinaryOp) (right : Expr) :
    Tame own (binaryStep r env left op right) := by
  unfold binaryStep
  refine .bind inferInstance fun v => ?_
  split <;> infer_instance

theorem tame_exprStep (e : Expr) (env : Nat) : Tame own (exprStep mode r e env) := by
  unfold exprStep
  split
  all_goals first | infer_instance | split <;> infer_instance

instance [Owned own env] (init : Option Stmt) : Keeps own (startLoop r env init) := by
  unfold startLoop; split <;> infer_instance

omit hr in
instance [Owned own inner] (source : Nat) (names : List String) :
    Tame own (copyNames source inner names) := by
  fun_induction copyNames source inner names <;> infer_instance

omit hr in
/-- The environment of the next pass is the one of this pass or a new one. -/
instance (f : Nat → Run α) [Keeps own (f inner)]
    [∀ next, Keeps (fun i => own i ∨ i = next) (f next)] (names : List String) (outer : Nat) :
    Keeps own (nextPass names outer inner >>= f) := by
  unfold nextPass
  split
  · rw [pure_bind]
    infer_instance
  · simp only [bind_assoc, pure_bind]
    infer_instance

set_option synthInstance.maxSize 1000 in
theorem keeps_forLoopStep [Owned own inner] (test update : Option Expr) (body : Stmt)
    (names : List String) (outer : Nat) :
    Keeps own (forLoopStep r test update body names outer inner) := by
  unfold forLoopStep
  cases test <;> cases update <;> simp only [pure_bind, if_true] <;> infer_instance

omit hr in
instance (v : Value) : Tame own (itemsOf v) := by
  unfold itemsOf; split <;> infer_instance

omit hr in
instance (items : Items) (i : Nat) : Tame own (itemAt items i) := by
  unfold itemAt; split <;> infer_instance

theorem keeps_forOfStep [Owned own env] (q : Qualifier) (name : String) (body : Stmt)
    (items : Items) (i : Nat) : Keeps own (forOfStep r q name body env items i) := by
  unfold forOfStep
  refine .bind inferInstance fun item => ?_
  cases item <;> cases q <;> simp only [pure_bind] <;> infer_instance

theorem keeps_stmtStep [Owned own env] (s : Stmt) : Keeps own (stmtStep mode r s env) := by
  unfold stmtStep
  split
  all_goals first | infer_instance | split <;> infer_instance

end Evaluation

/-- Expressions and calls add names to new environments only and end in no return. -/
instance frames_evaluator (mode : Mode) (n : Nat) : Frames (evaluator mode n) := by
  induction n with
  | zero =>
    exact ⟨fun _ _ _ => .throw nofun, fun _ _ _ _ => .throw nofun,
      fun _ _ _ => inferInstanceAs (Keeps _ (throw _)),
      fun _ _ _ _ _ _ _ => inferInstanceAs (Keeps _ (throw _)),
      fun _ _ _ _ _ _ _ => inferInstanceAs (Keeps _ (throw _))⟩
  | succ n ih =>
    exact ⟨fun _ e env => tame_exprStep e env,
      fun _ f this args => inferInstanceAs (Tame _ (callStep mode (evaluator mode n) f this args)),
      fun s _ henv => have := Owned.mk henv; keeps_stmtStep s,
      fun test update body names outer _ hinner =>
        have := Owned.mk hinner; keeps_forLoopStep test update body names outer,
      fun q name body _ items i henv =>
        have := Owned.mk henv; keeps_forOfStep q name body items i⟩

end StepBinding.Machine
