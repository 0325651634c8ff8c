import StepBinding.Proofs.Machine.Lowering

/-! The steps of a lowered step binding run once each and in order. The code of the expression form
makes one new environment, evaluates the steps there and stores every value under the fresh name in
that environment; the statements of the declaration form do the same where they stand. A step that
ends without a value ends the whole. Steps may do anything: assign to the fresh name, keep it in
closures, call functions. What they cannot do is to declare the name nearer, so that the next value
is stored where the first one was. -/

namespace StepBinding.Machine

/-- Computations run one after the other, each of them once, and every value is stored under the
name before the next one starts. The first that ends without a value ends them all. -/
inductive InOrder (home : Nat) (name : String) :
    List (Run Value) → Machine → EStateM.Result Exit Machine Value → Prop
  | last {x : Run Value} {m m₁ : Machine} {v : Value} (h : x m = .ok v m₁) :
      InOrder home name [x] m (.ok v (defined m₁ home name v))
  | next {x : Run Value} {xs : List (Run Value)} {m m₁ : Machine} {v : Value}
      {result : EStateM.Result Exit Machine Value} (h : x m = .ok v m₁)
      (hxs : InOrder home name xs (defined m₁ home name v) result) :
      InOrder home name (x :: xs) m result
  | stop {x : Run Value} {xs : List (Run Value)} {m m₁ : Machine} {e : Exit}
      (h : x m = .error e m₁) : InOrder home name (x :: xs) m (.error e m₁)

/-- Where a declaration puts a name: a variable was put before the code runs, other names are put
where the declaration stands. -/
def Placed (q : Qualifier) (m : Machine) (env : Nat) (name : String) (home : Nat) : Prop :=
  match q with
  | .var => m.home? env name = some home
  | _ => home = env

/-- The steps as computations in an environment. Lowered code nests the later ones three computations
deeper than the first one. -/
def stepRuns (n env : Nat) (first : Expr) (later : List Expr) : List (Run Value) :=
  (evaluator .refuse (n + 3)).expr first env :: later.map ((evaluator .refuse n).expr · env)

section Steps

variable {m m₁ : Machine} {env home n : Nat} {name : String} {v : Value}

theorem assignName_of_home? (h : m.home? env name = some home) :
    assignName env name v m = .ok () (defined m home name v) := by
  rw [assignName_run, h]
  rfl

/-- An expression gives no names to the environments that are there. -/
theorem within_of_ok {e : Expr} (h : (evaluator .refuse n).expr e env m = .ok v m₁) :
    Within (fun _ => False) m m₁ := by
  have hends := ((frames_evaluator .refuse n).expr (fun _ => False) e env).ends m
  rwa [h] at hends

/-- A declaration puts its name where it was to be put before. -/
theorem Placed.declareName {q : Qualifier} (hplaced : Placed q m env name home)
    (henv : env < m₁.envs.size) (hvar : q = .var → Within (fun _ => False) m m₁) (v : Value) :
    Machine.declareName q env name v m₁ = .ok () (defined m₁ home name v) ∧
      (defined m₁ home name v).home? env name = some home ∧ home < m₁.envs.size := by
  cases q with
  | var =>
    have hhome := (hvar rfl).home?_eq hplaced
    exact ⟨assignName_of_home? hhome, home?_defined_home hhome, (home?_le hhome).2⟩
  | _ =>
    cases hplaced
    exact ⟨rfl, home?_defined_self henv, henv⟩

theorem evaluator_assign (span : Span) (e : Expr) :
    (evaluator .refuse (n + 1)).expr (.assign span (.identifier span name) .plain e) env = (do
      let v ← (evaluator .refuse n).expr e env
      assignName env name v
      return v) := rfl

theorem lastValue_cons (r : Evaluator) (v : Value) (e : Expr) (es : List Expr) :
    lastValue r env v (e :: es) = r.expr e env >>= fun v => lastValue r env v es := rfl

theorem inOrder_later (span : Span) (e : Expr) (es : List Expr) (v0 : Value)
    (hhome : m.home? env name = some home) :
    InOrder home name ((e :: es).map ((evaluator .refuse n).expr · env)) m
      (lastValue (evaluator .refuse (n + 1)) env v0
        ((e :: es).map fun step => .assign span (.identifier span name) .plain step) m) := by
  induction es generalizing e m v0 with
  | nil =>
    rw [List.map_singleton, List.map_singleton, lastValue_cons, evaluator_assign, bind_assoc]
    cases h : (evaluator .refuse n).expr e env m with
    | error exit m₁ =>
      rw [bind_of_error h]
      exact .stop h
    | ok v m₁ =>
      rw [bind_of_ok h, bind_assoc, bind_of_ok (assignName_of_home? ((within_of_ok h).home?_eq hhome)),
        pure_bind]
      exact .last h
  | cons e' es ih =>
    rw [List.map_cons (a := e), List.map_cons (a := e), lastValue_cons, evaluator_assign, bind_assoc]
    cases h : (evaluator .refuse n).expr e env m with
    | error exit m₁ =>
      rw [bind_of_error h]
      exact .stop h
    | ok v m₁ =>
      have hhome1 := (within_of_ok h).home?_eq hhome
      rw [bind_of_ok h, bind_assoc, bind_of_ok (assignName_of_home? hhome1), pure_bind]
      exact .next h (ih e' v (home?_defined_home hhome1))

/-- The steps of lowered code, the first of which is declared and the others assigned. -/
theorem inOrder_loweredSteps (q : Qualifier) (span : Span) (first : Expr) (later : List Expr)
    (henv : env < m.envs.size) (hplaced : Placed q m env name home) :
    InOrder home name (stepRuns n env first later) m
      (loweredSteps (evaluator .refuse (n + 3)) q env span name first later m) := by
  unfold loweredSteps
  cases h : (evaluator .refuse (n + 3)).expr first env m with
  | error exit m₁ =>
    rw [bind_of_error h]
    exact .stop h
  | ok v m₁ =>
    obtain ⟨hdeclare, hhome, hsize⟩ : declareName q env name v m₁ = .ok () (defined m₁ home name v) ∧
        (defined m₁ home name v).home? env name = some home ∧ home < m₁.envs.size :=
      hplaced.declareName ((within_of_ok h).leads.lt_size henv) (fun _ => within_of_ok h) v
    rw [bind_of_ok h, bind_of_ok hdeclare]
    cases later with
    | nil =>
      have hread : (evaluator .refuse (n + 3)).expr (Lower.value span name []) env
          (defined m₁ home name v) = .ok v (defined m₁ home name v) :=
        readName_defined hsize hhome
      rw [hread]
      exact .last h
    | cons e es => exact .next h (inOrder_later span e es .undefined hhome)

end Steps

section Forms

variable {m : Machine} {env home n : Nat} {name : String} {v : Value}

/-- The machine in which the steps of an expression form start: a new environment inside the one
around it, which for the older target has the current `this` and the variable of the fresh name. -/
def entered (target : Target) (env : Nat) (name : String) (this : Value) (m : Machine) : Machine :=
  match target with
  | .es2015 =>
    { m with nextFunction := m.nextFunction + 1, envs := m.envs.push ⟨some env, []⟩ }
  | .es5 =>
    { m with
      nextFunction := m.nextFunction + 2
      envs := m.envs.push ⟨some env, [("this", this), (name, .undefined)]⟩ }

/-- How much deeper the code of an expression form is nested than its last steps are. -/
def nesting : Target → Nat
  | .es2015 => 6
  | .es5 => 7

theorem defined_push (m : Machine) (e : Environment) (name : String) (v : Value) :
    defined { m with envs := m.envs.push e } m.envs.size name v =
      { m with envs := m.envs.push { e with values := e.values.put name v } } := by
  have hmodify : (m.envs.push e).modify m.envs.size
      (fun e => { e with values := e.values.put name v }) =
      m.envs.push { e with values := e.values.put name v } := by
    refine Array.ext_getElem? fun i => ?_
    rw [Array.getElem?_modify, Array.getElem?_push, Array.getElem?_push]
    by_cases hi : m.envs.size = i
    · simp [hi]
    · simp [hi, Ne.symm hi]
  rw [defined, hmodify]

theorem readName_of_lookup? (h : m.lookup? env name = some v) (k : Nat) :
    readName env name { m with nextFunction := k } = .ok v { m with nextFunction := k } := by
  obtain ⟨home, hhome, hvalue⟩ := Option.bind_eq_some_iff.mp h
  have hlookup : lookup? { m with nextFunction := k } env name = some v := by
    have hsame : Within (fun _ => False) m { m with nextFunction := k } := .of_envs rfl
    rw [lookup?, hsame.home?_eq hhome]
    exact hvalue
  rw [readName_run, hlookup]
  rfl

theorem hoistNames_singleton (h : ((m.valuesOf env).get? name).isNone) :
    hoistNames env [name] m = .ok () (defined m env name .undefined) := by
  change (do
    if ((m.valuesOf env).get? name).isNone then define env name .undefined
    pure () : Run Unit) m = _
  rw [if_pos h]
  rfl

/-- The environment of a function that declares one variable. -/
theorem define_hoistNames (this : Value) (hname : name ≠ "this") :
    (do define m.envs.size "this" this; hoistNames m.envs.size [name] : Run Unit)
      { m with envs := m.envs.push ⟨some env, []⟩ } =
    .ok () { m with envs := m.envs.push ⟨some env, [("this", this), (name, .undefined)]⟩ } := by
  have hdefine : define m.envs.size "this" this { m with envs := m.envs.push ⟨some env, []⟩ } =
      .ok () { m with envs := m.envs.push ⟨some env, [("this", this)]⟩ } :=
    congrArg (EStateM.Result.ok ()) (defined_push m ⟨some env, []⟩ "this" this)
  have hnot : (name == "this") = false := beq_eq_false_iff_ne.mpr hname
  rw [bind_of_ok hdefine, hoistNames_singleton, defined_push]
  · simp [Fields.put, hname.symm]
  · simp [valuesOf, Fields.get?, List.lookup_cons, hnot]

theorem readProperty_call (id : Nat) (f : Callable) :
    readProperty (.function id f) (.string "call") = (do
      let id' ← newFunctionId
      return .function id' (.callOf f)) := rfl

/-- Lowered code of the older target calls a function with the current `this`. -/
theorem exprStep_expression_this (span : Span) (first : Expr) (later : List Expr) :
    exprStep .refuse (evaluator .refuse (n + 3))
      (Lower.expression .es5 span name (first :: later)) env = (do
        let _ ← newFunctionId
        let _ ← newFunctionId
        let this ← readName env "this"
        let inner ← newEnv env
        define inner "this" this
        hoistNames inner [name]
        loweredSteps (evaluator .refuse n) .var inner span name first later) := by
  let code : Closure := ⟨"", [], .statements [Lower.opening span .var name (first :: later),
    .ret span (some (Lower.value span name later))], env, false⟩
  have hcall (id : Nat) (f this : Value) :
      callValue (evaluator .refuse (n + 3)) (.function id (.callOf (.closure code))) f [this] = (do
        let inner ← newEnv env
        define inner "this" this
        hoistNames inner [name]
        loweredSteps (evaluator .refuse n) .var inner span name first later) := by
    simp only [← returned_steps]
    change (do
      let inner ← newEnv env
      define inner "this" this
      pure ()
      (do hoistNames inner [name]; pure ())
      returned (runStmts (evaluator .refuse (n + 1)) inner
        [Lower.opening span .var name (first :: later),
          .ret span (some (Lower.value span name later))])) = _
    simp only [bind_assoc, pure_bind]
  change (do
    let p ← (do
      let f ← (do
        let id ← newFunctionId
        pure (Value.function id (.closure code)))
      pure (← readProperty f (.string "call"), f))
    let args ← (do
      let this ← readName env "this"
      pure (this :: (← (pure [] : Run (List Value)))))
    callValue (evaluator .refuse (n + 3)) p.1 p.2 args) = _
  simp only [bind_assoc, pure_bind, readProperty_call, hcall]

/-- The code of an expression form runs its steps in one new environment. -/
theorem inOrder_expression (target : Target) (span : Span) (first : Expr) (later : List Expr)
    {this : Value} (hname : name ≠ "this") (hthis : target = .es5 → m.lookup? env "this" = some this) :
    InOrder m.envs.size name (stepRuns n m.envs.size first later) (entered target env name this m)
      ((evaluator .refuse (n + nesting target)).expr
        (Lower.expression target span name (first :: later)) env m) := by
  cases target with
  | es2015 =>
    have hrun : (evaluator .refuse (n + 6)).expr
        (Lower.expression .es2015 span name (first :: later)) env m =
        loweredSteps (evaluator .refuse (n + 3)) .let_ m.envs.size span name first later
          (entered .es2015 env name this m) :=
      congrFun (exprStep_expression (j := n + 3) span name first later) m
    rw [nesting, hrun]
    exact inOrder_loweredSteps .let_ span first later (by simp [entered]) rfl
  | es5 =>
    have hread := readName_of_lookup? (hthis rfl) (m.nextFunction + 2)
    have hhoist := @define_hoistNames { m with nextFunction := m.nextFunction + 2 } env name this hname
    have hrun : (evaluator .refuse (n + 7)).expr
        (Lower.expression .es5 span name (first :: later)) env m =
        loweredSteps (evaluator .refuse (n + 3)) .var m.envs.size span name first later
          (entered .es5 env name this m) := by
      refine (congrFun (exprStep_expression_this (n := n + 3) span first later) m).trans ?_
      refine (bind_of_ok hread).trans ?_
      change (do
        define m.envs.size "this" this
        hoistNames m.envs.size [name]
        loweredSteps (evaluator .refuse (n + 3)) .var m.envs.size span name first later) _ = _
      rw [← bind_assoc]
      exact bind_of_ok hhoist
    rw [nesting, hrun]
    refine inOrder_loweredSteps .var span first later (by simp [entered]) ?_
    have hnot : (name == "this") = false := beq_eq_false_iff_ne.mpr hname
    rw [Placed, home?]
    simp [entered, Fields.get?, List.lookup_cons, hnot]

/-- The statements of a declaration run its steps where they stand and store the last value. -/
theorem inOrder_declaration {place : Nat} (target : Target) (q : Qualifier) (span : Span)
    (result : String) (first : Expr) (later : List Expr) (henv : env < m.envs.size)
    (hhome : Placed (Lower.freshQualifier target q) m env name home)
    (hplace : Placed q m env result place) :
    ∃ r, InOrder home name (stepRuns n env first later) m r ∧ match r with
      | .error e m₁ => runStmts (evaluator .refuse (n + 4)) env
          (Lower.declaration target span q result name (first :: later)) m = .error e m₁
      | .ok v m₁ => runStmts (evaluator .refuse (n + 4)) env
          (Lower.declaration target span q result name (first :: later)) m =
            .ok () (defined m₁ place result v) ∧
          (defined m₁ place result v).lookup? env result = some v := by
  refine ⟨_, inOrder_loweredSteps _ span first later henv hhome, ?_⟩
  rw [runStmts_declaration]
  cases h : loweredSteps (evaluator .refuse (n + 3)) (Lower.freshQualifier target q) env span name
      first later m with
  | error e m₁ => exact bind_of_error h
  | ok v m₁ =>
    have hends := (@tame_loweredSteps env (n + 3) (fun i => q ≠ .var ∧ i = env)
      (Lower.freshQualifier target q) ?_ span name first later).ends m
    · rw [h] at hends
      obtain ⟨hdeclare, hhome, hsize⟩ := hplace.declareName (hends.leads.lt_size henv)
        (fun hq => hends.mono fun _ _ hi => absurd hq hi.1) v
      exact ⟨(bind_of_ok h).trans hdeclare, lookup?_defined hsize hhome⟩
    · refine fun hq => ⟨?_, rfl⟩
      rintro rfl
      exact hq rfl

/-- Steps run exactly once and in order, and the fresh name does not leak. The expression form runs
them in one new environment inside the one around it and adds no name to any environment that was
there. The declaration form runs them where it stands, and its result has the value of the last
one. -/
theorem lowered_steps_in_order (target : Target) (q : Qualifier) (span : Span) (name result : String)
    (first : Expr) (later : List Expr) (n : Nat) (m : Machine) (env : Nat)
    (henv : env < m.envs.size) (hname : name ≠ "this") :
    (∀ this, (target = .es5 → m.lookup? env "this" = some this) →
      InOrder m.envs.size name (stepRuns n m.envs.size first later)
        (entered target env name this m)
        ((evaluator .refuse (n + nesting target)).expr
          (Lower.expression target span name (first :: later)) env m) ∧
      Within (fun _ => False) m (finalState ((evaluator .refuse (n + nesting target)).expr
        (Lower.expression target span name (first :: later)) env m))) ∧
    ∀ home place, Placed (Lower.freshQualifier target q) m env name home →
      Placed q m env result place →
      ∃ r, InOrder home name (stepRuns n env first later) m r ∧ match r with
        | .error e m₁ => runStmts (evaluator .refuse (n + 4)) env
            (Lower.declaration target span q result name (first :: later)) m = .error e m₁
        | .ok v m₁ => runStmts (evaluator .refuse (n + 4)) env
            (Lower.declaration target span q result name (first :: later)) m =
              .ok () (defined m₁ place result v) ∧
            (defined m₁ place result v).lookup? env result = some v :=
  ⟨fun _ hthis => ⟨inOrder_expression target span first later hname hthis,
      ((frames_evaluator .refuse _).expr _ _ _).ends m⟩,
    fun _ _ hhome hplace => inOrder_declaration target q span result first later henv hhome hplace⟩

theorem hoisted_value : (match (evaluator .refuse 8).expr (Lower.expression .es5 default "$0"
      [.number default "1", .identifier default "$0"]) 0 (defined start 0 "$0" .undefined) with
    | .ok (.number (.int 1)) _ => true
    | _ => false) = true := by
  decide +kernel

/-- Within this bound both steps have their values. -/
theorem hoisted_step_in_order :
    InOrder 1 "$0" (stepRuns 1 1 (.number default "1") [.identifier default "$0"])
      (entered .es5 0 "$0" .undefined (defined start 0 "$0" .undefined))
      ((evaluator .refuse 8).expr (Lower.expression .es5 default "$0"
        [.number default "1", .identifier default "$0"]) 0 (defined start 0 "$0" .undefined)) ∧
    (∃ m, (evaluator .refuse 8).expr (Lower.expression .es5 default "$0"
      [.number default "1", .identifier default "$0"]) 0 (defined start 0 "$0" .undefined) =
        .ok (.number (.int 1)) m) ∧
    ∃ r, InOrder 0 "$0" (stepRuns 1 0 (.number default "1") [.identifier default "$0"])
      (defined start 0 "$0" .undefined) r := by
  obtain ⟨hexpression, hdeclaration⟩ := lowered_steps_in_order .es5 .const default "$0" "x"
    (.number default "1") [.identifier default "$0"] 1 (defined start 0 "$0" .undefined) 0
    (by decide) (by decide)
  obtain ⟨r, hr, -⟩ := hdeclaration 0 0 (@home?_defined_self start 0 _ _ (by decide)) rfl
  have hvalue := hoisted_value
  refine ⟨(hexpression .undefined fun _ => ?_).1, by split at hvalue <;> simp_all, r, hr⟩
  rw [lookup?, home?]
  rfl

end Forms

end StepBinding.Machine
