import StepBinding.Proofs.Machine.Frame

/-! Expressions that change a property: assignments with an operator, and steps up or down. They
evaluate the object and the key of the property twice, before the property is read and again before
it is written. So all that the object and the key do is done twice, and the property that is written
need not be the one that was read. It is the same one, as if the target was evaluated once, where the
second evaluation changes nothing and gives what the first one gave. -/

namespace StepBinding

def Expr.isProperty : Expr → Bool
  | .member .. | .index .. => true
  | _ => false

/-- Names and literals. -/
def Expr.isFixed : Expr → Bool
  | .identifier .. | .this .. | .number .. | .string .. | .boolean .. | .null .. => true
  | _ => false

/-- A property of a name or a literal whose key is one too. -/
def Expr.isFixedProperty : Expr → Bool
  | .member _ o _ => o.isFixed
  | .index _ o i => o.isFixed && i.isFixed
  | _ => false

/-- A step up or down, or an assignment of a name or a literal. -/
def Expr.isFixedChange : Expr → Bool
  | .update .. => true
  | .assign _ _ _ e => e.isFixed
  | _ => false

namespace Machine

/-- The object and the key of a property, evaluated in this order. -/
def objectAndKey (r : Evaluator) (env : Nat) : Expr → Run (Value × Value)
  | .member _ o name => return (← r.expr o env, .string name)
  | .index _ o i => do
    let object ← r.expr o env
    return (object, ← r.expr i env)
  | _ => fail .badTarget

/-- The target of an expression that changes it, and what is made of the value that is read: the value
that is stored and the one that the expression gives. -/
def change? (r : Evaluator) (env : Nat) : Expr → Option (Expr × (Value → Run (Value × Value)))
  | .update _ op leading target => some (target, fun v => do
      let old ← numberOf v
      let new ← known (match op with
        | .increment => old.add (.int 1)
        | .decrement | .other _ => old.sub (.int 1))
      return (.number new, .number (if leading then new else old)))
  | .assign _ target op e => op.operator?.map fun op => (target, fun v => do
      let w ← binary op v (← r.expr e env)
      return (w, w))
  | _ => none

/-- A change of a property whose object and key are evaluated a second time, by `again`, before the
property is written. -/
def changeWith (first : Run (Value × Value)) (change : Value → Run (Value × Value))
    (again : Value × Value → Run (Value × Value)) : Run Value := do
  let read ← first
  let stored ← change (← readProperty read.1 read.2)
  let written ← again read
  writeProperty written.1 written.2 stored.1
  return stored.2

theorem exists_of_bind_ok {α β : Type} {x : Run α} {f : α → Run β} {m m₂ : Machine} {b : β}
    (h : (x >>= f) m = .ok b m₂) : ∃ a m₁, x m = .ok a m₁ ∧ f a m₁ = .ok b m₂ := by
  cases hx : x m with
  | error exit m₁ => rw [bind_of_error hx] at h; cases h
  | ok a m₁ => exact ⟨a, m₁, rfl, by rwa [bind_of_ok hx] at h⟩

/-- If it ends well, the environments are as before. -/
def Steady {α : Type} (x : Run α) : Prop :=
  ∀ m a m', x m = .ok a m' → m'.envs = m.envs

namespace Steady

variable {α β : Type} {x : Run α} {f : α → Run β}

theorem pure {a : α} : Steady (pure a) := fun _ _ _ h => by cases h; rfl

theorem bind (hx : Steady x) (hf : ∀ a, Steady (f a)) : Steady (x >>= f) := by
  intro m b m₂ h
  obtain ⟨a, m₁, h1, h2⟩ := exists_of_bind_ok h
  exact (hf a m₁ b m₂ h2).trans (hx m a m₁ h1)

/-- The library changes no environments. -/
def logic : Logic where
  Stage := Unit
  Leads _ _ := True
  Known _ _ := True
  Judge _ _ _ _ x _ := Steady x
  refl _ := trivial
  trans _ _ := trivial
  known _ _ := id
  mono _ h := h
  pure _ := .pure
  throw _ _ _ _ h := by cases h
  bind hx hf := .bind hx fun a => hf () a trivial (Holder.all a)
  modifyGet henvs _ _ m _ _ h := by cases h; exact henvs m

theorem library [Carrier α] [Holder α] {y : Run α} (h : logic.Judge () x y) : Steady x := h

end Steady

section Changes

variable {mode : Mode} {n env : Nat} {e target : Expr} {change : Value → Run (Value × Value)}
  {m m₁ : Machine} {v : Value}

theorem expr_property (hp : target.isProperty) :
    (evaluator mode (n + 1)).expr target env =
      objectAndKey (evaluator mode n) env target >>= fun p => readProperty p.1 p.2 := by
  change exprStep mode (evaluator mode n) target env = _
  cases target with
  | member | index => simp only [exprStep, objectAndKey, bind_assoc, pure_bind]
  | _ => cases hp

theorem assign_property (r : Evaluator) (hp : target.isProperty) (v : Value) :
    assign r env target v = objectAndKey r env target >>= fun p => writeProperty p.1 p.2 v := by
  cases target with
  | member | index => simp only [assign, objectAndKey, bind_assoc, pure_bind]
  | _ => cases hp

theorem expr_change (hc : change? (evaluator mode (n + 1)) env e = some (target, change))
    (hp : target.isProperty) :
    (evaluator mode (n + 2)).expr e env = changeWith (objectAndKey (evaluator mode n) env target)
      change fun _ => objectAndKey (evaluator mode (n + 1)) env target := by
  change exprStep mode (evaluator mode (n + 1)) e env = _
  unfold changeWith
  cases e with
  | update span op leading t =>
    cases hc
    cases op <;>
      simp only [exprStep, expr_property hp, assign_property _ hp, bind_assoc, pure_bind]
  | assign span t op e =>
    obtain ⟨op', hop, hpair⟩ := Option.map_eq_some_iff.mp hc
    cases hpair
    simp only [exprStep, hop, expr_property hp, assign_property _ hp, bind_assoc, pure_bind]
  | _ => cases hc

/-- If the object and the key are there again when they are evaluated again, and nothing is changed by
that, they might have been kept. -/
theorem changeWith_of_repeats {first again : Run (Value × Value)}
    (h : ∀ p m₁ v m₂ stored m₃, first m = .ok p m₁ → readProperty p.1 p.2 m₁ = .ok v m₂ →
      change v m₂ = .ok stored m₃ → again m₃ = .ok p m₃) :
    changeWith first change (fun _ => again) m = changeWith first change pure m := by
  unfold changeWith
  cases hfirst : first m with
  | error exit m₁ => rw [bind_of_error hfirst, bind_of_error hfirst]
  | ok p m₁ =>
    rw [bind_of_ok hfirst, bind_of_ok hfirst]
    cases hread : readProperty p.1 p.2 m₁ with
    | error exit m₂ => rw [bind_of_error hread, bind_of_error hread]
    | ok v m₂ =>
      rw [bind_of_ok hread, bind_of_ok hread]
      cases hchange : change v m₂ with
      | error exit m₃ => rw [bind_of_error hchange, bind_of_error hchange]
      | ok stored m₃ =>
        rw [bind_of_ok hchange, bind_of_ok hchange,
          bind_of_ok (h p m₁ v m₂ stored m₃ hfirst hread hchange), pure_bind]

theorem lookup?_of_envs {name : String} (henvs : m₁.envs = m.envs)
    (h : m.lookup? env name = some v) : m₁.lookup? env name = some v := by
  obtain ⟨home, hhome, hvalue⟩ := Option.bind_eq_some_iff.mp h
  refine Option.bind_eq_some_iff.mpr ⟨home, (Within.of_envs henvs).home?_eq hhome, ?_⟩
  rwa [valuesOf, henvs]

/-- A name or a literal gives the same value in the same environments, and changes nothing. -/
theorem expr_fixed (he : e.isFixed) (h : (evaluator mode n).expr e env m = .ok v m₁) :
    m₁ = m ∧ ∀ m₂ : Machine, m₂.envs = m.envs →
      (evaluator mode (n + 1)).expr e env m₂ = .ok v m₂ := by
  cases n with
  | zero => cases h
  | succ n =>
    have hname (name : String) (h : readName env name m = .ok v m₁) : m₁ = m ∧
        ∀ m₂ : Machine, m₂.envs = m.envs → readName env name m₂ = .ok v m₂ := by
      rw [readName_run] at h
      cases hlookup : m.lookup? env name with
      | none => rw [hlookup] at h; cases h
      | some w =>
        rw [hlookup] at h
        cases h
        exact ⟨rfl, fun m₂ henvs => by rw [readName_run, lookup?_of_envs henvs hlookup]; rfl⟩
    change exprStep mode (evaluator mode n) e env m = .ok v m₁ at h
    change m₁ = m ∧ ∀ m₂ : Machine, m₂.envs = m.envs →
      exprStep mode (evaluator mode (n + 1)) e env m₂ = .ok v m₂
    cases e with
    | identifier span name => exact hname name h
    | this span => exact hname "this" h
    | number span text =>
      simp only [exprStep] at h ⊢
      cases hn : Number.ofLiteral text with
      | error f => rw [hn] at h; cases h
      | ok k => rw [hn] at h; cases h; exact ⟨rfl, fun _ _ => rfl⟩
    | string | boolean | null => cases h; exact ⟨rfl, fun _ _ => rfl⟩
    | _ => cases he

theorem objectAndKey_fixed {p : Value × Value} (ht : target.isFixedProperty)
    (h : objectAndKey (evaluator mode n) env target m = .ok p m₁) :
    m₁ = m ∧ ∀ m₂ : Machine, m₂.envs = m.envs →
      objectAndKey (evaluator mode (n + 1)) env target m₂ = .ok p m₂ := by
  unfold objectAndKey at h
  cases target with
  | member span o name =>
    obtain ⟨w, m', ho, hpair⟩ := exists_of_bind_ok h
    obtain ⟨rfl, hobject⟩ := expr_fixed ht ho
    cases hpair
    exact ⟨rfl, fun m₂ henvs => bind_of_ok (hobject m₂ henvs)⟩
  | index span o i =>
    obtain ⟨hto, hti⟩ := Bool.and_eq_true_iff.mp ht
    obtain ⟨w, m', ho, hrest⟩ := exists_of_bind_ok h
    obtain ⟨rfl, hobject⟩ := expr_fixed hto ho
    obtain ⟨k, m'', hi, hpair⟩ := exists_of_bind_ok hrest
    obtain ⟨rfl, hkey⟩ := expr_fixed hti hi
    cases hpair
    exact ⟨rfl, fun m₂ henvs => (bind_of_ok (hobject m₂ henvs)).trans (bind_of_ok (hkey m₂ henvs))⟩
  | _ => cases ht

/-- What is made of the value that is read is no matter of the environments. -/
theorem steady_change (hc : change? (evaluator mode (n + 1)) env e = some (target, change))
    (he : e.isFixedChange) (v : Value) : Steady (change v) := by
  cases e with
  | update span op leading t =>
    cases hc
    exact .bind (.library (judge_numberOf v)) fun old => .bind (.library (.known _)) fun new => .pure
  | assign span t op e =>
    obtain ⟨op', hop, hpair⟩ := Option.map_eq_some_iff.mp hc
    cases hpair
    refine .bind (fun m w m' h => congrArg envs (expr_fixed he h).1) fun w => ?_
    exact .bind (.library (judge_binary op' (Holder.all v) (Holder.all w))) fun _ => .pure
  | _ => cases hc

/-- The object and the key of a property that is changed are evaluated before the property is read and
again before it is written. If the second time nothing happens and they are the same, this is as if they
were evaluated once; so it is if they and the right side are names and literals. -/
theorem targets_evaluated_twice
    (hc : change? (evaluator mode (n + 1)) env e = some (target, change))
    (hp : target.isProperty = true) :
    (evaluator mode (n + 2)).expr e env = changeWith (objectAndKey (evaluator mode n) env target)
      change (fun _ => objectAndKey (evaluator mode (n + 1)) env target) ∧
    (∀ m, (∀ p m₁ v m₂ stored m₃, objectAndKey (evaluator mode n) env target m = .ok p m₁ →
        readProperty p.1 p.2 m₁ = .ok v m₂ → change v m₂ = .ok stored m₃ →
        objectAndKey (evaluator mode (n + 1)) env target m₃ = .ok p m₃) →
      (evaluator mode (n + 2)).expr e env m =
        changeWith (objectAndKey (evaluator mode n) env target) change pure m) ∧
    (e.isFixedChange = true → target.isFixedProperty = true → (evaluator mode (n + 2)).expr e env =
      changeWith (objectAndKey (evaluator mode n) env target) change pure) := by
  have hrun := expr_change hc hp
  have honce := fun m h => (congrFun hrun m).trans (changeWith_of_repeats (m := m) h)
  refine ⟨hrun, honce, fun hchanges hfixed => funext fun m => honce m ?_⟩
  intro p m₁ v m₂ stored m₃ hfirst hread hchange
  obtain ⟨rfl, hagain⟩ := objectAndKey_fixed hfixed hfirst
  exact hagain m₃ ((steady_change hc hchanges v _ _ _ hchange).trans
    (Steady.library (judge_readProperty (Holder.all p.1) p.2) _ _ _ hread))

end Changes

section Repeated

/-- The first element of an array that is made anew, with a line of output. -/
def loggedElement : Expr :=
  .index default (.sequence default [.call default (.member default (.identifier default "console")
    "log") [.string default "made"], .array default [.number default "1"]]) (.number default "0")

def loggedStep : Expr := .update default .increment false loggedElement

def loggedSum : Expr := .assign default loggedElement (.compound .add) (.number default "2")

theorem logged_step_repeats :
    ∃ change, change? (evaluator .refuse 8) globalEnv loggedStep = some (loggedElement, change) ∧
      loggedElement.isProperty = true ∧
      (evaluator .refuse 9).expr loggedStep globalEnv =
        changeWith (objectAndKey (evaluator .refuse 7) globalEnv loggedElement) change
          fun _ => objectAndKey (evaluator .refuse 8) globalEnv loggedElement :=
  ⟨_, rfl, rfl, (targets_evaluated_twice rfl rfl).1⟩

def outputOf {α : Type} (x : Run α) (m : Machine) : Array String :=
  match x m with
  | .ok _ m' => m'.output
  | .error _ m' => m'.output

/-- One change of a property makes the object of the property twice. -/
theorem made_twice :
    outputOf (objectAndKey (evaluator .refuse 7) globalEnv loggedElement) start = #["made"] ∧
      ∀ e ∈ [loggedStep, loggedSum],
        outputOf ((evaluator .refuse 9).expr e globalEnv) start = #["made", "made"] := by
  decide +kernel

end Repeated

end Machine

end StepBinding
