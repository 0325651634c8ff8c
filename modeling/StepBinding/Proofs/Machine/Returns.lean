import Mathlib.Logic.Relation
import StepBinding.Machine.Session
import StepBinding.Proofs.Machine.Frame

/-! Where a return comes from. A call catches the return of its body, so expressions and calls never
end in one. What remains are statements that run in their own right: those of the program, and those
inside them but for the bodies of functions. Nothing that is done before or between these ends in a
return. So a program that ends in a return has come, from statement to statement, to a return
statement that ends so. -/

namespace StepBinding.Machine

open Relation

/-- A statement that runs by itself, or the rest of a loop. -/
inductive Task
  | stmt (s : Stmt) (env : Nat)
  | forLoop (test update : Option Expr) (body : Stmt) (names : List String) (outer inner : Nat)
  | forOf (q : Qualifier) (name : String) (body : Stmt) (env : Nat) (items : Items) (i : Nat)

namespace Task

def run (r : Evaluator) : Task → Run Unit
  | stmt s env => r.stmt s env
  | forLoop test update body names outer inner => r.forLoop test update body names outer inner
  | forOf q name body env items i => r.forOf q name body env items i

/-- The statement that a task is about. -/
def code : Task → Stmt
  | stmt s _ | forLoop _ _ s _ _ _ | forOf _ _ s _ _ _ => s

/-- What a loop repeats. -/
def body : Task → Stmt
  | stmt (.whileLoop _ _ body) _ => body
  | t => t.code

/-- The environment of the next pass of a loop, if there is one. -/
def enter (r : Evaluator) : Task → Run (Option Nat)
  | stmt (.whileLoop _ test _) env | forLoop (some test) _ _ _ _ env => do
    return if ← holds (← r.expr test env) then some env else none
  | stmt _ _ => return none
  | forLoop none _ _ _ _ inner => return some inner
  | forOf q name _ env items i => do
    match ← itemAt items i with
    | none => return none
    | some v =>
      if q = .var then
        assignName env name v
        return some env
      let inner ← newEnv env
      define inner name v
      return some inner

/-- What a loop does after a pass: the environment it goes on in. -/
def between (r : Evaluator) : Task → Run Nat
  | forLoop _ update _ names outer inner => do
    let next ← nextPass names outer inner
    if let some e := update then
      let _ ← r.expr e next
    return next
  | _ => return 0

/-- What a loop goes on with. -/
def next (env : Nat) : Task → Task
  | forLoop test update body names outer _ => forLoop test update body names outer env
  | forOf q name body env items i => forOf q name body env items (i + 1)
  | t => t

/-- A loop as its passes. -/
def loop (r : Evaluator) (t : Task) : Run Unit := do
  match ← t.enter r with
  | none => return ()
  | some env => if ← pass (runBody r env t.body) then (t.next (← t.between r)).run r

section Equations

variable {r : Evaluator} {env : Nat}

theorem whileLoop_eq (mode : Mode) (span : Span) (test : Expr) (b : Stmt) :
    stmtStep mode r (.whileLoop span test b) env = (stmt (.whileLoop span test b) env).loop r := by
  simp only [stmtStep, loop, enter, between, bind_assoc, pure_bind]
  congr 1; funext w; congr 1; funext goes
  cases goes <;> rfl

theorem forLoop_eq (test update : Option Expr) (b : Stmt) (names : List String) (outer inner : Nat) :
    forLoopStep r test update b names outer inner
      = (forLoop test update b names outer inner).loop r := by
  unfold forLoopStep loop between
  cases test <;> cases update <;> simp only [enter, bind_assoc, pure_bind]
  · rfl
  · rfl
  all_goals
    congr 1; funext w; congr 1; funext goes
    cases goes <;> rfl

theorem forOf_eq (q : Qualifier) (name : String) (b : Stmt) (items : Items) (i : Nat) :
    forOfStep r q name b env items i = (forOf q name b env items i).loop r := by
  unfold forOfStep loop between enter
  rw [bind_assoc]
  congr 1; funext item
  cases item with
  | none => rfl
  | some v => cases q <;> simp [body, code, next, run]

end Equations

end Task

/-- A statement is a part of another one, and not of a function there. -/
inductive Part : Stmt → Stmt → Prop
  | consequent {span test c a} : Part c (.ifElse span test c a)
  | alternate {span test c a} : Part a (.ifElse span test c (some a))
  | whileBody {span test body} : Part body (.whileLoop span test body)
  | initial {span i test update body} : Part i (.forLoop span (some i) test update body)
  | loopBody {span i test update body} : Part body (.forLoop span i test update body)
  | itemBody {span q name e body} : Part body (.forOf span q name e body)
  | inBlock {span ss s} (h : s ∈ ss) : Part s (.block span ss)

/-- A task, run from a machine, comes to run another task, from another machine. -/
inductive Comes (r : Evaluator) : Task → Machine → Task → Machine → Prop
  | branch {span test c a env m b m₁ s} (h : (r.expr test env >>= holds) m = .ok b m₁)
      (hs : (if b then some c else a) = some s) :
      Comes r (.stmt (.ifElse span test c a) env) m (.stmt s env) m₁
  | pass {t m env m₁} (h : t.enter r m = .ok (some env) m₁) : Comes r t m (.stmt t.body env) m₁
  | next {t m env m₁ m₂ env' m₃} (h : t.enter r m = .ok (some env) m₁)
      (h' : pass (runBody r env t.body) m₁ = .ok true m₂) (h'' : t.between r m₂ = .ok env' m₃) :
      Comes r t m (t.next env') m₃
  | initial {span s test update body env m inner m₁} (h : newEnv env m = .ok inner m₁) :
      Comes r (.stmt (.forLoop span (some s) test update body) env) m (.stmt s inner) m₁
  | start {span init test update body env m inner m₁ names m₂} (h : newEnv env m = .ok inner m₁)
      (h' : startLoop r inner init m₁ = .ok names m₂) :
      Comes r (.stmt (.forLoop span init test update body) env) m
        (.forLoop test update body names env inner) m₂
  | items {span q name e body env m items m₁} (h : (r.expr e env >>= itemsOf) m = .ok items m₁) :
      Comes r (.stmt (.forOf span q name e body) env) m (.forOf q name body env items 0) m₁
  | inBlock {span ss s ss' env m inner m₁ m₂ m₃} (h : newEnv env m = .ok inner m₁)
      (h' : hoistFunctions inner (ss ++ s :: ss') m₁ = .ok () m₂)
      (h'' : runStmts r inner ss m₂ = .ok () m₃) :
      Comes r (.stmt (.block span (ss ++ s :: ss')) env) m (.stmt s inner) m₃

/-- A task, run from a machine within a bound, comes in some steps to run another task, from another
machine within what is left of the bound. -/
inductive Reaches (mode : Mode) : Nat → Task → Machine → Nat → Task → Machine → Prop
  | here {n t m} : Reaches mode n t m n t m
  | step {n t m t₁ m₁ k t₂ m₂} (h : Comes (evaluator mode n) t m t₁ m₁)
      (h' : Reaches mode n t₁ m₁ k t₂ m₂) : Reaches mode (n + 1) t m k t₂ m₂

/-- A computation ends in a return. -/
def Returns {α : Type} (x : Run α) (m : Machine) (v : Value) (m' : Machine) : Prop :=
  x m = .error (.returned v) m'

/-- A computation that may name anything, but ends in no return. -/
abbrev Calm {α : Type} (x : Run α) : Prop := Tame (fun _ => True) x

section Steps

variable {α β γ : Type} {x : Run α} {f : α → Run β} {m m1 m' : Machine} {v w : Value} {env n k : Nat}
  {mode : Mode} {t t' : Task} {s : Stmt} {ss : List Stmt}

theorem returns_bind (h : Returns (x >>= f) m v m') :
    Returns x m v m' ∨ ∃ a m1, x m = .ok a m1 ∧ Returns (f a) m1 v m' := by
  cases hm : x m with
  | ok a m1 => exact .inr ⟨a, m1, rfl, (bind_of_ok hm).symm.trans h⟩
  | error e m1 =>
    rw [Returns, bind_of_error hm] at h
    cases h
    exact .inl hm

theorem Calm.bind_inv (hx : Calm x) (h : Returns (x >>= f) m v m') :
    ∃ a m1, x m = .ok a m1 ∧ Returns (f a) m1 v m' :=
  (returns_bind h).resolve_left (hx.notReturned m v m')

theorem Calm.bind_bind_inv {g : β → Run γ} (hx : Calm (x >>= f))
    (h : Returns (x >>= fun a => f a >>= g) m v m') :
    ∃ b m1, (x >>= f) m = .ok b m1 ∧ Returns (g b) m1 v m' :=
  hx.bind_inv (by rwa [bind_assoc])

instance : Owned (fun _ => True) env := ⟨trivial⟩

instance : Calm (newEnv env) where
  ends m := .push m _
  notReturned _ _ _ h := by cases h

theorem calm_steps {r : Evaluator} [Frames r] (span : Span) (binding : String) (i : Nat)
    {q result es fresh} :
    Calm (stmtStep mode r (.steps span q binding result es i fresh) env) := by
  cases mode with
  | refuse => exact inferInstanceAs (Calm (fail _))
  | direct =>
    have hsteps (q : Qualifier) (name : String) : Calm (allSteps r q env name es) := inferInstance
    exact .bind (hsteps _ _) fun w => inferInstanceAs (Calm (declareName q env result w))

/-- A step binding, other than the statements it stands between, ends in no return either. -/
class Quiet (r : Evaluator) : Prop extends Frames r where
  steps : ∀ {span q binding result es i fresh env},
    Calm (r.stmt (.steps span q binding result es i fresh) env)

instance : Quiet (evaluator mode n) where
  steps := by
    intro span q binding result es i fresh env
    cases n with
    | zero => exact .throw nofun
    | succ n => exact calm_steps span binding i

variable {r : Evaluator}

theorem returns_runStmts (h : Returns (runStmts r env ss) m v m') :
    ∃ ss1 s ss2 m1, ss = ss1 ++ s :: ss2 ∧ runStmts r env ss1 m = .ok () m1 ∧
      Returns (r.stmt s env) m1 v m' := by
  induction ss generalizing m with
  | nil => cases h
  | cons s ss ih =>
    rcases returns_bind h with h | ⟨_, m1, hs, h⟩
    · exact ⟨[], s, ss, m, rfl, rfl, h⟩
    · obtain ⟨ss1, s', ss2, m2, rfl, hrun, h⟩ := ih h
      exact ⟨s :: ss1, s', ss2, m2, rfl, (bind_of_ok hs).trans hrun, h⟩

theorem Comes.part (h : Comes r t m t' m1) : t'.code = t.code ∨ Part t'.code t.code := by
  cases h with
  | @branch _ _ _ _ _ _ b _ _ _ hs =>
    cases b <;> cases hs
    · exact .inr .alternate
    · exact .inr .consequent
  | pass =>
    fun_cases Task.body t with
    | case1 => exact .inr .whileBody
    | case2 => exact .inl rfl
  | next => cases t <;> exact .inl rfl
  | initial => exact .inr .initial
  | start => exact .inr .loopBody
  | items => exact .inr .itemBody
  | inBlock => exact .inr (.inBlock List.mem_append_cons_self)

variable [hr : Quiet r]

instance : Calm (t.enter r) := by
  fun_cases Task.enter r t
  case case5 =>
    refine .bind inferInstance fun item => ?_
    split <;> infer_instance
  all_goals infer_instance

instance : Calm (t.between r) := by
  unfold Task.between
  split
  · unfold nextPass
    refine .bind inferInstance fun next => ?_
    split <;> infer_instance
  · infer_instance

theorem returns_runBody (h : Returns (runBody r env s) m v m') : Returns (r.stmt s env) m v m' := by
  cases s with
  | steps =>
    obtain ⟨inner, m1, -, h⟩ := Calm.bind_inv inferInstance h
    cases hr.steps.notReturned m1 v m' h
  | _ => exact h

theorem returns_runTop (h : Returns (runTop r env w ss) m v m') :
    ∃ ss1 s ss2 w1 m1, ss = ss1 ++ s :: ss2 ∧ runTop r env w ss1 m = .ok w1 m1 ∧
      Returns (r.stmt s env) m1 v m' := by
  fun_induction runTop r env w ss generalizing m with
  | case1 => cases h
  | case2 w span e ss ih =>
    obtain ⟨w1, m1, he, h⟩ := Calm.bind_inv inferInstance h
    obtain ⟨ss1, s, ss2, w2, m2, rfl, hrun, h⟩ := ih w1 h
    exact ⟨.expr span e :: ss1, s, ss2, w2, m2, rfl, (bind_of_ok he).trans hrun, h⟩
  | case3 w s ss hs ih =>
    rcases returns_bind h with h | ⟨_, m1, hrun, h⟩
    · exact ⟨[], s, ss, w, m, rfl, rfl, h⟩
    · obtain ⟨ss1, s', ss2, w2, m2, rfl, hlater, h⟩ := ih h
      refine ⟨s :: ss1, s', ss2, w2, m2, rfl, ?_, h⟩
      rw [runTop.eq_3 _ _ _ _ _ hs]
      exact (bind_of_ok hrun).trans hlater

theorem returns_startLoop {init : Option Stmt} (h : Returns (startLoop r env init) m v m') :
    ∃ s, init = some s ∧ Returns (r.stmt s env) m v m' := by
  unfold startLoop at h
  split at h
  · cases h
  · obtain ⟨_, _, -, h⟩ := Calm.bind_inv inferInstance h
    cases h
  · obtain ⟨_, _, -, h⟩ := Calm.bind_inv inferInstance h
    cases h
  · rename_i s _ _
    rcases returns_bind h with h | ⟨_, _, -, h⟩
    · exact ⟨s, rfl, h⟩
    · cases h

/-- A loop ends in a return if a pass does or what it goes on with. -/
theorem comes_of_loop (h : Returns (t.loop r) m v m') :
    ∃ t1 m1, Comes r t m t1 m1 ∧ Returns (t1.run r) m1 v m' := by
  obtain ⟨_ | env, m1, henter, h⟩ := Calm.bind_inv inferInstance h
  · cases h
  · rcases returns_bind h with h | ⟨_ | _, m2, hpass, h⟩
    · refine ⟨_, m1, .pass henter, returns_runBody ?_⟩
      unfold Returns pass at h
      split at h <;> cases h
      assumption
    · cases h
    · obtain ⟨env', m3, hbetween, h⟩ := Calm.bind_inv inferInstance h
      exact ⟨_, m3, .next henter hpass hbetween, h⟩

/-- One step: a statement ends in a return if it is one, or if a task that it runs does. -/
theorem comes_of_stmt (h : Returns (stmtStep mode r s env) m v m') :
    (∃ span value, s = .ret span value) ∨
    ∃ t1 m1, Comes r (.stmt s env) m t1 m1 ∧ Returns (t1.run r) m1 v m' := by
  cases s with
  | ret span value => exact .inl ⟨span, value, rfl⟩
  | ifElse span test c a =>
    right
    obtain ⟨_ | _, m1, hb, h⟩ := Calm.bind_bind_inv inferInstance h
    · cases a with
      | none => cases h
      | some s => exact ⟨.stmt s env, m1, .branch hb rfl, returns_runBody h⟩
    · exact ⟨.stmt c env, m1, .branch hb rfl, returns_runBody h⟩
  | whileLoop => exact .inr (comes_of_loop (Task.whileLoop_eq mode .. ▸ h))
  | forLoop span init test update b =>
    right
    obtain ⟨inner, m1, hnew, h⟩ := Calm.bind_inv inferInstance h
    rcases returns_bind h with h | ⟨names, m2, hstart, h⟩
    · obtain ⟨s, rfl, hs⟩ := returns_startLoop h
      exact ⟨_, m1, .initial hnew, hs⟩
    · exact ⟨_, m2, .start hnew hstart, h⟩
  | forOf span q name e b =>
    obtain ⟨items, m1, hitems, h⟩ := Calm.bind_bind_inv inferInstance h
    exact .inr ⟨_, m1, .items hitems, h⟩
  | block span ss =>
    obtain ⟨inner, m1, hnew, h⟩ := Calm.bind_inv inferInstance h
    obtain ⟨_, m2, hhoist, h⟩ := Calm.bind_inv inferInstance h
    obtain ⟨ss1, s, ss2, m3, rfl, hrun, h⟩ := returns_runStmts h
    exact .inr ⟨_, m3, .inBlock hnew hhoist hrun, h⟩
  | steps span q binding result es i => cases (calm_steps span binding i).notReturned m v m' h
  | declare span q ds =>
    cases (inferInstance : Calm (declareAll r q env ds)).notReturned m v m' h
  | expr span e =>
    obtain ⟨_, _, -, h⟩ := Calm.bind_inv inferInstance h
    cases h
  | throw_ span e =>
    obtain ⟨w, m1, -, h⟩ := Calm.bind_inv inferInstance h
    obtain ⟨_, _, -, h⟩ := Calm.bind_inv inferInstance h
    cases h
  | _ => cases h

/-- All steps: a task that ends in a return comes to a return statement that ends so. -/
theorem reaches_of_returns (h : Returns (t.run (evaluator mode n)) m v m') :
    ∃ k span value env m1, Reaches mode n t m k (.stmt (.ret span value) env) m1 ∧
      Returns ((evaluator mode k).stmt (.ret span value) env) m1 v m' := by
  induction n generalizing t m with
  | zero => cases t <;> cases h
  | succ n ih =>
    have hstep : (∃ span value env, t = .stmt (.ret span value) env) ∨
        ∃ t1 m1, Comes (evaluator mode n) t m t1 m1 ∧ Returns (t1.run (evaluator mode n)) m1 v m' := by
      cases t with
      | stmt s env =>
        refine (comes_of_stmt h).imp_left fun ⟨span, value, hs⟩ => ⟨span, value, env, ?_⟩
        rw [hs]
      | forLoop => exact .inr (comes_of_loop (Task.forLoop_eq .. ▸ h))
      | forOf => exact .inr (comes_of_loop (Task.forOf_eq .. ▸ h))
    rcases hstep with ⟨span, value, env, rfl⟩ | ⟨t1, m1, hcomes, h⟩
    · exact ⟨n + 1, span, value, env, m, .here, h⟩
    · obtain ⟨k, span, value, env, m2, hreaches, h⟩ := ih h
      exact ⟨k, span, value, env, m2, .step hcomes hreaches, h⟩

theorem Reaches.standsIn (h : Reaches mode n t m k t' m1) : ReflTransGen Part t'.code t.code := by
  induction h with
  | here => exact .refl
  | step h _ ih =>
    rcases h.part with heq | hpart
    · exact heq ▸ ih
    · exact ih.tail hpart

end Steps

/-- A program, run from a machine within a bound, comes to run a statement in an environment, from
another machine within what is left of the bound. -/
def Executes (mode : Mode) (n : Nat) (program : Module) (m : Machine) (k : Nat) (s : Stmt)
    (env : Nat) (m' : Machine) : Prop :=
  ∃ ss₁ s₁ ss₂ v m₁, program.body = ss₁ ++ s₁ :: ss₂ ∧
    (do hoist mode globalEnv program.body; runTop (evaluator mode n) globalEnv .undefined ss₁) m
      = .ok v m₁ ∧ Reaches mode n (.stmt s₁ globalEnv) m₁ k (.stmt s env) m'

/-- Neither an expression nor a call ends in a return, whatever the machine. A program that does so
executes a return statement that stands in it outside all functions, and this statement ends it. -/
theorem returns_stay_inside (mode : Mode) (n : Nat) :
    (∀ e env m v m', (evaluator mode n).expr e env m ≠ .error (.returned v) m') ∧
    (∀ f this args m v m', (evaluator mode n).call f this args m ≠ .error (.returned v) m') ∧
    ∀ program m v m', run mode n program m = .error (.returned v) m' →
      ∃ span value k env m₁, Executes mode n program m k (.ret span value) env m₁ ∧
        (∃ s ∈ program.body, ReflTransGen Part (.ret span value) s) ∧
        (evaluator mode k).stmt (.ret span value) env m₁ = .error (.returned v) m' := by
  refine ⟨fun e env => ?_, fun f this args => ?_, fun program m v m' h => ?_⟩
  · exact ((frames_evaluator mode n).expr (fun _ => True) e env).notReturned
  · exact ((frames_evaluator mode n).call (fun _ => True) f this args).notReturned
  · obtain ⟨_, m1, hhoist, h⟩ := Calm.bind_inv inferInstance h
    obtain ⟨ss1, s, ss2, w, m2, hbody, hrun, h⟩ := returns_runTop h
    obtain ⟨k, span, value, env, m3, hreaches, h⟩ := reaches_of_returns (t := .stmt s globalEnv) h
    refine ⟨span, value, k, env, m3, ⟨ss1, s, ss2, w, m2, hbody, ?_, hreaches⟩, ⟨s, ?_, ?_⟩, h⟩
    · exact (bind_of_ok hhoist).trans hrun
    · exact hbody ▸ List.mem_append_cons_self
    · exact hreaches.standsIn

/-- The call of a function that returns, and a return in a block of a loop. -/
def returning : Module :=
  ⟨default, [.function default "f" [] [.ret default (some (.number default "1"))],
    .expr default (.call default (.identifier default "f") []),
    .whileLoop default (.boolean default true) (.block default [.ret default none])]⟩

theorem returning_run : (match run .direct 8 returning start with
    | .error (.returned .undefined) _ => true
    | _ => false) = true := by
  decide +kernel

/-- The return in the loop, which has no value, is executed and ends the program. -/
theorem lone_return_executed :
    ∃ m', run .direct 8 returning start = .error (.returned .undefined) m' ∧
      ∃ span value k env m, Executes .direct 8 returning start k (.ret span value) env m ∧
        (∃ s ∈ returning.body, ReflTransGen Part (.ret span value) s) ∧
        (evaluator .direct k).stmt (.ret span value) env m = .error (.returned .undefined) m' := by
  have hreturned := returning_run
  split at hreturned
  · rename_i m' hrun
    exact ⟨m', hrun, (returns_stay_inside .direct 8).2.2 returning start .undefined m' hrun⟩
  · cases hreturned

end StepBinding.Machine
