import StepBinding.Proofs.Compile.Records
import StepBinding.Proofs.Machine.Lowering
import StepBinding.Proofs.Resolve.Form

/-! Lowering preserves meaning. The step bindings of a resolved module can be run directly, or
they can be lowered first and run as plain code. Both runs end within some bound, or neither
does, and they end alike: the lowered run stops in the lowered image of the machine in which
the direct run stops. So they log the same lines and end with the same value or exit. -/

namespace StepBinding

open List StepBinding.Tree Node

variable {program : Module} {ss : List Stmt}

namespace Machine

variable {r : EStateM.Result Exit Machine Value}

section Programs

variable {d : Direction} {b env n j : Nat} {r r' : Evaluator} {v : Value}

/-- Statements that are no expressions do not count for the value of a program. -/
theorem runTop_append (hss : ∀ s ∈ ss, ∀ span e, s ≠ .expr span e) (ts : List Stmt) :
    runTop r env v (ss ++ ts) = (do runStmts r env ss; runTop r env v ts) := by
  induction ss with
  | nil => exact (pure_bind () fun _ => runTop r env v ts).symm
  | cons s ss ih =>
    obtain ⟨hs, hss⟩ := forall_mem_cons.mp hss
    have hstep : runTop r env v (s :: ss ++ ts) = (do r.stmt s env; runTop r env v (ss ++ ts)) := by
      cases s with
      | expr span e => exact absurd rfl (hs span e)
      | _ => rfl
    rw [hstep, ih hss]
    exact (bind_assoc ..).symm

theorem stmt_ne_expr {s : Stmt} (hs : ∀ span e, s ≠ .expr span e) :
    ∀ s' ∈ Lower.stmt .es2015 s, ∀ span e, s' ≠ .expr span e := by
  intro s' hs' span e
  cases s with
  | expr span' e' => exact absurd rfl (hs span' e')
  | steps =>
    rcases mem_cons.mp hs' with rfl | hs'
    · exact nofun
    · cases mem_singleton.mp hs'
      exact nofun
  | rejected => cases hs'
  | ret _ value =>
    cases value <;> cases mem_singleton.mp hs' <;> exact nofun
  | ifElse _ _ _ alternate =>
    cases alternate <;> cases mem_singleton.mp hs' <;> exact nofun
  | forLoop =>
    rw [Lower.stmt_forLoop] at hs'
    cases mem_singleton.mp hs'
    exact nofun
  | _ =>
    cases mem_singleton.mp hs'
    exact nofun

theorem sim_runTop (hr : EvalSim d r r') (henv : env < b) (h : AllStmts Node.Ready ss) (hv : Fit v) :
    Sim d b (runTop r env v ss) (runTop r' env (lower v) (Lower.stmts .es2015 ss)) := by
  induction ss generalizing v with
  | nil => exact .pure hv
  | cons s ss ih =>
    change Sim d b _ (runTop r' env (lower v) (Lower.stmt .es2015 s ++ Lower.stmts .es2015 ss))
    have hother (hs : ∀ span e, s ≠ .expr span e)
        (hstep : runTop r env v (s :: ss) = (do r.stmt s env; runTop r env v ss)) :
        Sim d b (runTop r env v (s :: ss))
          (runTop r' env (lower v) (Lower.stmt .es2015 s ++ Lower.stmts .es2015 ss)) := by
      rw [runTop_append (stmt_ne_expr hs), hstep]
      exact .bind_plain (hr.stmt h.1 henv) fun _ => ih h.2 hv
    cases s with
    | expr span e =>
      have hexpr : Sim d b (runTop r env v (.expr span e :: ss)) (runTop r' env (lower v)
          (.expr span (Lower.expr .es2015 e) :: Lower.stmts .es2015 ss)) :=
        Sim.bind (hr.expr h.1.2 henv) fun u hu => ih h.2 hu
      cases e with
      | rejected => exact h.1.2.elim
      | _ => exact hexpr
    | _ => exact hother (by rintro _ _ ⟨⟩) rfl

/-- Running a module directly and running the lowered module. -/
theorem sim_run (h : AllStmts Node.Ready program.body) (hroom : Room d n 0 j) :
    Sim d 1 (run .direct n program) (run .refuse j (Lower.module .es2015 program)) :=
  .bind_plain (sim_hoist h) fun _ =>
    sim_runTop (v := .undefined) (evaluator_sim n j hroom) Nat.zero_lt_one h trivial

end Programs

section Start

/-- A value without code. -/
def isPlain : Value → Bool
  | .function _ (.builtin _) => true
  | .function .. => false
  | _ => true

theorem plain_value {v : Value} (h : isPlain v) : lower v = v := by
  cases v with
  | function id f => cases f <;> first | rfl | cases h
  | _ => rfl

theorem plain_fields {fs : Fields} (h : fs.all fun f => isPlain f.2) : lower fs = fs := by
  rw [all_eq_true] at h
  exact (map_congr_left fun f hf => congrArg (Prod.mk f.1) (plain_value (h f hf))).trans
    (map_id fs)

/-- The machine holds no code before anything has run. -/
theorem lower_start : lower start = start := by
  have hlower := plain_fields (show (globals.all fun f => isPlain f.2) = true from rfl)
  have hall : ∀ fs ∈ libraries.map (·.2), lower fs = fs := by
    intro fs hfs
    refine plain_fields ?_
    have hplain : (libraries.map (·.2)).all fun fs => fs.all fun f => isPlain f.2 := rfl
    exact all_eq_true.mp hplain fs hfs
  have hobjects : lower (libraries.map (·.2)) = libraries.map (·.2) :=
    (map_congr_left fun fs hfs => hall fs hfs).trans (map_id _)
  have henvs : lower start.envs = start.envs := (lower_toArray [Environment.mk none globals]).trans
    (congrArg (fun fs => [Environment.mk none fs].toArray) hlower)
  have harrays : lower start.arrays = start.arrays := lower_toArray []
  have hobjects : lower start.objects = start.objects :=
    (lower_toArray _).trans (congrArg List.toArray hobjects)
  change { start with envs := lower start.envs, arrays := lower start.arrays,
                      objects := lower start.objects } = start
  rw [henvs, harrays, hobjects]

end Start

section Outcomes

/-- What can be seen of a value. -/
structure View where
  type : String
  text : Except Number.Fault String
  display : Except Number.Fault String
  json : Except Number.Fault (Option String)

def view (m : Machine) (v : Value) : View := ⟨v.typeName, m.text v, m.display v, m.json? v⟩

/-- What can be seen of the end of a run. -/
inductive Ending
  | value (v : View)
  | thrown (v : View) (shown : String)
  | returned (v : View)
  | stopped (e : Exit)

/-- The lines that a run logged, in order, and its end. -/
structure Outcome where
  lines : List String
  ending : Ending

def observe : EStateM.Result Exit Machine Value → Outcome
  | .ok v m => ⟨m.output.toList, .value (m.view v)⟩
  | .error (.thrown v shown) m => ⟨m.output.toList, .thrown (m.view v) shown⟩
  | .error (.returned v) m => ⟨m.output.toList, .returned (m.view v)⟩
  | .error e m => ⟨m.output.toList, .stopped e⟩

/-- A program ends with a result, nested no deeper than some bound. -/
def Ends (mode : Mode) (program : Module) (r : EStateM.Result Exit Machine Value) : Prop :=
  ∃ bound, run mode bound program start = r ∧ ¬Exhausted r

/-- A program ends with an outcome. -/
def EndsWith (mode : Mode) (program : Module) (o : Outcome) : Prop :=
  ∃ r, Ends mode program r ∧ observe r = o

theorem view_lower (m : Machine) (v : Value) : (lower m).view (lower v) = m.view v := by
  unfold view
  rw [typeName_lower, text_lower, display_lower, json?_lower]

/-- Code cannot be seen. -/
theorem observe_lower (r : EStateM.Result Exit Machine Value) : observe (lower r) = observe r := by
  cases r with
  | ok v m => exact congrArg (fun view => Outcome.mk m.output.toList (.value view)) (view_lower m v)
  | error e m =>
    cases e with
    | thrown v shown =>
      exact congrArg (fun view => Outcome.mk m.output.toList (.thrown view shown)) (view_lower m v)
    | returned v =>
      exact congrArg (fun view => Outcome.mk m.output.toList (.returned view)) (view_lower m v)
    | _ => rfl

theorem exhausted_lower : Exhausted (lower r) ↔ Exhausted r := by
  constructor
  · rintro ⟨m, h⟩
    cases r with
    | ok v m' => cases h
    | error e m' => cases e <;> first | exact ⟨m', rfl⟩ | cases h
  · rintro ⟨m, rfl⟩
    exact ⟨lower m, rfl⟩

theorem agree_run {d : Direction} {n j : Nat} (h : AllStmts Node.Ready program.body)
    (hroom : Room d n 0 j) :
    Agree d start.envs.size (run .direct n program start)
      (run .refuse j (Lower.module .es2015 program) start) := by
  have hsim := sim_run h hroom start every_start (Nat.le_refl 1)
  rwa [lower_start] at hsim

/-- The results of lowered code are the images of the direct results. -/
theorem ends_lower_iff (h : AllStmts Node.Ready program.body) :
    Ends .refuse (Lower.module .es2015 program) r ↔ ∃ r', Ends .direct program r' ∧ lower r' = r := by
  constructor
  · rintro ⟨j, rfl, hends⟩
    rcases agree_run (d := .back) h (Nat.le_refl j) with hcut | ⟨heq, -⟩
    · exact absurd hcut hends
    · refine ⟨_, ⟨j, rfl, fun hex => hends ?_⟩, heq.symm⟩
      rw [heq]
      exact exhausted_lower.mpr hex
  · rintro ⟨r', ⟨n, rfl, hends⟩, rfl⟩
    rcases agree_run (d := .forth) h (Nat.le_refl (6 * n)) with hcut | ⟨heq, -⟩
    · exact absurd hcut hends
    · exact ⟨6 * n, heq, fun hex => hends (exhausted_lower.mp hex)⟩

theorem endsWith_lower_iff (h : AllStmts Node.Ready program.body) {o : Outcome} :
    EndsWith .refuse (Lower.module .es2015 program) o ↔ EndsWith .direct program o := by
  constructor
  · rintro ⟨r, hends, ho⟩
    obtain ⟨r', hends', rfl⟩ := (ends_lower_iff h).mp hends
    exact ⟨r', hends', (observe_lower r').symm.trans ho⟩
  · rintro ⟨r, hends, ho⟩
    exact ⟨lower r, (ends_lower_iff h).mpr ⟨r, hends, rfl⟩, (observe_lower r).trans ho⟩

end Outcomes

end Machine

theorem Node.Kept.ready {N : String → Prop} {n : Node} (h : n.Kept N True) : n.Ready := by
  have hkept := h.2 trivial
  cases n with
  | expr e =>
    cases e with
    | rejected => cases hkept
    | steps => exact h.1.2.2
    | _ => trivial
  | stmt s =>
    cases s with
    | rejected => cases hkept
    | steps => exact h.1.2.2.2
    | forLoop => exact h.1
    | _ => trivial
  | _ => trivial

namespace Compile

open Machine

variable {settings : LowerSettings} {file text : String} {source : Source} {result : Result}
  {resolved : Resolved}

/-- A module that was read and resolved without an error can be lowered without loss. -/
theorem ready_of_resolve (hsound : source.Sound) (hcalm : source.Calm)
    (h : resolve settings source = .ok resolved)
    (hresolved : ∀ d ∈ resolved.diagnostics, d.isError = false) :
    AllStmts Node.Ready resolved.module.body := by
  obtain ⟨hmodule, hdiagnostics, -⟩ := Resolved.ofModule_eq_ok h
  rw [hdiagnostics] at hresolved
  rw [hmodule]
  have hkept : AllStmts (Kept (fun _ => True) True) source.module.body :=
    hsound.written.imp fun n hn => Written.kept ⟨hn.1, fun _ => hn.2 hcalm⟩ fun _ _ => trivial
  exact (Resolved.kept_visit hkept (fun _ _ => trivial) fun _ => hresolved).imp fun n hn => hn.ready

/-- Lowering preserves meaning: of a program without errors, the lowered module ends with an outcome
if and only if the resolved module, run directly, ends with it. More exactly, the results of the
lowered module are the images of the direct results. -/
theorem lowered_ends_iff (h : transform settings file text = .ok result) (hok : result.isOk = true)
    (htarget : settings.target = "es2015") :
    ∃ source resolved, read file text = .ok (.ok source) ∧ resolve settings source = .ok resolved ∧
      result.module = some (Lower.module .es2015 resolved.module) ∧
      (∀ r, Ends .refuse (Lower.module .es2015 resolved.module) r ↔
        ∃ r', Ends .direct resolved.module r' ∧ Machine.lower r' = r) ∧
      ∀ o, EndsWith .refuse (Lower.module .es2015 resolved.module) o ↔
        EndsWith .direct resolved.module o := by
  obtain ⟨source, hread, hlower, hsound⟩ := source_of_isOk h hok
  obtain ⟨target, resolved, log, hparts⟩ := lowers_of_ok hsound hlower
  have htarget : target = .es2015 := by
    have heq := hparts.target_eq
    rw [htarget] at heq
    cases heq
    rfl
  subst htarget
  have hcalm (d : Diagnostic) (hd : d ∈ source.diagnostics ∨ d ∈ resolved.diagnostics) :
      d.isError = false := isOk_iff.mp hok d ((hparts.mem_diagnostics d).mpr hd)
  have hready := ready_of_resolve hsound (fun d hd => hcalm d (.inl hd)) hparts.resolved_eq
    fun d hd => hcalm d (.inr hd)
  exact ⟨source, resolved, hread, hparts.resolved_eq, hparts.module_eq,
    fun r => ends_lower_iff hready, fun o => endsWith_lower_iff hready⟩

/-- A program with two steps that logs their sum. -/
def sumText : String := "let(a)b=1,a+1;console.log(b);"

theorem sum_run : (match transform {} "sum" sumText with
    | .ok ⟨_, some lowered, ds, _⟩ => ds.isEmpty && (match run .refuse 40 lowered start with
      | .ok _ m => m.output.toList == ["2"]
      | .error .. => false)
    | _ => false) = true := by
  decide +kernel

/-- The lowered program logs the sum of the two steps, and so does the program that is run directly. -/
theorem sum_logged :
    ∃ source resolved, read "sum" sumText = .ok (.ok source) ∧ resolve {} source = .ok resolved ∧
      ∃ o, EndsWith .direct resolved.module o ∧ o.lines = ["2"] := by
  have hrun := sum_run
  split at hrun
  · rename_i code lowered ds records htransform
    obtain ⟨hds, hrun⟩ := Bool.and_eq_true_iff.mp hrun
    have hok : Result.isOk ⟨code, some lowered, ds, records⟩ = true := by
      rw [isOk_iff, List.isEmpty_iff.mp hds]
      exact List.forall_mem_nil _
    obtain ⟨source, resolved, hread, hresolved, hlowered, -, hiff⟩ :=
      lowered_ends_iff htransform hok rfl
    cases hlowered
    split at hrun
    · rename_i v m hends
      refine ⟨source, resolved, hread, hresolved, observe (.ok v m), (hiff _).mp ?_, eq_of_beq hrun⟩
      exact ⟨_, ⟨40, hends, by rintro ⟨_, ⟨⟩⟩⟩, rfl⟩
    · cases hrun
  · cases hrun

end Compile

end StepBinding
