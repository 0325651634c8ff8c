import StepBinding.Proofs.Machine.Library

/-! Two computations that do the same on a machine and on its lowered image. Either one ends
as the image of the other, with ready data and with no fewer environments than before, or the
bound on nested computations is reached in the one that is given. Which of the two is given
is the direction of the simulation: forth from the direct run to the lowered one, or back. -/

namespace StepBinding.Machine

variable {e : Exit} {name : String}

/-- Which of two computations is known to end within its bound. -/
inductive Direction
  | forth
  | back

section Results

variable {α β : Type} {x : Run α} {f : α → Run β} {m m₁ : Machine}

/-- The machine at the end of a computation. -/
def finalState : EStateM.Result Exit Machine α → Machine
  | .ok _ m | .error _ m => m

def Exhausted (r : EStateM.Result Exit Machine α) : Prop := ∃ m, r = .error .exhausted m

/-- The given computation reaches its bound. -/
def Direction.Cut : Direction → (r s : EStateM.Result Exit Machine α) → Prop
  | forth, r, _ => Exhausted r
  | back, _, s => Exhausted s

theorem bind_of_ok {a : α} (h : x m = .ok a m₁) : (x >>= f) m = f a m₁ := by
  change EStateM.bind x f m = _
  rw [EStateM.bind, h]

theorem bind_of_error (h : x m = .error e m₁) : (x >>= f) m = .error e m₁ := by
  change EStateM.bind x f m = _
  rw [EStateM.bind, h]

theorem Exhausted.bind (h : Exhausted (x m)) : Exhausted ((x >>= f) m) := by
  obtain ⟨m₁, h⟩ := h
  exact ⟨m₁, bind_of_error h⟩

theorem Direction.Cut.bind {d : Direction} {y : Run α} {g : α → Run β} {m' : Machine}
    (h : d.Cut (x m) (y m')) : d.Cut ((x >>= f) m) ((y >>= g) m') := by
  cases d with
  | forth => exact Exhausted.bind (x := x) h
  | back => exact Exhausted.bind (x := y) h

end Results

variable {α β : Type} [Carrier α] [Holder α] [Carrier β] [Holder β] {d : Direction} {b b' : Nat}

/-- All functions of the program in the data are ready. -/
abbrev Fit {α : Type} [Holder α] (a : α) : Prop := Every (Ready : Closure → Prop) a

/-- Results of which one is the image of the other, reached from `size` environments. -/
def Agree (d : Direction) (size : Nat) (r s : EStateM.Result Exit Machine α) : Prop :=
  d.Cut r s ∨ (s = lower r ∧ Fit r ∧ size ≤ (finalState r).envs.size)

/-- A computation on machines with at least `b` environments and another on their images. -/
def Simulates (d : Direction) (b : Nat) (x y : Run α) : Prop :=
  ∀ m, Fit m → b ≤ m.envs.size → Agree d m.envs.size (x m) (y (lower m))

namespace Simulates

variable {x y : Run α} {f g : α → Run β}

theorem throw {e : Exit} (he : Fit e) : Simulates d b (throw e : Run α) (throw (lower e)) :=
  fun _ hm _ => .inr ⟨rfl, ⟨he, hm⟩, Nat.le_refl _⟩

/-- What follows may rely on how the first computation ended. -/
theorem bind_core (hx : Simulates d b x y)
    (hf : ∀ m a m₁, b ≤ m.envs.size → x m = .ok a m₁ → Fit a → Fit m₁ →
      m.envs.size ≤ m₁.envs.size →
      Agree d m₁.envs.size (f a m₁) (g (lower a) (lower m₁))) :
    Simulates d b (x >>= f) (y >>= g) := by
  intro m hm hs
  rcases hx m hm hs with hcut | ⟨hy, hready, hsize⟩
  · exact .inl hcut.bind
  · cases h : x m with
    | ok a m₁ =>
      rw [h] at hy hready hsize
      rw [bind_of_ok h, bind_of_ok hy]
      rcases hf m a m₁ hs h hready.1 hready.2 hsize with hcut | ⟨heq, hr, hs'⟩
      · exact .inl hcut
      · exact .inr ⟨heq, hr, Nat.le_trans hsize hs'⟩
    | error e m₁ =>
      rw [h] at hy hready hsize
      rw [bind_of_error h, bind_of_error hy]
      exact .inr ⟨rfl, hready, hsize⟩

theorem modifyGet {f g : Machine → α × Machine}
    (h : ∀ m, Fit m → g (lower m) = lower (f m) ∧ Fit (f m) ∧ m.envs.size ≤ (f m).2.envs.size) :
    Simulates d b (modifyGet f : Run α) (modifyGet g) := by
  intro m hm _
  obtain ⟨heq, hready, hsize⟩ := h m hm
  refine .inr ⟨?_, hready, hsize⟩
  change EStateM.Result.ok (g (lower m)).1 (g (lower m)).2 = _
  rw [heq]
  rfl

end Simulates

/-- An exit that carries no value is its own image. -/
theorem Exit.Bare.lower_eq (he : e.Bare) : lower e = e ∧ Fit e := by
  cases e with
  | thrown | returned => cases he
  | _ => exact ⟨rfl, trivial⟩

/-- Computations that do the same on a machine and on its lowered image. -/
def simulation (d : Direction) : Logic where
  Stage := Nat
  Leads b b' := b ≤ b'
  Known _ := Ready
  Judge b := Simulates d b
  refl := Nat.le_refl
  trans := Nat.le_trans
  known _ _ h := h
  mono hle h m hm hs := h m hm (Nat.le_trans hle hs)
  pure ha _ hm _ := .inr ⟨rfl, ⟨ha, hm⟩, Nat.le_refl _⟩
  throw {α _ _ b e} he := by
    have h : Simulates d b (throw e : Run α) (throw (lower e)) := .throw he.lower_eq.2
    rwa [he.lower_eq.1] at h
  bind hx hf := hx.bind_core fun _ a m₁ hs _ ha hm₁ hsize =>
    hf m₁.envs.size a (Nat.le_trans hs hsize) ha m₁ hm₁ .refl
  modifyGet henvs hlower h := .modifyGet fun m hm =>
    ⟨hlower m, h _ m .refl hm, Nat.le_of_eq (congrArg Array.size (henvs m)).symm⟩

abbrev Sim (d : Direction) (b : Nat) (x y : Run α) : Prop := (simulation d).Judge b x y

namespace Sim

variable {x y : Run α} {f g : α → Run β}

theorem throw {e : Exit} (he : Fit e) : Sim d b (throw e : Run α) (throw (lower e)) :=
  Simulates.throw he

theorem bind (hx : Sim d b x y) (hf : ∀ a, Fit a → Sim d b (f a) (g (lower a))) :
    Sim d b (x >>= f) (y >>= g) :=
  Logic.Judge.bind hx fun _ a hle ha => (simulation d).mono hle (hf a ha)

/-- An environment that exists afterwards may be used in what follows. -/
theorem bind_env {x y : Run Nat} {f g : Nat → Run β} (hx : Sim d b x y)
    (henv : ∀ m a m₁, b ≤ m.envs.size → x m = .ok a m₁ → a < m₁.envs.size)
    (hf : ∀ a b', b ≤ b' → a < b' → Sim d b' (f a) (g a)) : Sim d b (x >>= f) (y >>= g) := by
  refine Simulates.bind_core hx fun m a m₁ hs ha _ hm₁ hsize => ?_
  exact hf a m₁.envs.size (Nat.le_trans hs hsize) (henv m a m₁ hs ha) m₁ hm₁ .refl

theorem get : Sim d b (get : Run Machine) get :=
  fun _ hm _ => .inr ⟨rfl, ⟨hm, hm⟩, Nat.le_refl _⟩

end Sim

theorem sim_fail (e : Error) : Sim d b (fail e : Run α) (fail e) := .throw trivial

section Environments

variable {v : Value} {env : Nat}

theorem sim_newEnv (parent : Nat) : Sim d b (newEnv parent) (newEnv parent) := by
  refine Simulates.modifyGet fun m hm => ⟨?_, ⟨trivial, every_push hm.1 every_nil, hm.2⟩, ?_⟩
  · have h : lower (m.envs.push ⟨some parent, []⟩) = (lower m.envs).push ⟨some parent, []⟩ :=
      Array.map_push
    exact Prod.ext size_envs_lower (congrArg (fun envs => { lower m with envs }) h.symm)
  · simp only [Array.size_push]
    omega

/-- Everything that is done in a new environment is done inside of it. -/
theorem Sim.newEnv_bind {parent : Nat} {f g : Nat → Run β}
    (hf : ∀ a b', b ≤ b' → a < b' → Sim d b' (f a) (g a)) :
    Sim d b (newEnv parent >>= f) (newEnv parent >>= g) := by
  refine (sim_newEnv parent).bind_env (fun m a m₁ _ h => ?_) hf
  cases h
  simp only [Array.size_push]
  omega

theorem sim_define (hv : Fit v) : Sim d b (define env name v) (define env name (lower v)) := by
  refine Simulates.modifyGet fun m hm => ⟨congrArg (Prod.mk ()) ?_, ⟨trivial, ?_, hm.2⟩, ?_⟩
  · exact congrArg (fun envs => { lower m with envs })
      (lower_modify (g := fun e => { e with values := e.values.put name (lower v) })
        (f := fun e => { e with values := e.values.put name v })
        fun e => congrArg (Environment.mk e.parent) (put_lower e.values name v))
  · exact every_modify (f := fun e => { e with values := e.values.put name v }) hm.1
      fun e he => every_put (show Fit e.values from he) name hv
  · simp only [Array.size_modify]
    omega

theorem sim_readName (name : String) : Sim d b (readName env name) (readName env name) := by
  refine .bind .get fun m hm => ?_
  rw [lookup?_lower]
  have h := every_lookup? hm env name
  cases hv : m.lookup? env name with
  | none => exact sim_fail _
  | some v => exact .pure (h v hv)

theorem sim_assignName (hv : Fit v) :
    Sim d b (assignName env name v) (assignName env name (lower v)) := by
  refine .bind .get fun m hm => ?_
  rw [home?_lower]
  cases m.home? env name with
  | none => exact sim_fail _
  | some home => exact sim_define hv

end Environments

end StepBinding.Machine
