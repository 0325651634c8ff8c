import StepBinding.Proofs.Machine.Environments
import StepBinding.Proofs.Machine.Library
import StepBinding.Proofs.Tree.Scoped

/-! A name that is known where it is used is defined when it is used. Environments only gain names and
never move, so a name that can be seen from an environment can be seen from it at any later time.
All functions on a machine are made where the code in them is known to be scoped, and they keep
the environment of that place. This is an invariant of every computation, and with it no use of the
name ends in the error that it is not defined. -/

namespace StepBinding.Machine

open StepBinding.Tree

variable {name : String} {m : Machine} {α : Type}

/-- The environment exists, and if the proposition holds the name can be seen from it. -/
def Sees (name : String) (m : Machine) (env : Nat) (known : Prop) : Prop :=
  env < m.envs.size ∧ (known → (m.home? env name).isSome = true)

namespace Sees

variable {m₁ : Machine} {env : Nat} {known more : Prop}

theorem mono (h : Sees name m env known) (hle : m.Leads m₁) : Sees name m₁ env known :=
  ⟨hle.lt_size h.1, fun hk => hle.isSome_home? (h.2 hk)⟩

theorem or (h : Sees name m env known) (h' : Sees name m env more) : Sees name m env (known ∨ more) :=
  ⟨h.1, fun hk => hk.elim h.2 h'.2⟩

theorem imp (h : Sees name m env known) (hk : more → known) : Sees name m env more :=
  ⟨h.1, fun hm => h.2 (hk hm)⟩

end Sees

/-- The code of a function uses the name only where it is known. -/
def ScopedCode (name : String) (known : Prop) : Body → Prop
  | .statements ss => ScopedBody name known ss
  | .expression e => ScopedExpr name known e

/-- The function was made where what its code relies on can be seen. -/
def Knowing (name : String) (m : Machine) (c : Closure) : Prop :=
  ∃ known, Sees name m c.env known ∧ ScopedCode name known c.body

/-- All functions in the data are such functions. -/
def Fine (name : String) {α : Type} [Holder α] (m : Machine) (a : α) : Prop :=
  Every (Knowing name m) a

theorem Fine.mono [Holder α] {m₁ : Machine} {a : α} (h : Fine name m a) (hle : m.Leads m₁) :
    Fine name m₁ a :=
  Holder.imp (fun _ ⟨known, hs, hc⟩ => ⟨known, hs.mono hle, hc⟩) h

theorem fine_undefined : Fine name m Value.undefined := trivial

/-- An exit other than the error that the name is not defined. -/
def Harmless (name : String) (m : Machine) : Exit → Prop
  | .error (.notDefined x) => x ≠ name
  | .returned v => Fine name m v
  | _ => True

theorem Exit.Bare.harmless {e : Exit} (h : e.Bare) : Harmless name m e := by
  cases e with
  | error e =>
    cases e with
    | notDefined x => cases h
    | _ => trivial
  | returned v => cases h
  | _ => trivial

section Safe

variable {β : Type}

/-- How a computation on a machine may end: later, with the invariant kept and the condition on its
answer, or with a harmless exit. -/
def SafeEnd (name : String) (m : Machine) (Q : Machine → α → Prop) :
    EStateM.Result Exit Machine α → Prop
  | .ok a m' => m.Leads m' ∧ Fine name m' m' ∧ Q m' a
  | .error e m' => m.Leads m' ∧ Fine name m' m' ∧ Harmless name m' e

/-- The computation keeps the invariant on every machine from the given one on. -/
def Safe (name : String) (m : Machine) (x : Run α) (Q : Machine → α → Prop) : Prop :=
  ∀ m₁, m.Leads m₁ → Fine name m₁ m₁ → SafeEnd name m₁ Q (x m₁)

/-- A condition that every answer meets. -/
abbrev Any : Machine → α → Prop := fun _ _ => True

namespace Safe

variable {m₁ : Machine} {x : Run α} {f : α → Run β} {Q Q' : Machine → α → Prop}
  {R : Machine → β → Prop}

theorem mono (h : Safe name m x Q) (hle : m.Leads m₁) : Safe name m₁ x Q :=
  fun m₂ hle₂ => h m₂ (hle.trans hle₂)

theorem imp (h : Safe name m x Q) (hQ : ∀ m' a, m.Leads m' → Q m' a → Q' m' a) :
    Safe name m x Q' := by
  intro m₁ hle hm₁
  have hends := h m₁ hle hm₁
  cases hx : x m₁ with
  | ok a m₂ =>
    rw [hx] at hends
    exact ⟨hends.1, hends.2.1, hQ m₂ a (hle.trans hends.1) hends.2.2⟩
  | error e m₂ =>
    rw [hx] at hends
    exact hends

theorem pure {a : α} (h : ∀ m', m.Leads m' → Q m' a) : Safe name m (pure a) Q :=
  fun m₁ hle hm₁ => ⟨.refl m₁, hm₁, h m₁ hle⟩

theorem pure_fine [Holder α] {a : α} (ha : Fine name m a) : Safe name m (Pure.pure a) (Fine name) :=
  .pure fun _ hle => ha.mono hle

theorem throw {e : Exit} (he : ∀ m', m.Leads m' → Harmless name m' e) :
    Safe name m (throw e : Run α) Q :=
  fun m₁ hle hm₁ => ⟨.refl m₁, hm₁, he m₁ hle⟩

theorem bind (hx : Safe name m x Q) (hf : ∀ m' a, m.Leads m' → Q m' a → Safe name m' (f a) R) :
    Safe name m (x >>= f) R := by
  intro m₁ hle hm₁
  change SafeEnd name m₁ R (EStateM.bind x f m₁)
  have hends := hx m₁ hle hm₁
  unfold EStateM.bind
  cases h : x m₁ with
  | ok a m₂ =>
    rw [h] at hends
    obtain ⟨hle₂, hm₂, ha⟩ := hends
    have hends2 := hf m₂ a (hle.trans hle₂) ha m₂ (.refl m₂) hm₂
    dsimp only
    cases h2 : f a m₂ with
    | ok b m₃ =>
      rw [h2] at hends2
      exact ⟨hle₂.trans hends2.1, hends2.2⟩
    | error e m₃ =>
      rw [h2] at hends2
      exact ⟨hle₂.trans hends2.1, hends2.2⟩
  | error e m₂ =>
    rw [h] at hends
    exact hends

/-- What follows needs to know nothing of the answer. -/
theorem bind_any (hx : Safe name m x Q) (hf : ∀ a, Safe name m (f a) R) : Safe name m (x >>= f) R :=
  hx.bind fun _ a hle _ => (hf a).mono hle

theorem get_bind {f : Machine → Run β}
    (hf : ∀ m', m.Leads m' → Fine name m' m' → Safe name m' (f m') R) :
    Safe name m (get >>= f) R :=
  fun m₁ hle hm₁ => hf m₁ hle hm₁ m₁ (.refl m₁) hm₁

theorem ite {c : Prop} [Decidable c] {y : Run α} (hx : c → Safe name m x Q)
    (hy : ¬c → Safe name m y Q) : Safe name m (if c then x else y) Q := by
  split
  · exact hx ‹_›
  · exact hy ‹_›

theorem fail {e : Error} (he : ∀ x, e ≠ .notDefined x) : Safe name m (fail e : Run α) Q := by
  refine .throw fun _ _ => ?_
  cases e with
  | notDefined x => exact absurd rfl (he x)
  | _ => trivial

end Safe

end Safe

section Environments

variable {env : Nat} {known : Prop} {x : String} {v : Value}

theorem safe_newEnv (h : Sees name m env known) :
    Safe name m (newEnv env) fun m' inner => Sees name m' inner known := by
  intro m₁ hle hm₁
  have hle₁ : m₁.Leads { m₁ with envs := m₁.envs.push ⟨some env, []⟩ } := .push m₁ _
  obtain ⟨henv, hhome⟩ := h.mono hle
  refine ⟨hle₁, Fine.mono ⟨every_push hm₁.1 every_nil, hm₁.2⟩ hle₁, ?_, fun hk => ?_⟩
  · simp
  · exact isSome_home?_push henv (hhome hk)

theorem safe_define (henv : env < m.envs.size) (hv : Fine name m v) :
    Safe name m (define env x v) fun m' _ => Sees name m' env (x = name) := by
  intro m₁ hle hm₁
  have hle₁ : m₁.Leads (defined m₁ env x v) := .define m₁ env x v
  have henv1 := hle.lt_size henv
  refine ⟨hle₁, Fine.mono ⟨?_, hm₁.2⟩ hle₁, hle₁.lt_size henv1, ?_⟩
  · exact every_modify (f := fun e => { e with values := e.values.put x v }) hm₁.1
      fun e he => every_put (show Every _ e.values from he) x (hv.mono hle)
  · rintro rfl
    change ((defined m₁ env x v).home? env x).isSome
    rw [home?_defined_self henv1]
    rfl

theorem safe_readName (h : x = name → (m.home? env name).isSome) :
    Safe name m (readName env x) (Fine name) := by
  refine .get_bind fun m₁ hle hm₁ => ?_
  cases hv : m₁.lookup? env x with
  | some v => exact .pure_fine (every_lookup? hm₁ env x v hv)
  | none =>
    refine .throw fun _ _ hx => ?_
    subst hx
    obtain ⟨home, hhome⟩ := Option.isSome_iff_exists.mp (hle.isSome_home? (h rfl))
    have hnone : (m₁.valuesOf home).get? x = none := by
      rw [← hv, lookup?, hhome]
      rfl
    have hsome := isSome_get?_home hhome
    rw [hnone] at hsome
    cases hsome

theorem safe_assignName (h : x = name → (m.home? env name).isSome) (hv : Fine name m v) :
    Safe name m (assignName env x v) Any := by
  refine .get_bind fun m₁ hle hm₁ => ?_
  cases hhome : m₁.home? env x with
  | some home => exact (safe_define (home?_le hhome).2 (hv.mono hle)).imp fun _ _ _ _ => trivial
  | none =>
    refine .throw fun _ _ hx => ?_
    subst hx
    have hsome := hle.isSome_home? (h rfl)
    rw [hhome] at hsome
    cases hsome

end Environments

section Library

/-- What the library does is safe if what it calls back is. -/
def safety (name : String) : Logic where
  Stage := Machine
  Leads := Machine.Leads
  Known := Knowing name
  Judge m _ _ _ x _ := Safe name m x (Fine name)
  refl := .refl
  trans := .trans
  known hle _ := fun ⟨known, hs, hc⟩ => ⟨known, hs.mono hle, hc⟩
  mono hle h := h.mono hle
  pure ha := .pure_fine ha
  throw he := .throw fun _ _ => he.harmless
  bind hx hf := hx.bind hf
  modifyGet {α _ _ m f g} henvs _ h m₁ hle hm₁ := by
    have hle₁ : m₁.Leads (f m₁).2 := .of_envs (henvs m₁)
    have hfine : Fine name (f m₁).2 (f m₁) := Fine.mono (h m₁ m₁ hle hm₁) hle₁
    exact ⟨hle₁, hfine.2, hfine.1⟩

theorem Safe.library [Carrier α] [Holder α] {x y : Run α} (h : (safety name).Judge m x y) :
    Safe name m x (Fine name) := h

end Library

end StepBinding.Machine
