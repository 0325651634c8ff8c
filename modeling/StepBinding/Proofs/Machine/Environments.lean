import StepBinding.Machine

/-! Names in environments. A definition puts a name into one environment, where lookup from that
environment finds it. Environments only gain names and never move, so a name that can be seen from
an environment can be seen from it at any later time. -/

namespace StepBinding.Machine

variable {m m₁ m₂ : Machine} {env home : Nat} {name x : String} {v : Value}

section Definitions

theorem get?_put (fs : Fields) (name x : String) (v : Value) :
    (fs.put name v).get? x = if x = name then some v else fs.get? x := by
  unfold Fields.get?
  fun_induction Fields.put fs name v <;> grind

/-- The machine after a definition. -/
def defined (m : Machine) (home : Nat) (name : String) (v : Value) : Machine :=
  { m with envs := m.envs.modify home fun e => { e with values := e.values.put name v } }

theorem readName_run (env : Nat) (name : String) (m : Machine) :
    readName env name m = (match m.lookup? env name with
      | some v => pure v
      | none => fail (.notDefined name) : Run Value) m := rfl

theorem assignName_run (env : Nat) (name : String) (v : Value) (m : Machine) :
    assignName env name v m = (match m.home? env name with
      | some home => define home name v
      | none => fail (.notDefined name) : Run Unit) m := rfl

theorem lookup?_defined (hsize : home < m.envs.size)
    (h : (defined m home name v).home? env name = some home) :
    (defined m home name v).lookup? env name = some v := by
  unfold lookup?
  rw [h]
  change ((defined m home name v).valuesOf home).get? name = some v
  unfold valuesOf defined
  rw [Array.getElem?_modify, if_pos rfl, Array.getElem?_eq_getElem hsize]
  exact (get?_put ..).trans (if_pos rfl)

theorem home?_defined_self (hsize : env < m.envs.size) :
    (defined m env name v).home? env name = some env := by
  have henv : (defined m env name v).envs[env]? =
      some ⟨m.envs[env].parent, m.envs[env].values.put name v⟩ := by
    unfold defined
    rw [Array.getElem?_modify, if_pos rfl, Array.getElem?_eq_getElem hsize]
    rfl
  rw [home?, henv]
  simp [get?_put]

theorem home?_le (h : m.home? env name = some home) : home ≤ env ∧ home < m.envs.size := by
  fun_induction home? m env name with
  | case1 | case3 | case5 => cases h
  | case2 env e he =>
    cases h
    exact ⟨Nat.le_refl _, (Array.getElem?_eq_some_iff.mp he).1⟩
  | case4 env e he hv parent hp hlt ih =>
    obtain ⟨hle, hsize⟩ := ih h
    exact ⟨by omega, hsize⟩

theorem home?_defined_home (h : m.home? env name = some home) :
    (defined m home name v).home? env name = some home := by
  fun_induction home? m env name with
  | case1 | case3 | case5 => cases h
  | case2 env e he =>
    cases h
    exact home?_defined_self (Array.getElem?_eq_some_iff.mp he).1
  | case4 env e he hv parent hp hlt ih =>
    have hne : home ≠ env := by
      have := (home?_le h).1
      omega
    have henv : (defined m home name v).envs[env]? = some e := by
      unfold defined
      rw [Array.getElem?_modify, if_neg hne, he]
    rw [home?, henv]
    simp only [hv, hp, hlt, dif_pos]
    exact ih h

/-- The environment that has a name does have it. -/
theorem isSome_get?_home (h : m.home? env x = some home) : ((m.valuesOf home).get? x).isSome := by
  fun_induction home? m env x with
  | case1 | case3 | case5 => cases h
  | case2 env e he hv =>
    cases h
    rw [valuesOf, he]
    exact hv
  | case4 env e he hv parent hp hlt ih => exact ih h

/-- A definition adds its name and takes none away. -/
theorem isSome_get?_put {fs : Fields} : ((fs.put name v).get? x).isSome ↔
    x = name ∨ (fs.get? x).isSome := by
  rw [get?_put]
  split <;> simp [*]

end Definitions

/-- The environments of the first machine are also in the second one, inside of the same
environments and with at least the same names. -/
def Leads (m m₁ : Machine) : Prop :=
  ∀ (i : Nat) (e : Environment), m.envs[i]? = some e → ∃ e₁, m₁.envs[i]? = some e₁ ∧
    e₁.parent = e.parent ∧ ∀ x, (e.values.get? x).isSome = true → (e₁.values.get? x).isSome = true

namespace Leads

theorem of_envs (h : m₁.envs = m.envs) : m.Leads m₁ :=
  fun _ e he => ⟨e, by rw [h, he], rfl, fun _ => id⟩

theorem refl (m : Machine) : m.Leads m := of_envs rfl

theorem trans (h : m.Leads m₁) (h' : m₁.Leads m₂) : m.Leads m₂ := by
  intro i e he
  obtain ⟨e₁, he₁, hparent, hvalues⟩ := h i e he
  obtain ⟨e₂, he₂, hparent', hvalues'⟩ := h' i e₁ he₁
  exact ⟨e₂, he₂, hparent'.trans hparent, fun x hx => hvalues' x (hvalues x hx)⟩

theorem lt_size (h : m.Leads m₁) (henv : env < m.envs.size) : env < m₁.envs.size := by
  obtain ⟨e, he, -⟩ := h env _ (Array.getElem?_eq_getElem henv)
  exact (Array.getElem?_eq_some_iff.mp he).1

/-- A name that can be seen from an environment can still be seen from it. -/
theorem isSome_home? (h : m.Leads m₁) (hx : (m.home? env x).isSome) : (m₁.home? env x).isSome := by
  fun_induction home? m env x with
  | case1 | case3 | case5 => cases hx
  | case2 env e he hv =>
    obtain ⟨e₁, he₁, -, hvalues⟩ := h env e he
    rw [home?, he₁]
    simp only [hvalues x hv, if_true, Option.isSome_some]
  | case4 env e he hv parent hp hlt ih =>
    obtain ⟨e₁, he₁, hparent, -⟩ := h env e he
    rw [home?, he₁]
    dsimp only
    split
    · rfl
    · rw [hparent, hp]
      dsimp only
      rw [dif_pos hlt]
      exact ih hx

theorem define (m : Machine) (env : Nat) (name : String) (v : Value) :
    m.Leads (defined m env name v) := by
  intro i e he
  unfold defined
  rw [Array.getElem?_modify, he]
  split
  · exact ⟨_, rfl, rfl, fun x hx => isSome_get?_put.mpr (.inr hx)⟩
  · exact ⟨e, rfl, rfl, fun _ => id⟩

theorem push (m : Machine) (e : Environment) : m.Leads { m with envs := m.envs.push e } := by
  intro i e₁ he
  have hi := (Array.getElem?_eq_some_iff.mp he).1
  refine ⟨e₁, ?_, rfl, fun _ => id⟩
  rw [Array.getElem?_push_lt hi, ← Array.getElem?_eq_getElem hi]
  exact he

end Leads

/-- From a new environment everything can be seen that can be seen from the one around it. -/
theorem isSome_home?_push (henv : env < m.envs.size) (hx : (m.home? env x).isSome) :
    (home? { m with envs := m.envs.push ⟨some env, []⟩ } m.envs.size x).isSome := by
  rw [home?]
  simp only [Array.getElem?_push_size, Fields.get?, List.lookup_nil, Option.isSome_none,
    Bool.false_eq_true, if_false, dif_pos henv]
  exact (Leads.push m _).isSome_home? hx

end StepBinding.Machine
