import StepBinding.Proofs.Resolve.Hygiene

/-! Where a visit meets what it meets. Lists of what is met are located by places in the tree: those of
a node are located below it if those of its parts are. -/

namespace StepBinding

open StepBinding.Tree Construct

namespace Resolve

variable {ctx : Context} {scope inner : Scope}

section Located

variable {α : Type} {f : Trace → List α} {T : List Nat → α → Prop} {ps qs : List Node.Part} {t : Trace}

/-- What is located in the parts is located in the node. -/
theorem Parted.located (h : Parted ctx scope ps qs t) (hnil : f ∅ = [])
    (happend : ∀ t t', f (t ++ t') = f t ++ f t') (k : Nat)
    (hT : ∀ j q, ps[j]? = some q → ∀ inner, Entered ctx scope q.1 inner →
      Located (f (trace ctx inner q.2)) fun rest a => T ((k + j) :: rest) a) :
    Located (f t) fun place a => ∃ j rest, j < ps.length ∧ place = (k + j) :: rest ∧ T place a := by
  induction h generalizing k with
  | nil =>
    rw [hnil]
    exact .nil fun place a ⟨j, rest, hj, _⟩ => absurd hj (Nat.not_lt_zero j)
  | @cons q _ ps _ inner t hentered _ _ h ih =>
    have hfirst := (hT 0 q rfl inner hentered).under k
    have hlater := ih (k + 1) fun j q' hq' inner' hentered' => by
      have := hT (j + 1) q' hq' inner' hentered'
      rwa [show k + (j + 1) = k + 1 + j by omega] at this
    rw [happend]
    refine (hfirst.append hlater ?_).congr fun place a => ⟨?_, ?_⟩
    · rintro _ a a' ⟨rest, rfl, -⟩ ⟨j, rest', -, heq, -⟩
      have := (List.cons.inj heq).1
      omega
    · rintro (⟨rest, rfl, ha⟩ | ⟨j, rest, hj, rfl, ha⟩)
      · exact ⟨0, rest, Nat.zero_lt_succ _, rfl, ha⟩
      · exact ⟨j + 1, rest, Nat.succ_lt_succ hj, by rw [show k + (j + 1) = k + 1 + j by omega], ha⟩
    · rintro ⟨j, rest, hj, rfl, ha⟩
      cases j with
      | zero => exact .inl ⟨rest, rfl, ha⟩
      | succ j =>
        exact .inr ⟨j, rest, Nat.lt_of_succ_lt_succ hj,
          by rw [show k + (j + 1) = k + 1 + j by omega], ha⟩

variable {n : Node}

/-- What is located in the parts of a node that is neither an identifier nor a step binding. -/
theorem located_trace (hnil : f ∅ = []) (happend : ∀ t t', f (t ++ t') = f t ++ f t')
    (hc : construct? n = none) (hn : ∀ span name, n ≠ .expr (.identifier span name))
    (hT : ∀ j q, n.parts[j]? = some q → ∀ inner, Entered ctx scope q.1 inner →
      Located (f (trace ctx inner q.2)) fun rest a => T (j :: rest) a)
    (hbelow : ∀ place a, T place a → ∃ j rest, j < n.parts.length ∧ place = j :: rest) :
    Located (f (trace ctx scope n)) T := by
  refine ((parted_node n hc hn).located (T := T) hnil happend 0 fun j q hq inner hentered => ?_).congr
    fun place a => ⟨fun ⟨_, _, _, _, h⟩ => h, fun h => ?_⟩
  · rw [Nat.zero_add]
    exact hT j q hq inner hentered
  · obtain ⟨j, rest, hj, rfl⟩ := hbelow place a h
    exact ⟨j, rest, hj, by rw [Nat.zero_add], h⟩

variable (ctx scope) in
/-- What is located in the later steps of a step binding. -/
theorem located_later {span : Span} {binding : String} {i : Nat} {first : Expr} {later : List Expr}
    (h : n.Steps span binding i (first :: later)) (hnil : f ∅ = [])
    (happend : ∀ t t', f (t ++ t') = f t ++ f t')
    (hT : ∀ j q, n.parts[j + 1]? = some q → ∀ inner, Entered ctx scope q.1 inner →
      Located (f (trace ctx inner q.2)) fun rest a => T ((j + 1) :: rest) a) :
    Located (f (exprs ctx (stepScope ctx scope binding span i) later).trace) fun place a =>
      ∃ j rest, j + 1 < n.parts.length ∧ place = (j + 1) :: rest ∧ T place a := by
  have hlength : n.parts.length = (Node.exprParts [.later binding i] later).length + 1 := by
    rw [h.parts_eq]
    rfl
  refine ((Parted.exprs (entered_stepScope binding span i) later).located (T := T) hnil happend 1
    fun j q hq inner hentered => ?_).congr fun place a => ?_
  · rw [Nat.add_comm]
    refine hT j q ?_ inner hentered
    rw [h.parts_eq]
    exact hq
  · simp only [Nat.add_comm 1, hlength, Nat.add_lt_add_iff_right]

end Located

end Resolve

end StepBinding
