import StepBinding.Proofs.Resolve.EarlyUses
import StepBinding.Proofs.Resolve.Relabeled

/-! Warnings of hidden bindings. A visit without warnings is the visit with warnings from which the
warnings and their notes are taken away. A visit with warnings has one for each step binding whose
binding is bound already where it stands. -/

namespace StepBinding

open List StepBinding.Tree Node Construct Resolve

variable {binding : String} {span : Span}

namespace Resolve

/-- The number of the record in which a warning is noted. -/
def Edit.warned? : Edit → Option Nat
  | .note i .shadowing => some i
  | _ => none

theorem Edit.warned?_note (i : Nat) (code : Code) :
    (Edit.note i code).warned? = if code = .shadowing then some i else none := by
  by_cases h : code = .shadowing
  · rw [if_pos h, h]
    rfl
  · rw [if_neg h]
    unfold Edit.warned?
    split
    · rename_i heq
      cases heq
      exact absurd rfl h
    · rfl

/-- The visit without its warnings. -/
def Visit.quiet {α : Type} (v : Visit α) : Visit α where
  value := v.value
  unresolved := v.unresolved
  diagnostics := v.diagnostics.filter fun d => d.code != .shadowing
  edits := v.edits.filter fun e => e.warned?.isNone
  asked := v.asked

/-- The context without warnings. -/
def Context.quiet (ctx : Context) : Context := { ctx with shadowWarnings := false }

section Quiet

variable {ctx : Context}

theorem quiet_settle {s : Scope} {index : Nat} {first : Visit Expr} {later : Visit (List Expr)} :
    settle ctx.quiet s binding span index first.quiet later.quiet =
      (settle ctx s binding span index first later).quiet := by
  have hwarn : (warn ctx s binding span index).diagnostics.filter (fun d => d.code != .shadowing) = [] ∧
      (warn ctx s binding span index).edits.filter (fun e => e.warned?.isNone) = [] := by
    unfold warn
    split
    · split <;> exact ⟨rfl, rfl⟩
    · exact ⟨rfl, rfl⟩
  have hquiet : warn ctx.quiet s binding span index = pure () := by
    unfold warn
    split <;> rfl
  have hown (refs : List Reference) :
      (refs.map earlyUse).filter (fun d => d.code != .shadowing) = refs.map earlyUse :=
    filter_eq_self.mpr fun d hd => by
      obtain ⟨ref, -, rfl⟩ := mem_map.mp hd
      rfl
  unfold settle
  rw [hquiet]
  dsimp only [Visit.quiet]
  rw [filter_append, filter_append, filter_append, filter_append,
    filter_append, filter_append, hwarn.1, hwarn.2, hown]
  split <;> rfl

/-- The visit without its warnings, of a tree that stays as it is. -/
theorem carries_quiet :
    (⟨id⟩ : Relabel).Carries (fun g v => { v.quiet with value := g v.value }) ctx ctx.quiet where
  pure h := by rw [← h]; rfl
  bind {α β α' β' g h v w v' w'} hv hw := by
    subst hv
    simp only [bind] at hw ⊢
    rw [hw]
    simp [Visit.quiet]
  fresh _ := rfl
  ask _ := rfl
  identifier s span name := by
    rw [Relabel.identifier_scope]
    unfold identifier
    split
    · rfl
    · split <;> rfl
  settle s binding span index first later := by
    have hexprs : (⟨id⟩ : Relabel).exprs = id :=
      funext fun es => Tree.Fragment.exprs.inj (Relabel.fragment_id (.exprs es))
    simp only [Relabel.scope_id, Relabel.expr_id, hexprs, Option.map_id, id]
    exact quiet_settle

theorem quiet_stmts (s : Scope) (ss : List Stmt) : stmts ctx.quiet s ss = (stmts ctx s ss).quiet := by
  have h := Relabel.resolve_stmts (@carries_quiet ctx) s ss
  rw [Relabel.scope_id, Relabel.stmts_id] at h
  exact h.trans (by rw [Relabel.stmts_id]; rfl)

end Quiet

end Resolve

/-- A step binding with the given number stands at a place where its binding is bound already. -/
def Hides (reach : List Nat → Option Node.Part) (unbound : String → Prop) (place : List Nat) (i : Nat) :
    Prop :=
  ∃ trail c span binding es, reach place = some (trail, c) ∧ c.Steps span binding i es ∧
    ¬Beyond unbound trail binding

section Hides

variable {ctx : Context} {scope : Scope} {unbound : String → Prop} {n : Node} {first : Visit Expr}
  {later : Visit (List Expr)}

theorem hides_nil : Hides n.reach unbound [] i ↔
    ∃ span binding es, n.Steps span binding i es ∧ ¬unbound binding := by
  constructor
  · rintro ⟨trail, c, span, binding, es, hreach, hc, hbound⟩
    cases hreach
    exact ⟨span, binding, es, hc, by rwa [beyond_nil] at hbound⟩
  · rintro ⟨span, binding, es, hc, hbound⟩
    exact ⟨[], n, span, binding, es, rfl, hc, by rwa [beyond_nil]⟩

theorem hides_cons {j : Nat} {rest : List Nat} {q : Node.Part} (hq : n.parts[j]? = some q) :
    Hides n.reach unbound (j :: rest) i ↔ Hides q.2.reach (Beyond unbound q.1) rest i := by
  constructor
  · rintro ⟨_, c, span, binding, es, hreach, hc, hbound⟩
    obtain ⟨bs, part, trail, hpart, hreach', rfl⟩ := reach_cons.mp hreach
    cases hq.symm.trans hpart
    exact ⟨trail, c, span, binding, es, hreach', hc, by rwa [beyond_append] at hbound⟩
  · rintro ⟨trail, c, span, binding, es, hreach, hc, hbound⟩
    exact ⟨_, c, span, binding, es, reach_cons.mpr ⟨_, _, trail, hq, hreach, rfl⟩, hc,
      by rwa [beyond_append]⟩

/-- The records in which warnings are noted. -/
def Resolve.Trace.warned (t : Trace) : List Nat := t.edits.filterMap Edit.warned?

/-- The warnings that are met. -/
def Resolve.Trace.warnings (t : Trace) : List Diagnostic :=
  t.diagnostics.filter fun d => d.code == .shadowing

theorem warned_append (t t' : Trace) : (t ++ t').warned = t.warned ++ t'.warned :=
  filterMap_append

theorem warnings_append (t t' : Trace) : (t ++ t').warnings = t.warnings ++ t'.warnings :=
  filter_append ..

theorem warned_settle : (settle ctx scope binding span i first later).trace.warned =
      (warn ctx scope binding span i).trace.warned ++ first.trace.warned ++ later.trace.warned := by
  change List.filterMap _ (_ ++ _ ++ _ ++ _) = _
  rw [filterMap_append, filterMap_append, filterMap_append]
  split <;> exact append_nil _

theorem warnings_settle : (settle ctx scope binding span i first later).trace.warnings =
      (warn ctx scope binding span i).trace.warnings ++ first.trace.warnings ++
        later.trace.warnings := by
  have hown (refs : List Reference) :
      (refs.map earlyUse).filter (fun d => d.code == .shadowing) = [] :=
    filter_eq_nil_iff.mpr fun d hd => by
      obtain ⟨ref, -, rfl⟩ := mem_map.mp hd
      exact Bool.false_ne_true
  change List.filter _ (_ ++ _ ++ _ ++ _) = _
  rw [filter_append, filter_append, filter_append, hown, append_nil]
  rfl

/-- With warnings, one is noted for each step binding that hides a binding. -/
theorem located_warned (hctx : ctx.shadowWarnings) (n : Node) (scope : Scope)
    (hn : n.Filled) : Located (trace ctx scope n).warned (Hides n.reach scope.Unbound) := by
  induction n using induction_parts generalizing scope with | step n ih
  have hpart {j : Nat} {q : Node.Part} (hq : n.parts[j]? = some q) {inner : Scope}
      (hentered : Entered ctx scope q.1 inner) :
      Located (trace ctx inner q.2).warned fun rest i => Hides n.reach scope.Unbound (j :: rest) i := by
    refine (ih q (mem_of_getElem? hq) inner (hn.part (mem_of_getElem? hq))).congr
      fun rest i => ?_
    rw [hides_cons hq, hentered.unbound]
  have hbelow (place : List Nat) (i : Nat) (h : Hides n.reach scope.Unbound place i) :
      place = [] ∨ ∃ j rest, j < n.parts.length ∧ place = j :: rest := by
    cases place with
    | nil => exact .inl rfl
    | cons j rest =>
      obtain ⟨trail, c, span, binding, es, hreach, -⟩ := h
      obtain ⟨bs, part, -, hpart, -⟩ := reach_cons.mp hreach
      exact .inr ⟨j, rest, (List.getElem?_eq_some_iff.mp hpart).1, rfl⟩
  have hnil (hc : construct? n = none) (i : Nat) : ¬Hides n.reach scope.Unbound [] i := fun h => by
    obtain ⟨span, binding, es, hsteps, -⟩ := hides_nil.mp h
    rw [hsteps.construct?] at hc
    cases hc
  rcases hn.cases with ⟨span, name, rfl⟩ | ⟨hc, hid⟩ | ⟨span, binding, i, first, later, hsteps⟩
  · rw [trace_identifier]
    refine .nil fun place i h => ?_
    rcases hbelow place i h with rfl | ⟨j, rest, hj, -⟩
    · exact hnil rfl i h
    · cases hj
  · refine located_trace (f := Trace.warned) rfl warned_append hc hid (fun j q hq inner => hpart hq)
      fun place i h => (hbelow place i h).resolve_left ?_
    rintro rfl
    exact hnil hc i h
  · have hzero : n.parts[0]? = some (free (.expr first)) := by rw [hsteps.parts_eq]; rfl
    have hfirst := (hpart hzero (@Entered.refl ctx scope)).under 0
    have hlater := located_later ctx scope (f := Trace.warned)
      (T := Hides n.reach scope.Unbound) hsteps rfl warned_append fun j q hq inner => hpart hq
    have hwarn : Located (warn ctx scope binding span i).trace.warned fun place j =>
        place = [] ∧ Hides n.reach scope.Unbound [] j := by
      have hhides (j : Nat) : Hides n.reach scope.Unbound [] j ↔ j = i ∧ ¬scope.Unbound binding := by
        rw [hides_nil]
        constructor
        · rintro ⟨span', binding', es', hsteps', hbound⟩
          obtain ⟨-, rfl, rfl, -⟩ := hsteps.unique hsteps'
          exact ⟨rfl, hbound⟩
        · rintro ⟨rfl, hbound⟩
          exact ⟨span, binding, _, hsteps, hbound⟩
      simp only [hhides]
      unfold warn Scope.Unbound
      cases hlookup : scope.lookup binding with
      | none => exact .nil fun place j h => h.2.2 rfl
      | some hidden =>
        rw [hctx]
        exact (Located.single [] i).congr fun place j => by simp
    rw [trace_steps hsteps, warned_settle]
    refine ((hwarn.append hfirst ?_).append hlater ?_).congr fun place j => ⟨?_, fun h => ?_⟩
    · rintro _ a a' ⟨rfl, -⟩ ⟨rest, heq, -⟩
      cases heq
    · rintro _ a a' (⟨rfl, -⟩ | ⟨rest, rfl, -⟩) ⟨j, rest', -, heq, -⟩ <;> cases heq
    · rintro ((⟨rfl, h⟩ | ⟨rest, rfl, h⟩) | ⟨k, rest, -, rfl, h⟩) <;> exact h
    · rcases hbelow place j h with rfl | ⟨k, rest, hk, rfl⟩
      · exact .inl (.inl ⟨rfl, h⟩)
      · cases k with
        | zero => exact .inl (.inr ⟨rest, rfl, h⟩)
        | succ k => exact .inr ⟨k, rest, hk, rfl, h⟩

/-- Each warning is that of the step binding in whose record it is noted. -/
theorem forall₂_warnings (n : Node) (scope : Scope) (hn : n.Filled) {P : Nat → Diagnostic → Prop}
    (hP : ∀ x ∈ walk n, ∀ span binding i es, x.Steps span binding i es → ∀ hidden,
      P i (shadowWarning binding span hidden)) :
    List.Forall₂ P (trace ctx scope n).warned (trace ctx scope n).warnings := by
  have parted {scope : Scope} {ps qs : List Node.Part} {t : Trace} (h : Parted ctx scope ps qs t)
      (hps : ∀ q ∈ ps, ∀ inner, List.Forall₂ P (trace ctx inner q.2).warned
        (trace ctx inner q.2).warnings) : List.Forall₂ P t.warned t.warnings := by
    induction h with
    | nil => exact .nil
    | cons _ _ _ _ ih =>
      rw [warned_append, warnings_append]
      obtain ⟨hq, hps⟩ := forall_mem_cons.mp hps
      exact rel_append (hq _) (ih hps)
  induction n using induction_parts generalizing scope with | step n ih
  have hparts (q : Node.Part) (hq : q ∈ n.parts) (inner : Scope) :
      List.Forall₂ P (trace ctx inner q.2).warned (trace ctx inner q.2).warnings :=
    ih q hq inner (hn.part hq) fun x hx => hP x (walk_parts hq hx)
  rcases hn.cases with ⟨span, name, rfl⟩ | ⟨hc, hid⟩ | ⟨span, binding, i, first, later, hsteps⟩
  · rw [trace_identifier]
    exact .nil
  · exact parted (parted_node n hc hid) hparts
  · rw [hsteps.parts_eq] at hparts
    obtain ⟨hfirst, hlater⟩ := forall_mem_cons.mp hparts
    rw [trace_steps hsteps, warned_settle, warnings_settle]
    refine rel_append (rel_append ?_ (hfirst scope))
      (parted (Parted.exprs (entered_stepScope binding span i) later) hlater)
    unfold warn
    split
    · split
      · exact .cons (hP n (self_mem_walk n) span binding i _ hsteps _) .nil
      · exact .nil
    · exact .nil

end Hides

end StepBinding
