import StepBinding.Proofs.Resolve.Hygiene

/-! The step bindings of a module that was visited. They are step bindings of the module before,
in the same order, each with its fresh name. No scope declares a fresh name yet, and a reference
that has one stands in the later steps of its step binding. -/

namespace StepBinding

open List StepBinding.Tree

variable {n : Node} {span : Span} {name : String}

namespace Resolve

variable {ctx : Context} {scope : Scope}

section Fresh

/-- The step bindings of a tree, without those that are rejected. -/
theorem marks_node (n : Node) (scope : Scope) :
    (marks (Node.walk (node ctx scope n))).Sublist (marks (Node.walk n)) := by
  induction n using Node.induction_parts generalizing scope with | step n ih
  rw [Node.marks_walk, Node.marks_walk n]
  rcases @visited_parts ctx scope n with h | h
  · rw [parts_rejected h, (declares_rejected h).2]
    exact nil_sublist _
  refine .append ?_ ?_
  · rcases @node_same ctx scope n with h | h
    · rw [(declares_rejected h.2).2]
      exact nil_sublist _
    · rw [h.2.1]
  · generalize n.parts = ps at ih h
    generalize (node ctx scope n).parts = qs at h
    induction h with
    | nil => exact .slnil
    | cons hp _ ih' =>
      obtain ⟨inner, -, hnode, -⟩ := hp
      rw [flatMap_cons, flatMap_cons, hnode]
      exact (ih _ mem_cons_self inner).append
        (ih' fun p hp => ih p (mem_cons_of_mem _ hp))

/-- A node of a visited tree: it declares no fresh name, and if it is a step binding it has its
fresh name. -/
structure Settled (ctx : Context) (F : String → Prop) (n : Node) : Prop where
  declares : ∀ name ∈ n.declares, ¬F name
  fresh : ∀ i, construct? n = some i → n.fresh? = some (ctx.freshOf i) ∧ F (ctx.freshOf i)

/-- What is known of the nodes of a visited tree. -/
abbrev Ordered (ctx : Context) (F N : String → Prop) (n : Node) : Prop :=
  Settled ctx F n ∧ n.Formed N

theorem settled_node {N F : String → Prop} (hn : n.Formed N) (hnames : ∀ name ∈ n.declares, ¬F name)
    (hfresh : ∀ i, construct? n = some i → F (ctx.freshOf i)) :
    Settled ctx F (node ctx scope n) := by
  rcases @node_same ctx scope n with ⟨-, h⟩ | ⟨hdeclares, hconstruct, -⟩
  · obtain ⟨hdeclares, hnone⟩ := declares_rejected h
    refine ⟨fun name hname => ?_, fun i hi => ?_⟩
    · rw [hdeclares] at hname
      cases hname
    · rw [hnone] at hi
      cases hi
  · refine ⟨fun name hname => hnames name (hdeclares ▸ hname), fun i hi => ?_⟩
    have hi' := hconstruct ▸ hi
    refine ⟨?_, hfresh i hi'⟩
    rcases @node_construct N ctx scope n i hn hi' with h | h
    · rw [(declares_rejected h).2] at hi
      cases hi
    · exact h.2

/-- Only references become references. -/
theorem identifier_of_node (h : node ctx scope n = .expr (.identifier span name)) :
    ∃ name', n = .expr (.identifier span name') ∧
      (identifier scope span name').value = .identifier span name := by
  cases n with
  | expr e =>
    have h : (expr ctx scope e).value = .identifier span name := Node.expr.inj h
    cases e with
    | identifier span' name' =>
      obtain ⟨name'', hvalue, -⟩ := value_identifier scope span' name'
      change (identifier scope span' name').value = _ at h
      rw [hvalue] at h
      cases h
      exact ⟨name', rfl, hvalue⟩
    | steps span' qualifier binding steps index fresh =>
      cases steps with
      | nil => cases h
      | cons => rcases @node_steps_cases ctx scope _ _ _ _ _ _ .expression with h' | ⟨h', -⟩ <;>
        rw [Node.expr.inj h'] at h <;> cases h
    | _ => cases h
  | stmt s => cases h
  | property p =>
    obtain ⟨span, key, value, shorthand⟩ := p
    cases h
  | declarator d =>
    obtain ⟨span, name, init⟩ := d
    cases h

end Fresh

end Resolve

namespace Resolved

open Resolve

variable {names : FreshNames} {shadowWarnings : Bool} {globals : List String} {m : Module}

/-- The fresh names of a module. -/
def IsFresh (names : FreshNames) (shadowWarnings : Bool) (m : Module) (name : String) : Prop :=
  ∃ i ∈ marks (walkStmts m.body), (context names shadowWarnings m).freshOf i = name

theorem freshOf_mem {i : Nat} (hi : i ∈ marks (walkStmts m.body)) :
    (freshTable names m).lookup i = some ((context names shadowWarnings m).freshOf i) := by
  obtain ⟨n, hn, hni⟩ := mem_filterMap.mp hi
  exact freshOf_eq hn hni

theorem freshOf_inj {i j : Nat} (hi : i ∈ marks (walkStmts m.body))
    (hj : j ∈ marks (walkStmts m.body))
    (h : (context names shadowWarnings m).freshOf i = (context names shadowWarnings m).freshOf j) :
    i = j :=
  fresh_inj (freshOf_mem hi) (h ▸ freshOf_mem hj)

theorem notMem_names_of_isFresh (h : IsFresh names shadowWarnings m name) :
    name ∉ Tree.names m := by
  obtain ⟨i, hi, rfl⟩ := h
  exact fresh_notMem_names (freshOf_mem hi)

theorem marks_visited : (marks (walkStmts (visit names shadowWarnings globals m).value)).Sublist
    (marks (walkStmts m.body)) :=
  marks_node m.root (outerScope globals)

/-- In a module that was visited no fresh name is declared, and the step bindings have theirs. -/
theorem ordered_visited {N : String → Prop} (hm : AllStmts (Node.Formed N) m.body) :
    AllStmts (Ordered (context names shadowWarnings m) (IsFresh names shadowWarnings m)
      fun _ => True) (visited names shadowWarnings globals m).body := by
  let P (n : Node) : Prop := n.Formed N ∧
    (∀ name ∈ n.declares, ¬IsFresh names shadowWarnings m name) ∧ ∀ i, construct? n = some i →
      IsFresh names shadowWarnings m ((context names shadowWarnings m).freshOf i)
  have turns : Turns (context names shadowWarnings m) False (fun _ => True) P
      (Ordered (context names shadowWarnings m) (IsFresh names shadowWarnings m)
        fun _ => True) := by
    refine ⟨fun _ _ _ _ => trivial, fun {scope n} _ hn _ => ⟨settled_node hn.1 hn.2.1 hn.2.2, ?_⟩,
      fun _ => ⟨⟨nofun, nofun⟩, trivial⟩⟩
    have hformed : n.Kept (fun _ => True) False := ⟨hn.1.imp fun _ _ => trivial, nofun⟩
    exact (kept_node (fun _ _ _ _ _ _ => trivial) hformed nofun).1
  refine visit_all turns trivial ⟨⟨nofun, nofun⟩, nofun, nofun⟩ ?_ nofun
  rw [allStmts_iff_walk] at hm ⊢
  refine fun n hn => ⟨hm n hn, fun name hname hfresh => ?_, fun i hi => ?_⟩
  · exact notMem_names_of_isFresh hfresh
      (mem_flatMap.mpr ⟨n, hn, Node.mem_spelled_of_declares hname⟩)
  · exact ⟨i, mem_filterMap.mpr ⟨n, hn, hi⟩, rfl⟩

/-- A reference with the fresh name of a step binding stands in the later steps of it. -/
theorem later_of_reference {place : List Nat} {trail : List Binder} {i : Nat}
    (hi : i ∈ marks (walkStmts m.body)) (h : (visited names shadowWarnings globals m).reach place =
      some (trail, .expr (.identifier span ((context names shadowWarnings m).freshOf i)))) :
    ∃ binding, .later binding i ∈ trail := by
  obtain ⟨inner, trail', y, hy, hentered, hnode, hlater⟩ := reach_of_visited h
  obtain ⟨name, rfl, hvalue⟩ := identifier_of_node hnode.symm
  obtain ⟨name', hvalue', hname'⟩ := @value_reference globals trail' _ inner span name hentered
  rw [hvalue] at hvalue'
  cases hvalue'
  rcases hname' with ⟨j, hj, heq⟩ | ⟨-, heq⟩
  · obtain ⟨before, after, rfl, -⟩ := hj
    have hmem : Binder.later name j ∈ before ++ .later name j :: after :=
      mem_append_right _ mem_cons_self
    obtain ⟨way, trail1, z, -, hz, hzj⟩ := exists_of_later hy hmem
    have hmarks := mem_filterMap.mpr ⟨z, Module.mem_walk_of_reach hz, hzj⟩
    cases freshOf_inj hi hmarks heq
    exact ⟨name, hlater name i hmem⟩
  · refine absurd ?_ (notMem_names_of_isFresh ⟨i, hi, heq⟩)
    exact mem_flatMap.mpr ⟨_, Module.mem_walk_of_reach hy, mem_singleton.mpr rfl⟩

end Resolved

end StepBinding
