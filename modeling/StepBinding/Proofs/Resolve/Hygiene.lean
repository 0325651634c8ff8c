import StepBinding.Proofs.Compile.Source
import StepBinding.Proofs.Resolve.Form
import StepBinding.Proofs.Resolve.Fresh

/-! Which references are renamed. The scope in which a part of a tree is visited binds each name
as the trail of the part says: by the innermost binder of the name on the trail, or else as the
scope around the tree does. So a reference is renamed if and only if the innermost binder of its
name is the step list of a step binding, and then to the fresh name of that step binding. -/

namespace StepBinding

open List StepBinding.Tree

variable {trail : List Binder} {i : Nat} {n x : Node} {place : List Nat} {binding : String}

namespace Resolve

variable {ctx : Context} {scope scope1 scope2 : Scope} {bs cs : List Binder}

/-- A node below and what it becomes, unless something on the way to it is rejected. -/
theorem reach_node {n x : Node} {place : List Nat} {trail : List Binder}
    (h : n.reach place = some (trail, x)) (scope : Scope) :
    (∃ way trail' y, way <+: place ∧ (node ctx scope n).reach way = some (trail', y) ∧
      y.isRejected) ∨
      ∃ inner trail', Entered ctx scope trail inner ∧
        (node ctx scope n).reach place = some (trail', node ctx inner x) := by
  induction place generalizing n trail scope with
  | nil =>
    cases h
    exact .inr ⟨scope, [], .refl, rfl⟩
  | cons i place ih =>
    obtain ⟨bs, part, trail1, hpart, hreach, rfl⟩ := Node.reach_cons.mp h
    rcases @visited_parts ctx scope n with hrejected | hparts
    · exact .inl ⟨[], [], _, nil_prefix, rfl, hrejected⟩
    obtain ⟨⟨cs, part'⟩, hpart', inner, hentered, hnode, -, -⟩ := exists_of_forall₂ hparts hpart
    dsimp only at hentered hnode
    subst hnode
    rcases ih hreach inner with ⟨way, trail', y, hway, hy, hrejected⟩ | ⟨inner', trail', he, hr⟩
    · exact .inl ⟨i :: way, _, y, cons_prefix_cons.mpr ⟨rfl, hway⟩,
        Node.reach_cons.mpr ⟨_, _, trail', hpart', hy, rfl⟩, hrejected⟩
    · exact .inr ⟨inner', _, hentered.trans he,
        Node.reach_cons.mpr ⟨_, _, trail', hpart', hr, rfl⟩⟩

/-- What is below a node that was visited was below the node before, under the same step bindings. -/
theorem reach_of_node {scope : Scope} (h : (node ctx scope n).reach place = some (trail, x)) :
    ∃ inner trail' y, n.reach place = some (trail', y) ∧ Entered ctx scope trail' inner ∧
      x = node ctx inner y ∧ ∀ binding i, .later binding i ∈ trail' → .later binding i ∈ trail := by
  induction place generalizing n trail scope with
  | nil =>
    cases h
    exact ⟨scope, [], n, rfl, .refl, rfl, nofun⟩
  | cons i place ih =>
    obtain ⟨cs, part', trail1, hpart', hreach, rfl⟩ := Node.reach_cons.mp h
    rcases @visited_parts ctx scope n with hrejected | hparts
    · rw [parts_rejected hrejected] at hpart'
      cases hpart'
    obtain ⟨⟨bs, part⟩, hpart, inner, hentered, hnode, hlater, -⟩ :=
      exists_of_forall₂ hparts.flip hpart'
    dsimp only at hentered hnode hlater
    subst hnode
    obtain ⟨inner', trail', y, hy, he, rfl, hl⟩ := ih hreach
    refine ⟨inner', trail' ++ bs, y, Node.reach_cons.mpr ⟨_, _, trail', hpart, hy, rfl⟩,
      hentered.trans he, rfl, fun binding j hmem => ?_⟩
    rcases mem_append.mp hmem with hmem | hmem
    · exact mem_append_left _ (hl binding j hmem)
    · exact mem_append_right _ (hlater binding j hmem)

/-- A step binding on a trail stands on the way. -/
theorem exists_of_later (h : n.reach place = some (trail, x)) (hmem : .later binding i ∈ trail) :
    ∃ way trail' y, way <+: place ∧ n.reach way = some (trail', y) ∧ construct? y = some i := by
  induction place generalizing n trail with
  | nil =>
    cases h
    cases hmem
  | cons j place ih =>
    obtain ⟨bs, part, trail1, hpart, hreach, rfl⟩ := Node.reach_cons.mp h
    rcases mem_append.mp hmem with hmem | hmem
    · obtain ⟨way, trail', y, hway, hy, hi⟩ := ih hreach hmem
      exact ⟨j :: way, _, y, cons_prefix_cons.mpr ⟨rfl, hway⟩,
        Node.reach_cons.mpr ⟨_, _, trail', hpart, hy, rfl⟩, hi⟩
    · exact ⟨[], [], n, nil_prefix, rfl, later_of_part (mem_of_getElem? hpart) hmem⟩

end Resolve

/-- On the trail, the innermost binder of a name is the step list of the step binding `i`. -/
def Means (trail : List Binder) (name : String) (i : Nat) : Prop :=
  ∃ inner outer, trail = inner ++ .later name i :: outer ∧ ∀ b ∈ inner, b.binds name = false

theorem means_iff {name : String} :
    Means trail name i ↔ ∃ c, trail.find? (fun b => b.binds name) = some (.later c i) := by
  constructor
  · rintro ⟨inner, outer, rfl, hinner⟩
    refine ⟨name, find?_eq_some_iff_append.mpr ⟨by simp, inner, outer, rfl, fun b hb => ?_⟩⟩
    rw [hinner b hb]
    rfl
  · rintro ⟨c, hfind⟩
    obtain ⟨hc, inner, outer, rfl, hinner⟩ := find?_eq_some_iff_append.mp hfind
    rw [Binder.binds_later] at hc
    subst hc
    exact ⟨inner, outer, rfl, fun b hb => by simpa using hinner b hb⟩

namespace Resolved

open Resolve

variable {names : FreshNames} {shadowWarnings : Bool} {globals : List String} {m : Module}
  {place : List Nat} {trail : List Binder} {x : Node}

/-- The module that a visit makes. -/
def visited (names : FreshNames) (shadowWarnings : Bool) (globals : List String) (m : Module) :
    Module :=
  { m with body := (visit names shadowWarnings globals m).value }

theorem node_root : node (context names shadowWarnings m) (outerScope globals) m.root =
    (visited names shadowWarnings globals m).root := rfl

/-- A node of a module and what it becomes, unless something on the way to it is rejected. -/
theorem reach_visited (h : m.reach place = some (trail, x)) :
    (∃ way trail' y, way <+: place ∧
      (visited names shadowWarnings globals m).reach way = some (trail', y) ∧
      y.isRejected) ∨
      ∃ inner trail', Entered (context names shadowWarnings m) (outerScope globals) trail inner ∧
        (visited names shadowWarnings globals m).reach place =
          some (trail', node (context names shadowWarnings m) inner x) := by
  cases place with
  | nil => cases h
  | cons i place =>
    rw [← Module.reach_root] at h
    rcases reach_node h (outerScope globals) with
      ⟨way, trail', y, hway, hy, hrejected⟩ | ⟨inner, trail', hentered, hreach⟩
    · cases way with
      | nil =>
        cases hy
        cases hrejected
      | cons j way =>
        rw [node_root, Module.reach_root] at hy
        exact .inl ⟨_, _, y, hway, hy, hrejected⟩
    · rw [node_root, Module.reach_root] at hreach
      exact .inr ⟨inner, _, hentered, hreach⟩

/-- Every node of a module that was visited stands where it came from, under the same step bindings. -/
theorem reach_of_visited
    (h : (visited names shadowWarnings globals m).reach place = some (trail, x)) :
    ∃ inner trail' y, m.reach place = some (trail', y) ∧
      Entered (context names shadowWarnings m) (outerScope globals) trail' inner ∧
      x = node (context names shadowWarnings m) inner y ∧
      ∀ binding i, .later binding i ∈ trail' → .later binding i ∈ trail := by
  cases place with
  | nil => cases h
  | cons i place =>
    rw [← Module.reach_root, ← node_root] at h
    simpa only [Module.reach_root] using reach_of_node h

/-- What the name of a reference becomes. -/
theorem value_reference {ctx : Context} {inner : Scope} {span : Span} {name : String}
    (h : Entered ctx (outerScope globals) trail inner) :
    ∃ name', (identifier inner span name).value = .identifier span name' ∧
      ((∃ i, Means trail name i ∧ name' = ctx.freshOf i) ∨
        ((∀ i, ¬Means trail name i) ∧ name' = name)) := by
  have h := h name
  simp only [means_iff]
  unfold identifier
  cases hfind : trail.find? fun b => b.binds name with
  | none =>
    rw [hfind] at h
    simp only at h
    refine ⟨name, ?_, .inr ⟨nofun, rfl⟩⟩
    rw [h]
    cases hlookup : (outerScope globals).lookup name with
    | none => rfl
    | some b =>
      have hkind := kind_outerScope hlookup
      dsimp only
      cases hk : b.kind <;> first | rfl | exact absurd hk hkind
  | some b =>
    rw [hfind] at h
    cases b with
    | names declared =>
      obtain ⟨b, hb, hkind⟩ := h
      refine ⟨name, ?_, .inr ⟨nofun, rfl⟩⟩
      rw [hb]
      dsimp only
      cases hk : b.kind <;> first | rfl | exact absurd hk hkind
    | later c i =>
      obtain ⟨b, hb, hkind, hfresh⟩ := h
      refine ⟨ctx.freshOf i, ?_, .inl ⟨i, ⟨c, rfl⟩, rfl⟩⟩
      rw [hb]
      dsimp only
      rw [hkind, hfresh]
      rfl

theorem freshOf_eq {i : Nat} {n : Node} (hn : n ∈ walkStmts m.body) (hi : construct? n = some i) :
    (freshTable names m).lookup i = some ((context names shadowWarnings m).freshOf i) := by
  obtain ⟨name, hname⟩ := @exists_fresh names m i (mem_filterMap.mpr ⟨n, hn, hi⟩)
  change _ = some (((freshTable names m).lookup i).getD "")
  rw [hname, Option.getD_some]

/-- A step binding on a trail stands on the way. -/
theorem exists_of_later (h : m.reach place = some (trail, x)) (hmem : .later binding i ∈ trail) :
    ∃ way trail' y, way <+: place ∧ m.reach way = some (trail', y) ∧ construct? y = some i := by
  cases place with
  | nil => cases h
  | cons j place =>
    rw [← Module.reach_root] at h
    obtain ⟨way, trail', y, hway, hy, hi⟩ := Resolve.exists_of_later h hmem
    cases way with
    | nil =>
      cases hy
      cases hi
    | cons k way => exact ⟨_, _, y, hway, Module.reach_root m k way ▸ hy, hi⟩

/-- A reference is renamed if and only if it means a step binding, and then to its fresh name. -/
theorem reference_visited {N : String → Prop} (hm : AllStmts (Node.Formed N) m.body) {span : Span}
    {b : String} (h : m.reach place = some (trail, .expr (.identifier span b)))
    (hkept : ∀ way trail' y, way <+: place →
      (visited names shadowWarnings globals m).reach way = some (trail', y) →
      y.isRejected = false) :
    ∃ trail' b', (visited names shadowWarnings globals m).reach place =
        some (trail', .expr (.identifier span b')) ∧
      (b' ≠ b ↔ ∃ i, Means trail b i) ∧
      ∀ i, Means trail b i → ∃ way trail'' y, way <+: place ∧
        (visited names shadowWarnings globals m).reach way = some (trail'', y) ∧
        construct? y = some i ∧ y.fresh? = some b' := by
  rcases @reach_visited names shadowWarnings globals _ _ _ _ h with
    ⟨way, trail', y, hway, hy, hrejected⟩ | ⟨inner, trail', hentered, hreach⟩
  · exact absurd hrejected (by simp [hkept way trail' y hway hy])
  obtain ⟨b', hvalue, hb'⟩ := @value_reference globals trail _ inner span b hentered
  change _ = some (trail', Node.expr (identifier inner span b).value) at hreach
  rw [hvalue] at hreach
  refine ⟨trail', b', hreach, ?_⟩
  rcases hb' with ⟨i, hi, rfl⟩ | ⟨hnone, rfl⟩
  · have hunique {j : Nat} (hj : Means trail b j) : j = i := by
      obtain ⟨c, hc⟩ := means_iff.mp hi
      obtain ⟨c', hc'⟩ := means_iff.mp hj
      rw [hc] at hc'
      cases hc'
      rfl
    have hlater : .later b i ∈ trail := by
      obtain ⟨inner, outer, rfl, -⟩ := hi
      exact mem_append_right _ mem_cons_self
    obtain ⟨way, trail1, y, hway, hy, hyi⟩ := exists_of_later h hlater
    have hmem := Module.mem_walk_of_reach hy
    have hfresh := fresh_notMem_names (@freshOf_eq names shadowWarnings m i y hmem hyi)
    have hspelled : b ∈ Tree.names m :=
      mem_flatMap.mpr ⟨_, Module.mem_walk_of_reach h, mem_singleton.mpr rfl⟩
    refine ⟨⟨fun _ => ⟨i, hi⟩, fun _ heq => hfresh (heq ▸ hspelled)⟩, fun j hj => ?_⟩
    cases hunique hj
    rcases @reach_visited names shadowWarnings globals _ _ _ _ hy with
      ⟨way', trail', z, hway', hz, hrejected⟩ | ⟨inner, trail', -, hreach⟩
    · exact absurd hrejected (by simp [hkept way' trail' z (hway'.trans hway) hz])
    refine ⟨way, trail', _, hway, hreach, ?_⟩
    have hnode := @node_construct N (context names shadowWarnings m) inner y i
      ((allStmts_iff_walk m.body).mp hm y hmem) hyi
    exact hnode.resolve_left (by simp [hkept way trail' _ hway hreach])
  · exact ⟨⟨fun hne => absurd rfl hne, fun ⟨i, hi⟩ => absurd hi (hnone i)⟩,
      fun i hi => absurd hi (hnone i)⟩

end Resolved

end StepBinding
