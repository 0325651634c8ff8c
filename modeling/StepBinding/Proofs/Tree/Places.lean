import Mathlib.Data.List.Flatten
import Mathlib.Data.List.Nodup
import StepBinding.Proofs.Tree.Reach

/-! Lists that tell each place once. The parts of a node are smaller than the node, so that what holds
of a node if it holds of its parts holds of all nodes. A list is located by a relation of places and
values if it has every value as often as there are places for it. The step bindings of a tree with
numbers of their own are told apart by their places. -/

namespace StepBinding

open List StepBinding.Tree

variable {n x : Node} {trail : List Binder} {i : Nat}

namespace Node

/-- What holds of a node if it holds of its parts holds of every node. -/
theorem induction_parts {P : Node → Prop} (step : ∀ n, (∀ q ∈ n.parts, P q.2) → P n) (n : Node) :
    P n :=
  step n fun q _ => induction_parts step q.2
termination_by (walk n).length
decreasing_by
  have hown := List.length_pos_of_mem (self_mem_own n)
  have hpart := ((List.singleton_sublist.mpr ‹q ∈ n.parts›).flatMap fun q => walk q.2).length_le
  rw [List.flatMap_singleton] at hpart
  rw [walk_eq n, List.length_append]
  omega

theorem reach_append {way rest : List Nat} :
    n.reach (way ++ rest) = some (trail, x) ↔ ∃ outer y inner, n.reach way = some (outer, y) ∧
      y.reach rest = some (inner, x) ∧ trail = inner ++ outer := by
  induction way generalizing n trail with
  | nil =>
    constructor
    · intro h
      exact ⟨[], n, trail, rfl, h, (append_nil _).symm⟩
    · rintro ⟨outer, y, inner, hy, hx, rfl⟩
      cases hy
      rwa [append_nil]
  | cons i way ih =>
    rw [cons_append, reach_cons]
    constructor
    · rintro ⟨bs, part, trail', hpart, hreach, rfl⟩
      obtain ⟨outer, y, inner, hy, hx, rfl⟩ := ih.mp hreach
      exact ⟨_, y, inner, reach_cons.mpr ⟨bs, part, outer, hpart, hy, rfl⟩, hx, append_assoc ..⟩
    · rintro ⟨_, y, inner, hy, hx, rfl⟩
      obtain ⟨bs, part, outer, hpart, hreach, rfl⟩ := reach_cons.mp hy
      exact ⟨bs, part, _, hpart, ih.mpr ⟨outer, y, inner, hreach, hx, rfl⟩,
        (append_assoc ..).symm⟩

section Marks

/-- The step bindings of a tree are the node itself and those of its parts. -/
theorem marks_walk (n : Node) :
    marks (walk n) = (construct? n).toList ++ n.parts.flatMap fun q => marks (walk q.2) := by
  have hown : marks n.own = (construct? n).toList := by
    unfold own
    split
    · rfl
    · simp [marks, filterMap_cons]
      split <;> simp_all
  rw [walk_eq, marks_append, hown, marks, filterMap_flatMap]
  rfl

theorem marks_stepParts (binding : String) (index : Nat) (es : List Expr) :
    (stepParts binding index es).flatMap (fun q => marks (walk q.2)) = marks (walkExprs es) := by
  rw [marks_walkExprs]
  cases es <;> simp [stepParts, exprParts, free, walk, flatMap_map]

/-- Every step binding of a tree is at a place. -/
theorem exists_reach_of_marks (h : i ∈ marks (walk n)) :
    ∃ place trail x, n.reach place = some (trail, x) ∧ construct? x = some i := by
  induction n using induction_parts with | step n ih
  rw [marks_walk] at h
  rcases mem_append.mp h with h | h
  · exact ⟨[], [], n, rfl, Option.mem_toList.mp h⟩
  · obtain ⟨⟨bs, part⟩, hq, hi⟩ := mem_flatMap.mp h
    obtain ⟨j, hj⟩ := getElem?_of_mem hq
    obtain ⟨place, trail, x, hreach, hx⟩ := ih _ hq hi
    exact ⟨j :: place, _, x, reach_cons.mpr ⟨bs, part, trail, hj, hreach, rfl⟩, hx⟩

theorem mem_marks_of_reach {place : List Nat} (h : n.reach place = some (trail, x))
    (hi : construct? x = some i) : i ∈ marks (walk n) :=
  mem_filterMap.mpr ⟨x, mem_walk_of_reach h, hi⟩

/-- In a tree whose step bindings have numbers of their own, each is at one place. -/
theorem reach_unique {y : Node} {place place' : List Nat} {trail' : List Binder}
    (hnodup : (marks (walk n)).Nodup) (hx : n.reach place = some (trail, x))
    (hy : n.reach place' = some (trail', y)) (hxi : construct? x = some i)
    (hyi : construct? y = some i) : place = place' := by
  have hinside {n : Node} (hnodup : (marks (walk n)).Nodup) (hn : construct? n = some i) {j : Nat}
      {rest : List Nat} {trail : List Binder} {z : Node} (hz : n.reach (j :: rest) = some (trail, z))
      (hzi : construct? z = some i) : False := by
    obtain ⟨bs, part, trail1, hpart, hreach, -⟩ := reach_cons.mp hz
    rw [marks_walk, hn] at hnodup
    refine (nodup_cons.mp hnodup).1 (mem_flatMap.mpr ⟨_, mem_of_getElem? hpart, ?_⟩)
    exact mem_marks_of_reach hreach hzi
  induction place generalizing n place' trail trail' with
  | nil =>
    cases place' with
    | nil => rfl
    | cons k place' =>
      cases hx
      exact (hinside hnodup hxi hy hyi).elim
  | cons j place ih =>
    cases place' with
    | nil =>
      cases hy
      exact (hinside hnodup hyi hx hxi).elim
    | cons k place' =>
      obtain ⟨bs, part, trail1, hpart, hreach, -⟩ := reach_cons.mp hx
      obtain ⟨bs', part', trail2, hpart', hreach', -⟩ := reach_cons.mp hy
      rw [marks_walk] at hnodup
      obtain ⟨hparts, hpairs⟩ := nodup_flatMap.mp (nodup_append.mp hnodup).2.1
      obtain ⟨hj, heq⟩ := List.getElem?_eq_some_iff.mp hpart
      obtain ⟨hk, heq'⟩ := List.getElem?_eq_some_iff.mp hpart'
      have hi : i ∈ marks (walk n.parts[j].2) := heq ▸ mem_marks_of_reach hreach hxi
      have hi' : i ∈ marks (walk n.parts[k].2) := heq' ▸ mem_marks_of_reach hreach' hyi
      have hdisjoint := pairwise_iff_getElem.mp hpairs
      have hjk : j = k := by
        rcases Nat.lt_trichotomy j k with h | h | h
        · exact (hdisjoint j k hj hk h hi hi').elim
        · exact h
        · exact (hdisjoint k j hk hj h hi' hi).elim
      subst hjk
      cases hpart.symm.trans hpart'
      rw [ih (hparts _ (mem_of_getElem? hpart)) hreach hreach']

end Marks

end Node

/-- A module as one node; its places are the same. -/
def Module.root (m : Module) : Node := .expr (.function m.span none [] m.body)

theorem Module.reach_root (m : Module) (i : Nat) (place : List Nat) :
    m.root.reach (i :: place) = m.reach (i :: place) := by
  ext ⟨trail, x⟩
  rw [Node.reach_cons, Module.reach_cons]
  have hparts : m.root.parts[i]? = m.body[i]?.map fun s =>
      ([Binder.names (functionNames [] m.body)], .stmt s) := getElem?_map ..
  constructor
  · rintro ⟨bs, part, trail', hpart, hreach, rfl⟩
    obtain ⟨s, hs, heq⟩ := Option.map_eq_some_iff.mp (hparts ▸ hpart)
    cases heq
    exact ⟨s, trail', hs, hreach, rfl⟩
  · rintro ⟨s, trail', hs, hreach, rfl⟩
    exact ⟨_, _, trail', by rw [hparts, hs]; rfl, hreach, rfl⟩

theorem Module.marks_root (m : Module) : marks (Node.walk m.root) = marks (walkStmts m.body) := rfl

/-- The list has every value as often as there are places for it. -/
def Located {α : Type} (out : List α) (S : List Nat → α → Prop) : Prop :=
  ∃ l : List (List Nat × α), (l.map Prod.fst).Nodup ∧ (∀ place a, (place, a) ∈ l ↔ S place a) ∧
    out = l.map Prod.snd

namespace Located

variable {α β : Type} {out out' : List α} {S S' : List Nat → α → Prop}

theorem congr (h : Located out S) (hS : ∀ place a, S place a ↔ S' place a) : Located out S' := by
  obtain ⟨l, hnodup, hmem, rfl⟩ := h
  exact ⟨l, hnodup, fun place a => (hmem place a).trans (hS place a), rfl⟩

theorem nil (h : ∀ place a, ¬S place a) : Located [] S :=
  ⟨[], .nil, fun place a => by simp [h place a], rfl⟩

theorem single (place : List Nat) (a : α) : Located [a] fun p b => p = place ∧ b = a :=
  ⟨[(place, a)], by simp, fun p b => by simp, rfl⟩

theorem append (h : Located out S) (h' : Located out' S')
    (hdisjoint : ∀ place a a', S place a → ¬S' place a') :
    Located (out ++ out') fun place a => S place a ∨ S' place a := by
  obtain ⟨l, hnodup, hmem, rfl⟩ := h
  obtain ⟨l', hnodup', hmem', rfl⟩ := h'
  refine ⟨l ++ l', ?_, fun place a => ?_, map_append.symm⟩
  · rw [map_append]
    refine nodup_append'.mpr ⟨hnodup, hnodup', fun place hp hp' => ?_⟩
    obtain ⟨⟨_, a⟩, ha, rfl⟩ := mem_map.mp hp
    obtain ⟨⟨_, a'⟩, ha', rfl⟩ := mem_map.mp hp'
    exact hdisjoint _ a a' ((hmem _ a).mp ha) ((hmem' _ a').mp ha')
  · rw [mem_append, hmem, hmem']

theorem filter (h : Located out S) (p : α → Bool) :
    Located (out.filter p) fun place a => S place a ∧ p a := by
  obtain ⟨l, hnodup, hmem, rfl⟩ := h
  refine ⟨l.filter (p ∘ Prod.snd), ?_, fun place a => ?_, filter_map⟩
  · exact hnodup.sublist ((filter_sublist).map _)
  · rw [mem_filter, hmem]
    rfl

theorem map (h : Located out S) (f : α → β) :
    Located (out.map f) fun place b => ∃ a, S place a ∧ b = f a := by
  obtain ⟨l, hnodup, hmem, rfl⟩ := h
  refine ⟨l.map fun x => (x.1, f x.2), by simpa [Function.comp_def] using hnodup, fun place b => ?_,
    by simp⟩
  simp only [mem_map, Prod.mk.injEq, Prod.exists, hmem]
  constructor
  · rintro ⟨_, a, ha, rfl, rfl⟩
    exact ⟨a, ha, rfl⟩
  · rintro ⟨a, ha, rfl⟩
    exact ⟨place, a, ha, rfl, rfl⟩

/-- What is located in a part is located in the node. -/
theorem under (h : Located out S) (i : Nat) :
    Located out fun place a => ∃ rest, place = i :: rest ∧ S rest a := by
  obtain ⟨l, hnodup, hmem, rfl⟩ := h
  refine ⟨l.map fun x => (i :: x.1, x.2), ?_, fun place a => ?_, by simp⟩
  · have := hnodup.map (cons_injective (a := i))
    simpa [Function.comp_def] using this
  · simp only [mem_map, Prod.mk.injEq, Prod.exists, hmem]
    constructor
    · rintro ⟨rest, b, hb, rfl, rfl⟩
      exact ⟨rest, rfl, hb⟩
    · rintro ⟨rest, rfl, ha⟩
      exact ⟨rest, a, ha, rfl, rfl⟩

/-- A list that is located by what its values are made of. -/
theorem lift {R : List Nat → β → Prop} {g : β → α}
    (h : Located out fun place a => ∃ b, R place b ∧ a = g b)
    (hunique : ∀ place b b', R place b → R place b' → b = b') :
    ∃ bs, Located bs R ∧ out = bs.map g := by
  obtain ⟨l, hnodup, hmem, rfl⟩ := h
  have hlist : ∃ k : List (List Nat × β), k.map Prod.fst = l.map Prod.fst ∧
      l.map Prod.snd = (k.map Prod.snd).map g ∧ ∀ x ∈ k, R x.1 x.2 := by
    have hall : ∀ x ∈ l, ∃ b, R x.1 b ∧ x.2 = g b := fun x hx => (hmem x.1 x.2).mp hx
    clear hmem hnodup
    induction l with
    | nil => exact ⟨[], rfl, rfl, nofun⟩
    | cons x l ih =>
      obtain ⟨⟨b, hb, heq⟩, hl⟩ := forall_mem_cons.mp hall
      obtain ⟨k, hfst, hsnd, hR⟩ := ih hl
      exact ⟨(x.1, b) :: k, congrArg (x.1 :: ·) hfst, by rw [map_cons, heq, hsnd]; rfl,
        forall_mem_cons.mpr ⟨hb, hR⟩⟩
  obtain ⟨k, hfst, hsnd, hR⟩ := hlist
  refine ⟨k.map Prod.snd, ⟨k, hfst ▸ hnodup, fun place b => ⟨fun h => hR _ h, fun hb => ?_⟩, rfl⟩, hsnd⟩
  have hplace : place ∈ k.map Prod.fst :=
    hfst ▸ mem_map.mpr ⟨_, (hmem place (g b)).mpr ⟨b, hb, rfl⟩, rfl⟩
  obtain ⟨⟨_, b'⟩, hb', rfl⟩ := mem_map.mp hplace
  rwa [hunique _ b b' hb (hR _ hb')]

end Located

end StepBinding
