import StepBinding.Proofs.Tree.Reach
import StepBinding.Resolved

/-! Scopes and trails. The scope in which a part of a tree is visited binds each name as the
binders around the part say: the innermost binder of the name decides, and without one the name
is bound as in the scope around. -/

namespace StepBinding

open List StepBinding.Tree

namespace Frame

theorem mem_of_mem_defineAll {b : Binding} {frame : Frame} {bs : List Binding}
    (h : b ∈ frame.defineAll bs) : b ∈ frame ∨ b ∈ bs := by
  induction bs generalizing frame with
  | nil => exact .inl h
  | cons c bs ih =>
    rcases @ih (frame.define c) h with h | h
    · unfold define at h
      split at h
      · exact .inl h
      · rcases mem_append.mp h with h | h
        · exact .inl h
        · exact .inr (mem_cons.mpr (.inl (mem_singleton.mp h)))
    · exact .inr (mem_cons_of_mem _ h)

theorem isSome_lookup_define (frame : Frame) (b : Binding) (name : String) :
    ((frame.define b).lookup name).isSome = ((frame.lookup name).isSome || b.name == name) := by
  unfold define
  split
  · rename_i h
    by_cases hb : b.name = name
    · simp [← hb, h]
    · simp [hb]
  · simp [lookup, find?_append, find?_singleton, Option.isSome_or]
    split <;> simp_all

/-- A frame binds the names that were added to it. -/
theorem isSome_lookup_defineAll (frame : Frame) (bs : List Binding) (name : String) :
    ((frame.defineAll bs).lookup name).isSome =
      ((frame.lookup name).isSome || (bs.map Binding.name).contains name) := by
  induction bs generalizing frame with
  | nil => simp [defineAll]
  | cons b bs ih =>
    change (((frame.define b).defineAll bs).lookup name).isSome = _
    rw [ih, isSome_lookup_define, map_cons, contains_cons, Bool.or_assoc, Bool.beq_comm]

end Frame

theorem Scope.mem_of_lookup {scope : Scope} {name : String} {b : Binding}
    (h : scope.lookup name = some b) : ∃ frame ∈ scope, b ∈ frame := by
  induction scope with
  | nil => cases h
  | cons frame outer ih =>
    unfold Scope.lookup at h
    cases hf : Frame.lookup frame name with
    | some c =>
      rw [hf] at h
      cases h
      exact ⟨frame, mem_cons_self, mem_of_find?_eq_some hf⟩
    | none =>
      rw [hf] at h
      obtain ⟨frame, hframe, hb⟩ := ih h
      exact ⟨frame, mem_cons_of_mem _ hframe, hb⟩

namespace Resolve

variable {ctx : Context} {scope scope1 scope2 : Scope} {bs cs : List Binder}

/-- The scope `inner` is reached from `outer` through binders. -/
def Entered (ctx : Context) (outer : Scope) (bs : List Binder) (inner : Scope) : Prop :=
  ∀ name, match bs.find? fun b => b.binds name with
    | none => inner.lookup name = outer.lookup name
    | some (.names _) => ∃ b, inner.lookup name = some b ∧ b.kind ≠ .temporary
    | some (.later _ i) =>
      ∃ b, inner.lookup name = some b ∧ b.kind = .temporary ∧ b.fresh = some (ctx.freshOf i)

theorem Entered.refl : Entered ctx scope [] scope := fun _ => rfl

theorem Entered.trans (h : Entered ctx scope bs scope1) (h' : Entered ctx scope1 cs scope2) :
    Entered ctx scope (cs ++ bs) scope2 := by
  intro name
  have h := h name
  have h' := h' name
  rw [find?_append]
  cases hc : cs.find? fun b => b.binds name with
  | some b =>
    rw [hc] at h'
    rw [Option.some_or]
    cases b <;> exact h'
  | none =>
    simp only [hc] at h'
    simp only [Option.none_or, h']
    exact h

/-- A frame that binds names, none of them for a step binding. -/
theorem entered_frame {frame : Frame} {declared : List String}
    (hnames : ∀ name, (frame.lookup name).isSome = declared.contains name)
    (hkind : ∀ b ∈ frame, b.kind ≠ .temporary) :
    Entered ctx scope [.names declared] (frame :: scope) := by
  intro name
  have hname := hnames name
  cases hd : declared.contains name with
  | true =>
    rw [hd] at hname
    obtain ⟨b, hb⟩ := Option.isSome_iff_exists.mp hname
    simp only [find?_cons, Binder.binds, hd]
    exact ⟨b, by simp [Scope.lookup, hb], hkind b (mem_of_find?_eq_some hb)⟩
  | false =>
    rw [hd] at hname
    have hb : frame.lookup name = none := by simpa using hname
    simp only [find?_cons, Binder.binds, hd, find?_nil]
    simp [Scope.lookup, hb]

theorem entered_defineAll {bs : List Binding} {declared : List String}
    (hnames : bs.map Binding.name = declared) (hkind : ∀ b ∈ bs, b.kind ≠ .temporary) :
    Entered ctx scope [.names declared] (Frame.defineAll [] bs :: scope) := by
  refine entered_frame (fun name => ?_) fun b hb => ?_
  · rw [Frame.isSome_lookup_defineAll, hnames]
    simp [Frame.lookup]
  · exact (Frame.mem_of_mem_defineAll hb).elim nofun (hkind b)

theorem names_parameters (params : List String) :
    (parameters params).map Binding.name = params := by
  simp [parameters, Function.comp_def]

theorem entered_parameters (params : List String) :
    Entered ctx scope [.names params] (Frame.defineAll [] (parameters params) :: scope) := by
  refine entered_defineAll (names_parameters params) fun b hb => ?_
  obtain ⟨name, -, rfl⟩ := mem_map.mp hb
  exact nofun

theorem names_declarators (ds : List Declarator) :
    (ds.map declaratorBinding).map Binding.name = ds.map Declarator.name := by
  rw [map_map]
  refine map_congr_left fun d _ => ?_
  obtain ⟨span, name, init⟩ := d
  rfl

theorem kind_declarators (ds : List Declarator) :
    ∀ b ∈ ds.map declaratorBinding, b.kind ≠ .temporary := by
  intro b hb
  obtain ⟨⟨span, name, init⟩, -, rfl⟩ := mem_map.mp hb
  exact nofun

theorem names_declared (s : Stmt) : (declared s).map Binding.name = standing s := by
  cases s with
  | declare _ q ds => cases q <;> first | rfl | exact names_declarators ds
  | steps _ q _ _ _ _ _ => cases q <;> rfl
  | _ => rfl

theorem names_flatMap_declared (body : List Stmt) :
    (body.flatMap declared).map Binding.name = body.flatMap standing := by
  induction body with
  | nil => rfl
  | cons s ss ih => rw [flatMap_cons, map_append, ih, names_declared, flatMap_cons]

theorem kind_declared (body : List Stmt) : ∀ b ∈ body.flatMap declared, b.kind ≠ .temporary := by
  intro b hb
  obtain ⟨s, -, hs⟩ := mem_flatMap.mp hb
  unfold declared at hs
  split at hs
  · cases hs
  · exact kind_declarators _ b hs
  · cases mem_singleton.mp hs
    exact nofun
  · cases hs
  · cases mem_singleton.mp hs
    exact nofun
  · cases hs

theorem entered_blockFrame (body : List Stmt) :
    Entered ctx scope [.names (body.flatMap standing)] (blockFrame body :: scope) :=
  entered_defineAll (names_flatMap_declared body) (kind_declared body)

theorem entered_functionFrame (params : List String) (body : List Stmt) :
    Entered ctx scope [.names (functionNames params body)]
      (functionFrame params body :: scope) := by
  refine entered_defineAll ?_ fun b hb => ?_
  · rw [map_append, map_append, names_parameters, names_flatMap_declared]
    simp [variableBindings, functionNames, Function.comp_def]
  · rcases mem_append.mp hb with hb | hb
    · rcases mem_append.mp hb with hb | hb <;>
        obtain ⟨name, -, rfl⟩ := mem_map.mp hb <;> exact nofun
    · exact kind_declared body b hb

theorem entered_loopFrame (init : Option Stmt) :
    Entered ctx scope [.names (headerNames init)] (loopFrame init :: scope) := by
  have hnone : Entered ctx scope [.names []] ([] :: scope) := entered_frame (fun _ => rfl) nofun
  cases init with
  | none => exact hnone
  | some s =>
    cases s with
    | declare span q ds =>
      cases q <;>
        first | exact hnone | exact entered_defineAll (names_declarators ds) (kind_declarators ds)
    | _ => exact hnone

theorem entered_single {name : String} {b : Binding} (hname : b.name = name)
    (hkind : b.kind ≠ .temporary) : Entered ctx scope [.names [name]] ([b] :: scope) := by
  refine entered_frame (fun x => ?_) (by simpa using hkind)
  subst hname
  by_cases hx : b.name = x
  · simp [Frame.lookup, hx]
  · simp [Frame.lookup, hx, Ne.symm hx]

theorem entered_nameScope (name : Option String) :
    Entered ctx scope (Node.nameBinder name) (nameScope scope name) := by
  cases name with
  | none => exact .refl
  | some name => exact entered_single rfl nofun

theorem entered_stepScope (binding : String) (span : Span) (index : Nat) :
    Entered ctx scope [.later binding index] (stepScope ctx scope binding span index) := by
  intro name
  by_cases hname : binding = name
  · simp [Binder.binds, hname, stepScope, Scope.lookup, Frame.lookup]
  · simp [Binder.binds, hname, stepScope, Scope.lookup, Frame.lookup]

end Resolve

end StepBinding
