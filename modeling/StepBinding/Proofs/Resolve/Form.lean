import StepBinding.Proofs.Resolve.Parts

/-! Resolving keeps the form of a tree. Identifiers change their names only, to fresh names, and
step bindings are rejected only together with an error. So the tree is as well-formed as it was,
and if no error is reported nothing in it is rejected. -/

namespace StepBinding

open List StepBinding.Tree Node

variable {n : Node} {calm : Prop}

namespace Resolve

variable {N : String → Prop} {ctx : Context}

/-- The fresh names in a scope are of the given kind. -/
def Names (N : String → Prop) (scope : Scope) : Prop :=
  ∀ name b, scope.lookup name = some b → b.kind = .temporary → ∀ f ∈ b.fresh, N f

theorem Names.entered {inner : Scope} {bs : List Binder} (h : Names N scope)
    (hfresh : ∀ binding i, .later binding i ∈ bs → N (ctx.freshOf i))
    (he : Entered ctx scope bs inner) : Names N inner := by
  intro name b hb hkind f hf
  have he := he name
  cases hfind : bs.find? fun b => b.binds name with
  | none =>
    rw [hfind] at he
    simp only at he
    exact h name b (he ▸ hb) hkind f hf
  | some c =>
    rw [hfind] at he
    cases c with
    | names =>
      obtain ⟨b', hb', hkind'⟩ := he
      rw [hb] at hb'
      cases hb'
      exact absurd hkind hkind'
    | later binding i =>
      obtain ⟨b', hb', -, hfresh'⟩ := he
      rw [hb] at hb'
      cases hb'
      rw [hfresh'] at hf
      cases hf
      exact hfresh binding i (mem_of_find?_eq_some hfind)

/-- No error is reported, if none is to be met. -/
def Silent (calm : Prop) (t : Trace) : Prop := calm → ∀ d ∈ t.diagnostics, d.isError = false

section Shape

theorem isTarget_value (e : Expr) : (expr ctx scope e).value.isTarget = e.isTarget := by
  cases e with
  | identifier span name =>
    obtain ⟨name', hvalue, -⟩ := value_identifier scope span name
    change (identifier scope span name).value.isTarget
    rw [hvalue]
    rfl
  | steps span qualifier binding steps index fresh =>
    cases steps with
    | nil => rfl
    | cons => rcases @node_steps_cases ctx scope _ _ _ _ _ _ .expression with h | ⟨h, -⟩ <;>
      rw [Node.expr.inj h] <;> rfl
  | _ => rfl

theorem isNewCallee_value (e : Expr) : (expr ctx scope e).value.isNewCallee = e.isNewCallee := by
  cases e with
  | identifier span name =>
    obtain ⟨name', hvalue, -⟩ := value_identifier scope span name
    change (identifier scope span name).value.isNewCallee
    rw [hvalue]
    rfl
  | steps span qualifier binding steps index fresh =>
    cases steps with
    | nil => rfl
    | cons => rcases @node_steps_cases ctx scope _ _ _ _ _ _ .expression with h | ⟨h, -⟩ <;>
      rw [Node.expr.inj h] <;> rfl
  | member _ o _ => exact isNewCallee_value o
  | index _ o _ => exact isNewCallee_value o
  | _ => rfl

theorem endsOpenIf_value (scope : Scope) (s : Stmt) :
    (stmt ctx scope s).value.endsOpenIf = s.endsOpenIf := by
  cases s with
  | steps span qualifier binding result steps index fresh =>
    cases steps with
    | nil => rfl
    | cons => rcases @node_steps_cases ctx scope _ _ _ _ _ _ .declaration with h | ⟨h, -⟩ <;>
      rw [Node.stmt.inj h] <;> rfl
  | ret _ e => cases e <;> rfl
  | ifElse _ _ _ alternate =>
    cases alternate with
    | none => rfl
    | some a => exact endsOpenIf_value _ a
  | whileLoop _ _ body => exact endsOpenIf_value _ body
  | forLoop _ init test update body =>
    rw [stmt_forLoop]
    exact endsOpenIf_value _ body
  | forOf _ _ _ _ body => exact endsOpenIf_value _ body
  | _ => rfl

theorem length_exprs (es : List Expr) : (exprs ctx scope es).value.length = es.length := by
  induction es with
  | nil => rfl
  | cons e es ih => exact congrArg (· + 1) ih

theorem length_declarators (ds : List Declarator) :
    (declarators ctx scope ds).value.length = ds.length := by
  induction ds with
  | nil => rfl
  | cons d ds ih =>
    obtain ⟨span, name, init⟩ := d
    cases init <;> exact congrArg (· + 1) ih

theorem init?_declarators {ds : List Declarator} (h : ∀ d ∈ ds, d.init?.isSome) :
    ∀ d ∈ (declarators ctx scope ds).value, d.init?.isSome := by
  induction ds with
  | nil => exact nofun
  | cons d ds ih =>
    obtain ⟨hd, hds⟩ := forall_mem_cons.mp h
    obtain ⟨span, name, init⟩ := d
    cases init with
    | none => cases hd
    | some e => exact forall_mem_cons.mpr ⟨rfl, ih hds⟩

end Shape

/-- A step binding keeps its number and gets its fresh name, unless it is rejected. -/
theorem node_construct {n : Node} {i : Nat} (hn : n.Formed N) (hi : construct? n = some i) :
    (node ctx scope n).isRejected ∨ (construct? (node ctx scope n) = some i ∧
      (node ctx scope n).fresh? = some (ctx.freshOf i)) := by
  obtain ⟨span, binding, es, h⟩ := construct?_iff_steps.mp hi
  obtain ⟨first, later, rfl⟩ : ∃ first later, es = first :: later := exists_cons_of_ne_nil <| by
    cases h with
    | expression => exact hn.2.2
    | declaration => exact hn.2.2.2
  rcases @node_steps_cases ctx scope _ _ _ _ _ _ h with heq | ⟨heq, -⟩ <;> rw [heq] <;> cases h
  · exact .inr ⟨rfl, rfl⟩
  · exact .inr ⟨rfl, rfl⟩
  · exact .inl rfl
  · exact .inl rfl

/-- A property `P` of nodes turns into `Q` in scopes of a kind that is kept by all binders. -/
structure Turns (ctx : Context) (calm : Prop) (Inv : Scope → Prop) (P Q : Node → Prop) : Prop where
  enters : ∀ {scope n p inner}, Inv scope → P n → p ∈ n.parts → Entered ctx scope p.1 inner →
    Inv inner
  node : ∀ {scope n}, Inv scope → P n → Silent calm (trace ctx scope n) → Q (node ctx scope n)
  /-- The block of an arrow function is no scope of its own. -/
  block : ∀ {span body body'}, P (.stmt (.block span body)) → Q (.stmt (.block span body'))

theorem own_node {x : Node} (hx : x ∈ (node ctx scope n).own) : x = node ctx scope n ∨
    ∃ span body body', x = .stmt (.block span body') ∧ .stmt (.block span body) ∈ n.own := by
  have one {m : Node} (h : x ∈ [m]) := Or.inl (b := ∃ span body body',
    x = .stmt (.block span body') ∧ .stmt (.block span body) ∈ n.own) (mem_singleton.mp h)
  cases n with
  | expr e =>
    cases e with
    | arrowBlock span params blockSpan body =>
      refine (mem_cons.mp hx).imp_right fun h => ⟨blockSpan, body, _, mem_singleton.mp h, ?_⟩
      exact mem_cons_of_mem _ mem_cons_self
    | identifier span name =>
      obtain ⟨name', hnode⟩ := @node_identifier ctx scope span name
      rw [hnode] at hx ⊢
      exact one hx
    | steps span qualifier binding steps index fresh =>
      cases steps with
      | nil => exact one hx
      | cons first later =>
        rcases @node_steps_cases ctx scope _ _ _ _ _ _ .expression with h | ⟨h, -⟩ <;>
          rw [h] at hx ⊢ <;> exact one hx
    | _ => exact one hx
  | stmt s => exact one hx
  | property p => cases p; exact one hx
  | declarator d => cases d; exact one hx

section All

variable {Inv : Scope → Prop} {P Q : Node → Prop} (t : Turns ctx calm Inv P Q)

include t

/-- What holds of all nodes of a tree turns into what holds of all nodes it becomes. -/
theorem node_all (hi : Inv scope) (hP : ∀ x ∈ walk n, P x) (hd : Silent calm (trace ctx scope n)) :
    ∀ x ∈ walk (node ctx scope n), Q x := by
  induction n using induction_parts generalizing scope with | step n ih
  intro x hx
  have hn := hP n (self_mem_walk n)
  rw [walk_eq, mem_append, mem_flatMap] at hx
  rcases hx with hx | ⟨q, hq, hx⟩
  · rcases own_node hx with rfl | ⟨span, body, body', rfl, hblock⟩
    · exact t.node hi hn hd
    · exact t.block (hP _ (walk_eq n ▸ mem_append_left _ hblock))
  rcases @visited_parts ctx scope n with hrejected | hparts
  · rw [parts_rejected hrejected] at hq
    cases hq
  obtain ⟨j, hj⟩ := getElem?_of_mem hq
  obtain ⟨p, hp, inner, hentered, hnode, -, hds⟩ := exists_of_forall₂ hparts.flip hj
  have hp := mem_of_getElem? hp
  rw [hnode] at hx
  exact ih p hp (t.enters hi hn hp hentered) (fun x hx => hP x (walk_parts hp hx))
    (fun hc d hmem => hd hc d (hds hmem)) x hx

end All

/-- A node keeps its form, and is rejected only with an error. -/
theorem kept_node (hs : Names N scope) (h : n.Kept N calm) (hd : Silent calm (trace ctx scope n)) :
    (node ctx scope n).Kept N calm := by
  have absurd_error (hn : ∃ d ∈ (trace ctx scope n).diagnostics, d.isError) (hc : calm) :
      False := by
    obtain ⟨d, hmem, he⟩ := hn
    have := hd hc d hmem
    rw [he] at this
    cases this
  cases n with
  | expr e =>
    cases e with
    | identifier span name =>
      obtain ⟨name', hvalue, hname⟩ := value_identifier scope span name
      change Kept N calm (.expr (identifier scope span name).value)
      rw [hvalue]
      refine ⟨?_, fun _ => rfl⟩
      rcases hname with rfl | ⟨b, hb, hkind, hf⟩
      · exact h.1
      · exact hs name b hb hkind name' hf
    | template span quasis es =>
      exact ⟨h.1.trans (congrArg (· + 1) (length_exprs es).symm), h.2⟩
    | new span callee args => exact ⟨(isNewCallee_value callee).trans h.1, h.2⟩
    | update span op leading target =>
      exact ⟨⟨h.1.1, (isTarget_value target).trans h.1.2⟩, h.2⟩
    | assign span target op value => exact ⟨⟨h.1.1, (isTarget_value target).trans h.1.2⟩, h.2⟩
    | sequence span es =>
      refine ⟨fun hnil => h.1 (length_eq_zero_iff.mp ?_), h.2⟩
      exact (length_exprs es).symm.trans (congrArg List.length hnil)
    | steps span qualifier binding steps index fresh =>
      cases steps with
      | nil => exact h
      | cons first later =>
        rcases @node_steps_cases ctx scope _ _ _ _ _ _ .expression with heq | ⟨heq, he⟩ <;> rw [heq]
        · exact ⟨⟨h.1.1, h.1.2.1, nofun⟩, fun _ => rfl⟩
        · exact ⟨trivial, fun hc => (absurd_error he hc).elim⟩
    | _ => exact h
  | property p =>
    obtain ⟨span, key, value, shorthand⟩ := p
    exact h
  | declarator d =>
    obtain ⟨span, name, init⟩ := d
    exact h
  | stmt s =>
    cases s with
    | declare span qualifier ds =>
      refine ⟨⟨h.1.1, fun hnil => h.1.2.1 (length_eq_zero_iff.mp ?_),
        fun hq => init?_declarators (h.1.2.2 hq)⟩, h.2⟩
      exact (length_declarators ds).symm.trans (congrArg List.length hnil)
    | steps span qualifier binding result steps index fresh =>
      cases steps with
      | nil => exact h
      | cons first later =>
        rcases @node_steps_cases ctx scope _ _ _ _ _ _ .declaration with heq | ⟨heq, he⟩ <;> rw [heq]
        · exact ⟨⟨h.1.1, h.1.2.1, h.1.2.2.1, nofun⟩, fun _ => rfl⟩
        · exact ⟨trivial, fun hc => (absurd_error he hc).elim⟩
    | ret span value => cases value <;> exact h
    | ifElse span test consequent alternate =>
      cases alternate with
      | none => exact h
      | some a => exact ⟨(endsOpenIf_value scope consequent).trans h.1, h.2⟩
    | forLoop span init test update body =>
      change Kept N calm (.stmt (stmt ctx scope _).value)
      rw [stmt_forLoop]
      refine ⟨?_, fun _ => rfl⟩
      cases init with
      | none => trivial
      | some s =>
        cases s with
        | declare | expr => trivial
        | _ => exact h.1.elim
    | _ => exact h

/-- The fresh name of a node that is a step binding is of the given kind. -/
def Named (ctx : Context) (N : String → Prop) (n : Node) : Prop :=
  ∀ i, construct? n = some i → N (ctx.freshOf i)

theorem turns_kept : Turns ctx calm (Names N) (fun n => Kept N calm n ∧ Named ctx N n)
    (Kept N calm) where
  enters hs h hp he := hs.entered (fun _ i hmem => h.2 i (later_of_part hp hmem)) he
  node hs h hd := kept_node hs h.1 hd
  block h := h.1

end Resolve

namespace Resolved

open Resolve

variable {names : FreshNames} {shadowWarnings : Bool} {globals : List String}
  {log : Construct.Log} {m : Module} {resolved : Resolved}

/-- The context in which a module is visited. -/
def context (names : FreshNames) (shadowWarnings : Bool) (m : Module) : Context :=
  { freshOf := fun i => ((freshTable names m).lookup i).getD "", shadowWarnings }

/-- The visit of a module. -/
def visit (names : FreshNames) (shadowWarnings : Bool) (globals : List String) (m : Module) :
    Visit (List Stmt) :=
  stmts (context names shadowWarnings m) (moduleScope globals m.body) m.body

theorem ofModule_eq_ok (h : ofModule names shadowWarnings globals log m = .ok resolved) :
    resolved.module = { m with body := (visit names shadowWarnings globals m).value } ∧
      resolved.diagnostics = (visit names shadowWarnings globals m).diagnostics ∧
      Edit.applyAll log (visit names shadowWarnings globals m).edits = .ok resolved.log := by
  unfold ofModule at h
  dsimp only at h
  cases hlog : Edit.applyAll log (visit names shadowWarnings globals m).edits with
  | error why =>
    change (Edit.applyAll log (visit names shadowWarnings globals m).edits >>= _) = _ at h
    rw [hlog] at h
    cases h
  | ok log' =>
    change (Edit.applyAll log (visit names shadowWarnings globals m).edits >>= _) = _ at h
    rw [hlog] at h
    cases h
    exact ⟨rfl, rfl, rfl⟩

/-- The scope around a module. -/
def outerScope (globals : List String) : Scope :=
  [Frame.defineAll [] (globals.map fun name => { name, kind := .global })]

theorem kind_outerScope {globals : List String} {name : String} {b : Binding}
    (h : (outerScope globals).lookup name = some b) : b.kind ≠ .temporary := by
  obtain ⟨frame, hframe, hb⟩ := Scope.mem_of_lookup h
  cases mem_singleton.mp hframe
  obtain ⟨name, -, rfl⟩ := mem_map.mp ((Frame.mem_of_mem_defineAll hb).resolve_left nofun)
  exact nofun

theorem trace_root : trace (context names shadowWarnings m) (outerScope globals) m.root =
    (visit names shadowWarnings globals m).trace :=
  Trace.append_empty (visit names shadowWarnings globals m).trace

/-- What holds of all nodes of a module turns into what holds of all nodes it becomes. -/
theorem visit_all {Inv : Scope → Prop} {P Q : Node → Prop}
    (t : Turns (context names shadowWarnings m) calm Inv P Q) (hi : Inv (outerScope globals))
    (hroot : P m.root) (h : AllStmts P m.body)
    (hd : Silent calm (visit names shadowWarnings globals m).trace) :
    AllStmts Q (visit names shadowWarnings globals m).value := by
  rw [allStmts_iff_walk] at h ⊢
  have hall := node_all t (n := m.root) hi (forall_mem_cons.mpr ⟨hroot, h⟩) (trace_root ▸ hd)
  exact (forall_mem_cons.mp hall).2

/-- The visit of a module keeps its form. -/
theorem kept_visit {N : String → Prop} (h : AllStmts (Kept N calm) m.body)
    (hfresh : ∀ i ∈ marks (walkStmts m.body), N ((context names shadowWarnings m).freshOf i))
    (hd : Silent calm (visit names shadowWarnings globals m).trace) :
    AllStmts (Kept N calm) (visit names shadowWarnings globals m).value := by
  refine visit_all turns_kept (fun name b hb hkind => absurd hkind (kind_outerScope hb))
    ⟨⟨⟨nofun, nofun⟩, fun _ => rfl⟩, nofun⟩ ?_ hd
  rw [allStmts_iff_walk] at h ⊢
  exact fun n hn => ⟨h n hn, fun i hi => hfresh i (mem_filterMap.mpr ⟨n, hn, hi⟩)⟩

end Resolved

end StepBinding
