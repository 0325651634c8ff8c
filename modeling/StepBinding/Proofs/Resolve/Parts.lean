import StepBinding.Proofs.Resolve.Scopes
import StepBinding.Proofs.Tree.Places

/-! How a visit goes through a tree. A node becomes a node of the same kind, unless it is a step binding
that is rejected. What is met at a node, the references that mean nothing, the diagnostics and the
edits, is for most nodes what is met in the parts in turn, each part being visited in a scope that
is entered through the binders around it. A step binding takes the references to its own binding
out of those of its first step. -/

namespace StepBinding

open List StepBinding.Tree Construct

variable {n : Node} {s : Stmt}

/-- The node is a step binding with the given range, binding, number and steps. -/
inductive Node.Steps : Node → Span → String → Nat → List Expr → Prop
  | expression {span qualifier binding es index fresh} :
    Steps (.expr (.steps span qualifier binding es index fresh)) span binding index es
  | declaration {span qualifier binding result es index fresh} :
    Steps (.stmt (.steps span qualifier binding result es index fresh)) span binding index es

namespace Node

variable {n : Node} {span : Span} {binding : String} {i : Nat} {es : List Expr}

theorem construct?_iff_steps : construct? n = some i ↔
    ∃ span binding es, n.Steps span binding i es := by
  constructor
  · intro h
    unfold construct? at h
    split at h
    · cases h
      exact ⟨_, _, _, .expression⟩
    · cases h
      exact ⟨_, _, _, .declaration⟩
    · cases h
  · rintro ⟨span, binding, es, h⟩
    cases h <;> rfl

theorem Steps.construct? (h : n.Steps span binding i es) : Tree.construct? n = some i :=
  construct?_iff_steps.mpr ⟨span, binding, es, h⟩

theorem Steps.unique {span' : Span} {binding' : String} {i' : Nat} {es' : List Expr}
    (h : n.Steps span binding i es) (h' : n.Steps span' binding' i' es') :
    span = span' ∧ binding = binding' ∧ i = i' ∧ es = es' := by
  cases h <;> cases h' <;> exact ⟨rfl, rfl, rfl, rfl⟩

theorem Steps.parts_eq (h : n.Steps span binding i es) : n.parts = stepParts binding i es := by
  cases h <;> rfl

/-- The step binding with the given steps and the given fresh name. -/
def settled (es : List Expr) (fresh : String) : Node → Node
  | .expr (.steps span qualifier binding _ index _) =>
    .expr (.steps span qualifier binding es index (some fresh))
  | .stmt (.steps span qualifier binding result _ index _) =>
    .stmt (.steps span qualifier binding result es index (some fresh))
  | n => n

/-- What is left of a step binding that is rejected. -/
def discarded : Node → Node
  | .expr (.steps span _ _ _ index _) => .expr (.rejected span .expression index)
  | .stmt (.steps span _ _ _ _ index _) => .stmt (.rejected span .declaration index)
  | n => n

theorem Steps.ne_identifier (h : n.Steps span binding i es) (span' : Span) (name : String) :
    n ≠ .expr (.identifier span' name) := by
  cases h <;> exact nofun

theorem Steps.not_rejected (h : n.Steps span binding i es) : ¬n.isRejected := by
  cases h <;> exact nofun

/-- All step bindings in a tree have steps. -/
def Filled (n : Node) : Prop :=
  ∀ x ∈ walk n, ∀ span binding i es, x.Steps span binding i es → es ≠ []

theorem Filled.of_formed {N : String → Prop} (h : ∀ x ∈ walk n, x.Formed N) : n.Filled := by
  intro x hx span binding i es hsteps
  have hformed := h x hx
  cases hsteps with
  | expression => exact hformed.2.2
  | declaration => exact hformed.2.2.2

theorem Filled.part (h : n.Filled) {q : Node.Part} (hq : q ∈ n.parts) : q.2.Filled :=
  fun x hx => h x (walk_parts hq hx)

theorem Filled.steps (h : n.Filled) (hn : n.Steps span binding i es) :
    ∃ first later, es = first :: later :=
  exists_cons_of_ne_nil (h n (self_mem_walk n) _ _ _ _ hn)

/-- A node is an identifier, a step binding, or neither. -/
theorem Filled.cases (h : n.Filled) : (∃ span name, n = .expr (.identifier span name)) ∨
    (Tree.construct? n = none ∧ ∀ span name, n ≠ .expr (.identifier span name)) ∨
    ∃ span binding i first later, n.Steps span binding i (first :: later) := by
  by_cases hid : ∃ span name, n = .expr (.identifier span name)
  · exact .inl hid
  cases hc : Tree.construct? n with
  | none => exact .inr (.inl ⟨rfl, fun span name heq => hid ⟨span, name, heq⟩⟩)
  | some i =>
    obtain ⟨span, binding, es, hsteps⟩ := construct?_iff_steps.mp hc
    obtain ⟨first, later, rfl⟩ := h.steps hsteps
    exact .inr (.inr ⟨span, binding, i, first, later, hsteps⟩)

end Node

namespace Resolve

variable {ctx : Context} {scope inner : Scope}

/-- An identifier stays an identifier, and gets the fresh name of the step binding it means. -/
theorem value_identifier (scope : Scope) (span : Span) (name : String) :
    ∃ name', (identifier scope span name).value = .identifier span name' ∧
      (name' = name ∨ ∃ b, scope.lookup name = some b ∧ b.kind = .temporary ∧ name' ∈ b.fresh) := by
  unfold identifier
  split
  · exact ⟨name, rfl, .inl rfl⟩
  · rename_i b hb
    split
    · rename_i hkind
      refine ⟨b.fresh.getD name, rfl, ?_⟩
      cases hf : b.fresh with
      | none => exact .inl rfl
      | some f => exact .inr ⟨b, hb, hkind, hf⟩
    · exact ⟨name, rfl, .inl rfl⟩

/-- The outcome of a step binding. -/
theorem settle_cases (binding : String) (span : Span) (index : Nat) (first : Visit Expr)
    (later : Visit (List Expr)) :
    (settle ctx scope binding span index first later).value = some (first.value :: later.value) ∨
      ((settle ctx scope binding span index first later).value = none ∧
        ∃ d ∈ (settle ctx scope binding span index first later).diagnostics, d.isError) := by
  unfold settle
  dsimp only
  cases howned : first.unresolved.filter fun ref => ref.name == binding with
  | nil => exact .inl rfl
  | cons ref refs => exact .inr ⟨rfl, earlyUse ref, by simp, rfl⟩

section Loop

/-- The start of a loop. -/
def start (ctx : Context) (scope : Scope) : Option Stmt → Visit (Option Stmt)
  | none => pure none
  | some s => some <$> stmt ctx scope s

def option (ctx : Context) (scope : Scope) : Option Expr → Visit (Option Expr)
  | none => pure none
  | some e => some <$> expr ctx scope e

theorem stmt_forLoop (ctx : Context) (scope : Scope) (span : Span) (init : Option Stmt)
    (test update : Option Expr) (body : Stmt) :
    stmt ctx scope (.forLoop span init test update body) = (do
      let init' ← start ctx (loopFrame init :: scope) init
      let test' ← option ctx (loopFrame init :: scope) test
      let update' ← option ctx (loopFrame init :: scope) update
      return .forLoop span init' test' update' (← stmt ctx (loopFrame init :: scope) body)) := by
  cases init <;> cases test <;> cases update <;> rfl

end Loop

/-- What a node becomes. -/
def node (ctx : Context) (scope : Scope) : Node → Node
  | .expr e => .expr (expr ctx scope e).value
  | .stmt s => .stmt (stmt ctx scope s).value
  | .property (.mk span key e shorthand) =>
    .property (.mk span key (expr ctx scope e).value shorthand)
  | .declarator (.mk span name init) =>
    .declarator (.mk span name (option ctx scope init).value)

/-- What is met on the way to a value. -/
structure Trace where
  unresolved : List Reference := []
  diagnostics : List Diagnostic := []
  edits : List Edit := []
  asked : List Nat := []

namespace Trace

instance : EmptyCollection Trace := ⟨{}⟩

instance : Append Trace :=
  ⟨fun t t' => ⟨t.unresolved ++ t'.unresolved, t.diagnostics ++ t'.diagnostics, t.edits ++ t'.edits,
    t.asked ++ t'.asked⟩⟩

theorem append_empty (t : Trace) : t ++ (∅ : Trace) = t := by
  change Trace.mk (t.unresolved ++ []) (t.diagnostics ++ []) (t.edits ++ []) (t.asked ++ []) = t
  simp only [append_nil]

theorem append_assoc (t t' t'' : Trace) : t ++ t' ++ t'' = t ++ (t' ++ t'') := by
  change Trace.mk (_ ++ _ ++ _) (_ ++ _ ++ _) (_ ++ _ ++ _) (_ ++ _ ++ _) = Trace.mk _ _ _ _
  simp only [List.append_assoc]
  rfl

end Trace

def Visit.trace {α : Type} (v : Visit α) : Trace :=
  ⟨v.unresolved, v.diagnostics, v.edits, v.asked⟩

/-- What the visit of a node meets. -/
def trace (ctx : Context) (scope : Scope) : Node → Trace
  | .expr e => (expr ctx scope e).trace
  | .stmt s => (stmt ctx scope s).trace
  | .property p => (expr ctx scope p.value).trace
  | .declarator (.mk _ _ none) => ∅
  | .declarator (.mk _ _ (some e)) => (expr ctx scope e).trace

section Steps

variable {n : Node} {span : Span} {binding : String} {i : Nat} {first : Expr} {later : List Expr}

/-- What is met at a step binding. -/
theorem trace_steps (h : n.Steps span binding i (first :: later)) :
    trace ctx scope n = (settle ctx scope binding span i (expr ctx scope first)
      (exprs ctx (stepScope ctx scope binding span i) later)).trace := by
  have hvalue {α : Type} (v : Visit (Option (List Expr))) (f : Option (List Expr) → Visit α)
      (hf : ∀ o, (f o).trace = ∅) : (v >>= f).trace = v.trace := by
    change v.trace ++ (f v.value).trace = _
    rw [hf, Trace.append_empty]
  cases h <;> exact hvalue _ _ fun o => by cases o <;> rfl

/-- The steps are visited, and then the step binding is kept or rejected. -/
theorem node_steps_cases (h : n.Steps span binding i (first :: later)) :
    node ctx scope n = n.settled ((expr ctx scope first).value ::
        (exprs ctx (stepScope ctx scope binding span i) later).value) (ctx.freshOf i) ∨
      (node ctx scope n = n.discarded ∧
        ∃ d ∈ (trace ctx scope n).diagnostics, d.isError) := by
  have hvalue {α : Type} {v : Visit (Option (List Expr))} {o : Option (List Expr)}
      (f : Option (List Expr) → Visit α) (hv : v.value = o) : (v >>= f).value = (f o).value := by
    rw [← hv]
    rfl
  rw [trace_steps h]
  refine (settle_cases binding span i _ _).imp (fun hv => ?_) fun hv => ⟨?_, hv.2⟩
  · cases h with
    | expression => exact congrArg Node.expr (hvalue _ hv)
    | declaration => exact congrArg Node.stmt (hvalue _ hv)
  · cases h with
    | expression => exact congrArg Node.expr (hvalue _ hv.1)
    | declaration => exact congrArg Node.stmt (hvalue _ hv.1)

/-- Only an expression becomes an expression. -/
theorem value_ne_expr (hs : ∀ span e, s ≠ .expr span e) :
    ∀ span e, (stmt ctx scope s).value ≠ .expr span e := by
  intro span e
  cases s with
  | expr span' e' => exact absurd rfl (hs span' e')
  | steps span' qualifier binding result steps index fresh =>
    cases steps with
    | nil => exact nofun
    | cons first later =>
      rcases @node_steps_cases ctx scope _ _ _ _ _ _ .declaration with h | ⟨h, -⟩ <;>
        rw [Node.stmt.inj h] <;> exact nofun
  | ret _ value => cases value <;> exact nofun
  | ifElse _ _ _ alternate => cases alternate <;> exact nofun
  | forLoop =>
    rw [stmt_forLoop]
    exact nofun
  | _ => exact nofun

theorem node_identifier (span : Span) (name : String) :
    ∃ name', node ctx scope (.expr (.identifier span name)) = .expr (.identifier span name') := by
  obtain ⟨name', hvalue, -⟩ := value_identifier scope span name
  exact ⟨name', congrArg Node.expr hvalue⟩

/-- What is met at an identifier. -/
theorem trace_identifier (span : Span) (name : String) :
    trace ctx scope (.expr (.identifier span name)) =
      { unresolved := if (scope.lookup name).isNone then [⟨name, span⟩] else [] } := by
  change (identifier scope span name).trace = _
  unfold identifier
  cases scope.lookup name with
  | none => rfl
  | some b =>
    dsimp only
    split <;> rfl

end Steps

/-- Parts that are visited in turn, with what they become and what is met in them. What a part becomes
is under the same step bindings. -/
inductive Parted (ctx : Context) (scope : Scope) : List Node.Part → List Node.Part → Trace → Prop
  | nil : Parted ctx scope [] [] ∅
  | cons {p q : Node.Part} {ps qs : List Node.Part} {inner : Scope} {t : Trace}
      (hentered : Entered ctx scope p.1 inner) (hnode : q.2 = node ctx inner p.2)
      (hlater : ∀ binding i, .later binding i ∈ p.1 → .later binding i ∈ q.1)
      (h : Parted ctx scope ps qs t) :
      Parted ctx scope (p :: ps) (q :: qs) (trace ctx inner p.2 ++ t)

theorem startPart_of_ne (hs : ∀ span e, s ≠ .expr span e) (bs : List Binder) :
    Node.startPart bs (some s) = [(bs, .stmt s)] := by
  cases s with
  | expr span e => exact absurd rfl (hs span e)
  | _ => rfl

namespace Parted

open Node

variable {ps qs ps' qs' : List Node.Part} {t t' : Trace} {bs cs : List Binder} {n : Node}

theorem append (h : Parted ctx scope ps qs t) (h' : Parted ctx scope ps' qs' t') :
    Parted ctx scope (ps ++ ps') (qs ++ qs') (t ++ t') := by
  induction h with
  | nil => exact h'
  | cons hentered hnode hlater _ ih =>
    rw [Trace.append_assoc]
    exact .cons hentered hnode hlater ih

theorem done (h : Parted ctx scope ps qs t) : Parted ctx scope ps qs (t ++ (∅ : Trace)) := by
  rwa [Trace.append_empty]

/-- A part before the others, under binders that stay binders of the same step bindings. -/
theorem under (hentered : Entered ctx scope bs inner)
    (hlater : ∀ binding i, .later binding i ∈ bs → .later binding i ∈ cs)
    (h : Parted ctx scope ps qs t) :
    Parted ctx scope ((bs, n) :: ps) ((cs, node ctx inner n) :: qs) (trace ctx inner n ++ t) :=
  .cons hentered rfl hlater h

/-- A part before the others that no binder is around. -/
theorem part (h : Parted ctx scope ps qs t) : Parted ctx scope (free n :: ps)
    (free (node ctx scope n) :: qs) (trace ctx scope n ++ t) :=
  under .refl (fun _ _ => id) h

theorem one : Parted ctx scope [free n] [free (node ctx scope n)] (trace ctx scope n) := by
  have h : Parted ctx scope [free n] _ _ := part .nil
  rwa [Trace.append_empty] at h

theorem exprs (h : Entered ctx scope bs inner) (es : List Expr) :
    Parted ctx scope (exprParts bs es) (exprParts bs (exprs ctx inner es).value)
      (exprs ctx inner es).trace := by
  induction es with
  | nil => exact .nil
  | cons e es ih => exact under (n := .expr e) h (fun _ _ => id) ih.done

theorem stmts {declared declared' : List String} (h : Entered ctx scope (.names declared :: bs) inner)
    (ss : List Stmt) : Parted ctx scope (stmtParts (.names declared :: bs) ss)
      (stmtParts (.names declared' :: bs) (stmts ctx inner ss).value) (stmts ctx inner ss).trace := by
  induction ss with
  | nil => exact .nil
  | cons s ss ih =>
    refine under (n := .stmt s) h (fun binding i hmem => ?_) ih.done
    rcases mem_cons.mp hmem with hmem | hmem
    · cases hmem
    · exact mem_cons_of_mem _ hmem

theorem properties (ps : List Property) :
    Parted ctx scope (ps.map fun p => free (.property p))
      ((properties ctx scope ps).value.map fun p => free (.property p))
      (properties ctx scope ps).trace := by
  induction ps with
  | nil => exact .nil
  | cons p ps ih =>
    obtain ⟨span, key, value, shorthand⟩ := p
    exact .part (n := .property _) ih.done

theorem declarators (ds : List Declarator) :
    Parted ctx scope (ds.map fun d => free (.declarator d))
      ((declarators ctx scope ds).value.map fun d => free (.declarator d))
      (declarators ctx scope ds).trace := by
  induction ds with
  | nil => exact .nil
  | cons d ds ih =>
    obtain ⟨span, name, init⟩ := d
    cases init <;> exact .part (n := .declarator _) ih.done

section Loop

variable (h : Entered ctx scope bs inner)
  (hlater : ∀ binding i, .later binding i ∈ bs → .later binding i ∈ cs)

include h hlater

theorem option (e : Option Expr) : Parted ctx scope (optionPart bs e)
    (optionPart cs (option ctx inner e).value) (option ctx inner e).trace := by
  cases e with
  | none => exact .nil
  | some e => exact under (n := .expr e) h hlater .nil

theorem start (s : Option Stmt) : Parted ctx scope (startPart bs s)
    (startPart cs (start ctx inner s).value) (start ctx inner s).trace := by
  cases s with
  | none => exact .nil
  | some s =>
    by_cases hs : ∃ span e, s = .expr span e
    · obtain ⟨span, e, rfl⟩ := hs
      exact (under (n := .expr e) h hlater .nil).done
    · have hs : ∀ span e, s ≠ .expr span e := fun span e heq => hs ⟨span, e, heq⟩
      change Parted ctx scope _ (startPart cs (some (stmt ctx inner s).value)) _
      rw [startPart_of_ne hs, startPart_of_ne (value_ne_expr hs)]
      exact under (n := .stmt s) h hlater .nil

end Loop

end Parted

/-- The parts of a node that is neither an identifier nor a step binding are visited in turn. -/
theorem parted_node (n : Node) (hn : construct? n = none)
    (hidentifier : ∀ span name, n ≠ .expr (.identifier span name)) :
    Parted ctx scope n.parts (node ctx scope n).parts (trace ctx scope n) := by
  cases n with
  | expr e =>
    cases e with
    | identifier span name => exact absurd rfl (hidentifier span name)
    | template _ _ es | array _ es | sequence _ es => exact (Parted.exprs .refl es).done
    | object _ ps => exact (Parted.properties ps).done
    | function _ name params body =>
      have h := (entered_nameScope name).trans (@entered_functionFrame ctx (nameScope scope name)
        params body)
      exact (Parted.stmts h body).done
    | arrow _ params body => exact .under (entered_parameters params) (fun _ _ => id) .nil
    | arrowBlock _ params _ body => exact (Parted.stmts (entered_functionFrame params body) body).done
    | call _ _ args | new _ _ args => exact .part (Parted.exprs .refl args).done
    | member | unary | update | paren => exact .part .nil
    | index | binary | assign => exact .part (.part .nil)
    | conditional => exact .part (.part (.part .nil))
    | steps => cases hn
    | _ => exact .nil
  | property p =>
    obtain ⟨span, key, value, shorthand⟩ := p
    exact .one
  | declarator d =>
    obtain ⟨span, name, init⟩ := d
    cases init with
    | none => exact .nil
    | some e => exact .one
  | stmt s =>
    cases s with
    | declare _ _ ds => exact (Parted.declarators ds).done
    | steps => cases hn
    | function _ _ params body => exact (Parted.stmts (entered_functionFrame params body) body).done
    | ret _ value =>
      cases value with
      | none => exact .nil
      | some e => exact .part .nil
    | ifElse _ _ _ alternate =>
      cases alternate with
      | none => exact .part (.part .nil)
      | some a => exact .part (.part (.part .nil))
    | whileLoop => exact .part (.part .nil)
    | forLoop span init test update body =>
      have h := @entered_loopFrame ctx scope init
      have hnone {cs : List Binder} (binding : String) (i : Nat)
          (h : Binder.later binding i ∈ [.names (headerNames init)]) : .later binding i ∈ cs := by
        cases mem_singleton.mp h
      simp only [trace, node, stmt_forLoop]
      simp only [Node.parts, List.append_assoc]
      exact (Parted.start h hnone init).append ((Parted.option h hnone test).append
        ((Parted.option h hnone update).append (.under h hnone .nil)))
    | forOf _ _ name iterable body =>
      exact .part (.under (entered_single (b := { name, kind := .variable }) rfl (by rintro ⟨⟩))
        (fun _ _ => id) .nil)
    | throw_ | expr => exact .part .nil
    | block _ body => exact (Parted.stmts (entered_blockFrame body) body).done
    | _ => exact .nil

section Steps

variable {n : Node} {span : Span} {binding : String} {i : Nat} {first : Expr} {later : List Expr}

/-- A step binding keeps its number, and it is rejected if its first step refers to its binding. -/
theorem node_steps (h : n.Steps span binding i (first :: later)) :
    number? (node ctx scope n) = some i ∧ ((node ctx scope n).isRejected ↔
      ∃ ref ∈ (expr ctx scope first).unresolved, ref.name = binding) := by
  let v := settle ctx scope binding span i (expr ctx scope first)
    (exprs ctx (stepScope ctx scope binding span i) later)
  have hown : v.value = none ↔ ∃ ref ∈ (expr ctx scope first).unresolved, ref.name = binding := by
    change (if _ then some _ else none) = none ↔ _
    simp
  have hvalue {α : Type} (g : Option (List Expr) → Visit α) (f : α → Node)
      (hf : ∀ steps, number? (f (g (some steps)).value) = some i ∧
        (f (g (some steps)).value).isRejected = false)
      (hnone : number? (f (g none).value) = some i ∧ (f (g none).value).isRejected) :
      number? (f (v >>= g).value) = some i ∧
        ((f (v >>= g).value).isRejected ↔ v.value = none) := by
    change number? (f (g v.value).value) = _ ∧ ((f (g v.value).value).isRejected ↔ _)
    cases v.value with
    | none => exact ⟨hnone.1, fun _ => rfl, fun _ => hnone.2⟩
    | some steps => simp [hf steps]
  rw [← hown]
  cases h with
  | expression =>
    exact hvalue _ .expr (fun _ => ⟨rfl, rfl⟩) ⟨rfl, rfl⟩
  | declaration =>
    exact hvalue _ .stmt (fun _ => ⟨rfl, rfl⟩) ⟨rfl, rfl⟩

/-- A step binding that is not rejected has its steps visited in turn. -/
theorem steps_node (h : n.Steps span binding i (first :: later)) :
    (node ctx scope n).isRejected ∨ (node ctx scope n).Steps span binding i
      ((expr ctx scope first).value ::
        (exprs ctx (stepScope ctx scope binding span i) later).value) := by
  rcases @node_steps_cases ctx scope _ _ _ _ _ _ h with heq | ⟨heq, -⟩ <;> rw [heq] <;> cases h
  · exact .inr .expression
  · exact .inr .declaration
  · exact .inl rfl
  · exact .inl rfl

theorem parted_steps (binding : String) (span : Span) (i : Nat) (first : Expr) (later : List Expr) :
    Parted ctx scope (Node.stepParts binding i (first :: later))
      (Node.stepParts binding i ((expr ctx scope first).value ::
        (exprs ctx (stepScope ctx scope binding span i) later).value))
      ((expr ctx scope first).trace ++
        (exprs ctx (stepScope ctx scope binding span i) later).trace) :=
  .part (n := .expr first) (.exprs (entered_stepScope binding span i) later)

end Steps

/-- A visit asks for the fresh names of the step bindings in the order in which the tree is walked. -/
theorem asked_node (n : Node) (scope : Scope) : (trace ctx scope n).asked = marks (Node.walk n) := by
  induction n using Node.induction_parts generalizing scope with | step n ih
  have parted {ps qs : List Node.Part} {t : Trace} (h : Parted ctx scope ps qs t)
      (hps : ps ⊆ n.parts) : t.asked = ps.flatMap fun p => marks (Node.walk p.2) := by
    induction h with
    | nil => rfl
    | cons _ _ _ _ ih' =>
      obtain ⟨hp, hps⟩ := cons_subset.mp hps
      rw [flatMap_cons, ← ih _ hp, ← ih' hps]
      rfl
  rw [Node.marks_walk n]
  cases hc : construct? n with
  | none =>
    by_cases hid : ∃ span name, n = .expr (.identifier span name)
    · obtain ⟨span, name, rfl⟩ := hid
      rw [trace_identifier]
      rfl
    · exact parted (parted_node n hc fun span name heq => hid ⟨span, name, heq⟩)
        (List.Subset.refl _)
  | some i =>
    obtain ⟨span, binding, es, hsteps⟩ := Node.construct?_iff_steps.mp hc
    cases es with
    | nil => cases hsteps <;> rfl
    | cons first later =>
      have hparts := parted (parted_steps binding span i first later)
        (hsteps.parts_eq ▸ List.Subset.refl _)
      rw [trace_steps hsteps, hsteps.parts_eq, ← hparts]
      rfl

theorem asked_stmts (ss : List Stmt) : (stmts ctx scope ss).asked = marks (walkStmts ss) := by
  induction ss with
  | nil => rfl
  | cons s ss ih =>
    have hs : (stmt ctx scope s).asked = marks (walkStmt s) := asked_node (.stmt s) scope
    change (stmt ctx scope s).asked ++ ((stmts ctx scope ss).asked ++ []) = _
    rw [append_nil, hs, ih, ← marks_append]
    rfl

/-- A part and what it becomes, where some diagnostics are reported. -/
def Visited (ctx : Context) (scope : Scope) (ds : List Diagnostic) (p q : Node.Part) : Prop :=
  ∃ inner, Entered ctx scope p.1 inner ∧ q.2 = node ctx inner p.2 ∧
    (∀ binding i, .later binding i ∈ p.1 → .later binding i ∈ q.1) ∧
    (trace ctx inner p.2).diagnostics ⊆ ds

theorem Parted.visited {ps qs : List Node.Part} {t : Trace} {ds : List Diagnostic}
    (h : Parted ctx scope ps qs t) (ht : t.diagnostics ⊆ ds) :
    List.Forall₂ (Visited ctx scope ds) ps qs := by
  induction h with
  | nil => exact .nil
  | cons hentered hnode hlater _ ih =>
    have ⟨hfirst, hrest⟩ := append_subset.mp ht
    exact .cons ⟨_, hentered, hnode, hlater, hfirst⟩ (ih hrest)

/-- The parts of a node are visited in turn, unless the node is rejected. -/
theorem visited_parts (n : Node) : (node ctx scope n).isRejected ∨
    List.Forall₂ (Visited ctx scope (trace ctx scope n).diagnostics) n.parts
      (node ctx scope n).parts := by
  by_cases hid : ∃ span name, n = .expr (.identifier span name)
  · obtain ⟨span, name, rfl⟩ := hid
    obtain ⟨name', hnode⟩ := @node_identifier ctx scope span name
    rw [hnode]
    exact .inr .nil
  cases hc : construct? n with
  | none =>
    have hid (span : Span) (name : String) (h : n = _) := hid ⟨span, name, h⟩
    exact .inr ((parted_node n hc hid).visited (List.Subset.refl _))
  | some i =>
    obtain ⟨span, binding, es, hsteps⟩ := Node.construct?_iff_steps.mp hc
    cases es with
    | nil => cases hsteps <;> exact .inr .nil
    | cons first later =>
      refine (steps_node hsteps).imp_right fun h => ?_
      rw [hsteps.parts_eq, h.parts_eq]
      refine (parted_steps binding span i first later).visited fun d hd => ?_
      rw [trace_steps hsteps]
      change d ∈ _ ++ _ ++ _ ++ _
      rw [List.append_assoc (warn ..).diagnostics]
      exact mem_append_left _ (mem_append_right _ hd)

theorem parts_rejected (h : n.isRejected) : n.parts = [] := by
  unfold Node.isRejected at h
  split at h <;> first | rfl | cases h

/-- Only the steps of a step binding are under it. -/
theorem later_of_part {p : Node.Part} {binding : String} {i : Nat} (hp : p ∈ n.parts)
    (h : .later binding i ∈ p.1) : construct? n = some i := by
  have hexprs {bs : List Binder} {es : List Expr} (hp : p ∈ Node.exprParts bs es) : p.1 = bs := by
    obtain ⟨e, -, rfl⟩ := mem_map.mp hp
    rfl
  have hstmts {bs : List Binder} {ss : List Stmt} (hp : p ∈ Node.stmtParts bs ss) : p.1 = bs := by
    obtain ⟨s, -, rfl⟩ := mem_map.mp hp
    rfl
  have hoption {bs : List Binder} {e : Option Expr} (hp : p ∈ Node.optionPart bs e) : p.1 = bs := by
    cases e with
    | none => cases hp
    | some e => rw [mem_singleton.mp hp]
  have hstart {bs : List Binder} {s : Option Stmt} (hp : p ∈ Node.startPart bs s) : p.1 = bs := by
    cases s with
    | none => cases hp
    | some s => cases s <;> rw [mem_singleton.mp hp]
  have hname {name : Option String} : Binder.later binding i ∉ Node.nameBinder name := by
    cases name <;> simp [Node.nameBinder]
  have hsteps {c : String} {j : Nat} {es : List Expr} (hp : p ∈ Node.stepParts c j es) : i = j := by
    cases es with
    | nil => cases hp
    | cons e es =>
      rcases mem_cons.mp hp with rfl | hp
      · cases h
      · rw [hexprs hp] at h
        cases mem_singleton.mp h
        rfl
  unfold Node.parts at hp
  split at hp <;> grind [Node.free, construct?]

/-- A node declares what it declared and has the number it had, unless it is a step binding and is
rejected. -/
theorem node_same (n : Node) :
    ((construct? n).isSome ∧ (node ctx scope n).isRejected) ∨
      ((node ctx scope n).declares = n.declares ∧ construct? (node ctx scope n) = construct? n ∧
        (node ctx scope n).isRejected = n.isRejected) := by
  cases hc : construct? n with
  | some i =>
    obtain ⟨span, binding, es, h⟩ := Node.construct?_iff_steps.mp hc
    cases es with
    | nil => cases h <;> exact .inr ⟨rfl, rfl, rfl⟩
    | cons first later =>
      rcases @node_steps_cases ctx scope _ _ _ _ _ _ h with heq | ⟨heq, -⟩ <;> rw [heq, ← hc] <;>
        cases h
      · exact .inr ⟨rfl, rfl, rfl⟩
      · exact .inr ⟨rfl, rfl, rfl⟩
      · exact .inl ⟨rfl, rfl⟩
      · exact .inl ⟨rfl, rfl⟩
  | none =>
    rw [← hc]
    right
    cases n with
    | expr e =>
      cases e with
      | identifier span name =>
        obtain ⟨name', hnode⟩ := @node_identifier ctx scope span name
        rw [hnode]
        exact ⟨rfl, rfl, rfl⟩
      | steps => cases hc
      | _ => exact ⟨rfl, rfl, rfl⟩
    | property p => cases p; exact ⟨rfl, rfl, rfl⟩
    | declarator d => cases d; exact ⟨rfl, rfl, rfl⟩
    | stmt s =>
      cases s with
      | steps => cases hc
      | ret _ value => cases value <;> exact ⟨rfl, rfl, rfl⟩
      | ifElse _ _ _ alternate => cases alternate <;> exact ⟨rfl, rfl, rfl⟩
      | forLoop =>
        simp only [node, stmt_forLoop]
        exact ⟨rfl, rfl, rfl⟩
      | _ => exact ⟨rfl, rfl, rfl⟩

theorem declares_rejected (h : n.isRejected) : n.declares = [] ∧ construct? n = none := by
  unfold Node.isRejected at h
  split at h
  · exact ⟨rfl, rfl⟩
  · exact ⟨rfl, rfl⟩
  · cases h

theorem construct?_node (h : construct? n = none) : construct? (node ctx scope n) = none := by
  rcases @node_same ctx scope n with ⟨hsome, -⟩ | ⟨-, hsame, -⟩
  · rw [h] at hsome
    cases hsome
  · exact hsame.trans h

end Resolve

end StepBinding
