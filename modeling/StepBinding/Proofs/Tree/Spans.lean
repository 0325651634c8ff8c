import StepBinding.Proofs.Tree.Reach

/-! The tokens under a tree. Every node has a range, and the nodes directly below it come in an
order. A list of nodes lies in a list of tokens if each node's range reaches from the first to the
last token of a stretch of its own, the stretches come one after the other, and the nodes below
lie in that stretch in turn. -/

namespace StepBinding

open List

def Property.span : Property → Span
  | .mk span _ _ _ => span

def Declarator.span : Declarator → Span
  | .mk span _ _ => span

namespace Node

open StepBinding.Tree

/-- The range a node was read from. -/
def span : Node → Span
  | .expr e => e.span
  | .stmt s => s.span
  | .property p => p.span
  | .declarator d => d.span

/-- What stands first in the header of a loop; an expression there stands for itself. -/
def ofStart : Stmt → Node
  | .expr _ e => .expr e
  | s => .stmt s

/-- The nodes directly below a node, in the order of its fields. -/
def children : Node → List Node
  | .expr (.template _ _ es) | .expr (.array _ es) | .expr (.sequence _ es)
  | .expr (.steps _ _ _ es _ _) | .stmt (.steps _ _ _ _ es _ _) => es.map .expr
  | .expr (.object _ ps) => ps.map .property
  | .expr (.function _ _ _ body) | .stmt (.function _ _ _ body) | .stmt (.block _ body) =>
    body.map .stmt
  | .expr (.arrowBlock _ _ span body) => [.stmt (.block span body)]
  | .expr (.call _ callee args) | .expr (.new _ callee args) => .expr callee :: args.map .expr
  | .expr (.arrow _ _ e) | .expr (.member _ e _) | .expr (.unary _ _ e) | .expr (.update _ _ _ e)
  | .expr (.paren _ e) | .property (.mk _ _ e _) | .stmt (.throw_ _ e) | .stmt (.expr _ e) =>
    [.expr e]
  | .expr (.index _ l r) | .expr (.binary _ l _ r) | .expr (.assign _ l _ r) => [.expr l, .expr r]
  | .expr (.conditional _ t c a) => [.expr t, .expr c, .expr a]
  | .declarator (.mk _ _ init) | .stmt (.ret _ init) => init.toList.map .expr
  | .stmt (.declare _ _ ds) => ds.map .declarator
  | .stmt (.ifElse _ t c a) => .expr t :: .stmt c :: a.toList.map .stmt
  | .stmt (.whileLoop _ t b) | .stmt (.forOf _ _ _ t b) => [.expr t, .stmt b]
  | .stmt (.forLoop _ init test update body) =>
    init.toList.map ofStart ++ test.toList.map .expr ++ update.toList.map .expr ++ [.stmt body]
  | _ => []

/-- Some nodes, each with all nodes below it. -/
def walks (ns : List Node) : List Node := ns.flatMap walk

@[simp] theorem walks_nil : walks [] = [] := rfl

@[simp] theorem walks_cons (n : Node) (ns : List Node) : walks (n :: ns) = walk n ++ walks ns :=
  flatMap_cons

@[simp] theorem walks_append (ns ms : List Node) : walks (ns ++ ms) = walks ns ++ walks ms :=
  flatMap_append

theorem walk_children (n : Node) : walk n = n :: walks n.children := by
  rw [walk_eq]
  cases n with
  | expr e =>
    cases e with
    | steps _ _ _ es =>
      cases es <;> simp [own, parts, children, walks, exprParts, stepParts, free, flatMap_map]
    | arrowBlock => simp [own, parts, children, walk, walkStmt, walkStmts_eq, stmtParts, flatMap_map]
    | _ => simp [own, parts, children, walks, exprParts, stmtParts, free, flatMap_map]
  | property p =>
    cases p
    simp [own, parts, children, free]
  | declarator d =>
    obtain ⟨span, name, init⟩ := d
    cases init <;> simp [own, parts, children, optionPart]
  | stmt s =>
    cases s with
    | steps _ _ _ _ es =>
      cases es <;> simp [own, parts, children, walks, exprParts, stepParts, free, flatMap_map]
    | ret _ value => cases value <;> simp [own, parts, children, optionPart]
    | ifElse _ _ _ alternate => cases alternate <;> simp [own, parts, children, free]
    | forLoop _ init test update body =>
      have hstart (bs : List Binder) :
          (startPart bs init).flatMap (fun q => walk q.2) = walks (init.toList.map ofStart) := by
        rcases init with _ | s
        · rfl
        · cases s <;> simp [startPart, ofStart]
      cases test <;> cases update <;> simp [own, parts, children, optionPart, hstart]
    | _ => simp [own, parts, children, walks, stmtParts, free, flatMap_map]

end Node

/-- The range reaches from the first to the last of the tokens. -/
def Span.Covers (s : Span) (ts : List Token) : Prop :=
  ∃ first ∈ ts.head?, ∃ last ∈ ts.getLast?, s = first.span.through last.span

theorem Span.Covers.through {a b : Span} {us vs : List Token} (ha : a.Covers us) (hb : b.Covers vs)
    (ts : List Token) : (a.through b).Covers (us ++ ts ++ vs) := by
  obtain ⟨first, hfirst, -, -, rfl⟩ := ha
  obtain ⟨-, -, last, hlast, rfl⟩ := hb
  refine ⟨first, ?_, last, ?_, rfl⟩
  · rw [append_assoc, head?_append, hfirst]
    rfl
  · rw [getLast?_append, hlast]
    rfl

/-- The nodes lie in the tokens. -/
inductive Laid : List Token → List Node → Prop
  | nil (ts : List Token) : Laid ts []
  | cons (ts : List Token) {us vs : List Token} {n : Node} {ns : List Node} (h : n.span.Covers us)
      (below : Laid us n.children) (after : Laid vs ns) : Laid (ts ++ us ++ vs) (n :: ns)

namespace Laid

variable {ts us : List Token} {n l r : Node} {ns ms : List Node}

theorem ne_nil (h : Laid ts ns) (hne : ns ≠ []) : ts ≠ [] := by
  cases h with
  | nil => exact absurd rfl hne
  | cons ts h =>
    obtain ⟨first, hfirst, -⟩ := h
    intro hnil
    simp only [append_eq_nil_iff] at hnil
    rw [hnil.1.2] at hfirst
    cases hfirst

theorem left (us : List Token) (h : Laid ts ns) : Laid (us ++ ts) ns := by
  cases h with
  | nil => exact .nil _
  | cons ts h below after => simpa using Laid.cons (us ++ ts) h below after

theorem append (h : Laid ts ns) (h' : Laid us ms) : Laid (ts ++ us) (ns ++ ms) := by
  induction h with
  | nil ts => exact h'.left ts
  | cons ts h below after _ ih => simpa using Laid.cons ts h below ih

/-- A node over all of the tokens. -/
theorem node (h : n.span.Covers ts) (below : Laid ts n.children) : Laid ts [n] := by
  simpa using Laid.cons [] h below (.nil [])

/-- Nodes that come first lie in tokens that come first. -/
theorem split (h : Laid ts (ns ++ ms)) : ∃ us vs, ts = us ++ vs ∧ Laid us ns ∧ Laid vs ms := by
  induction ns generalizing ts with
  | nil => exact ⟨[], ts, rfl, .nil _, h⟩
  | cons n ns ih =>
    cases h with
    | cons ts h below after =>
      obtain ⟨us, vs, rfl, hus, hvs⟩ := ih after
      exact ⟨_, vs, (append_assoc ..).symm, .cons ts h below hus, hvs⟩

/-- What lies below the first node lies in its place. -/
theorem unfold (h : Laid ts (n :: ns)) : Laid ts (n.children ++ ns) := by
  cases h with
  | cons ts h below after =>
    rw [append_assoc]
    exact (below.append after).left ts

/-- A node from the start of one node to the end of the next. -/
theorem pair (h : Laid ts [l, r]) (hn : n.children = [l, r])
    (hspan : n.span = l.span.through r.span) : Laid ts [n] := by
  obtain ⟨us, vs, rfl, hl, hr⟩ := @split _ [l] _ h
  cases hl with
  | @cons as ls bs _ _ hl belowl _ =>
    cases hr with
    | @cons bs' rs ds _ _ hr belowr _ =>
      have hcovers := hspan ▸ hl.through hr (bs ++ bs')
      have hbelow : Laid (ls ++ (bs ++ bs') ++ rs) n.children := by
        have := (node hl belowl).append ((node hr belowr).left (bs ++ bs'))
        rw [hn]
        simpa using this
      simpa using Laid.cons as hcovers hbelow (.nil ds)

end Laid

end StepBinding
