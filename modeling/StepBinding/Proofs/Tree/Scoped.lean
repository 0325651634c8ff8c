import StepBinding.Proofs.Tree.Reach

/-! Code in which a name is used only where it is known. What is known depends on the place: the
body of a function knows what the place of the function knows and what it declares with `var`,
and a statement knows what the statements before it in its list declare with `let` or `const`.
A function declaration runs no earlier than its statement list starts, so it is only sure to know
what is known there. A name that is used only where it is known is bound where it is used. -/

namespace StepBinding.Tree

open List

variable (name : String) {es : List Expr} {s : Stmt} {n : Node}

/-- The statement declares the name with `let` or `const` for the statements after it. -/
def Lets : Stmt → Prop
  | .declare _ q ds => q ≠ .var ∧ name ∈ ds.map Declarator.name
  | _ => False

mutual

/-- The name is used in the expression only where it is known, given that it is known around it if
the proposition holds. -/
def ScopedExpr : Prop → Expr → Prop
  | known, .identifier _ x => x = name → known
  | known, .this _ => "this" = name → known
  | known, .template _ _ es | known, .array _ es | known, .sequence _ es => ScopedExprs known es
  | known, .object _ ps => ScopedProperties known ps
  | known, .function _ _ _ body | known, .arrowBlock _ _ _ body =>
    ScopedStmts (known ∨ name ∈ varNamesOf body) (known ∨ name ∈ varNamesOf body) body
  | known, .arrow _ _ body => ScopedExpr known body
  | known, .call _ f args | known, .new _ f args => ScopedExpr known f ∧ ScopedExprs known args
  | known, .member _ e _ | known, .unary _ _ e | known, .update _ _ _ e | known, .paren _ e =>
    ScopedExpr known e
  | known, .index _ l r | known, .binary _ l _ r | known, .assign _ l _ r =>
    ScopedExpr known l ∧ ScopedExpr known r
  | known, .conditional _ t c a => ScopedExpr known t ∧ ScopedExpr known c ∧ ScopedExpr known a
  | _, _ => True

def ScopedExprs : Prop → List Expr → Prop
  | _, [] => True
  | known, e :: es => ScopedExpr known e ∧ ScopedExprs known es

def ScopedProperties : Prop → List Property → Prop
  | _, [] => True
  | known, .mk _ _ e _ :: ps => ScopedExpr known e ∧ ScopedProperties known ps

def ScopedDeclarators : Prop → List Declarator → Prop
  | _, [] => True
  | known, .mk _ _ none :: ds => ScopedDeclarators known ds
  | known, .mk _ _ (some e) :: ds => ScopedExpr known e ∧ ScopedDeclarators known ds

def ScopedOption : Prop → Option Expr → Prop
  | _, none => True
  | known, some e => ScopedExpr known e

/-- The name is used in the statement only where it is known. The first proposition says when it is
known at the start of the statement list around, the second when it is known here. -/
def ScopedStmt : Prop → Prop → Stmt → Prop
  | _, known, .declare _ q ds =>
    (q = .var → name ∈ ds.map Declarator.name → known) ∧ ScopedDeclarators known ds
  | start, _, .function _ _ _ body =>
    ScopedStmts (start ∨ name ∈ varNamesOf body) (start ∨ name ∈ varNamesOf body) body
  | _, known, .ret _ value => ScopedOption known value
  | _, known, .ifElse _ t c none => ScopedExpr known t ∧ ScopedStmt known known c
  | _, known, .ifElse _ t c (some a) =>
    ScopedExpr known t ∧ ScopedStmt known known c ∧ ScopedStmt known known a
  | _, known, .whileLoop _ t b => ScopedExpr known t ∧ ScopedStmt known known b
  | _, known, .forLoop _ init test update body =>
    ScopedStart known init ∧ ScopedOption known test ∧ ScopedOption known update ∧
      ScopedStmt known known body
  | _, known, .forOf _ q x e b =>
    (q = .var → x = name → known) ∧ ScopedExpr known e ∧ ScopedStmt known known b
  | _, known, .throw_ _ e | _, known, .expr _ e => ScopedExpr known e
  | _, known, .block _ body => ScopedStmts known known body
  | _, _, _ => True

def ScopedStart : Prop → Option Stmt → Prop
  | _, none => True
  | known, some s => ScopedStmt known known s

def ScopedStmts : Prop → Prop → List Stmt → Prop
  | _, _, [] => True
  | start, known, s :: ss => ScopedStmt start known s ∧ ScopedStmts start (known ∨ Lets name s) ss

end

/-- The name is used in the body of a function only where it is known. -/
def ScopedBody (known : Prop) (body : List Stmt) : Prop :=
  ScopedStmts name (known ∨ name ∈ varNamesOf body) (known ∨ name ∈ varNamesOf body) body

variable {name}

theorem scopedExprs_iff {known : Prop} :
    ScopedExprs name known es ↔ ∀ e ∈ es, ScopedExpr name known e := by
  induction es with
  | nil => simp [ScopedExprs]
  | cons e es ih => simp [ScopedExprs, ih]

section Bound

/-- One of the binders binds the name. -/
def Binds (bs : List Binder) (name : String) : Prop := ∃ b ∈ bs, b.binds name = true

theorem Binds.append {cs : List Binder} (h : Binds cs name) (bs : List Binder) :
    Binds (bs ++ cs) name := by
  obtain ⟨b, hb, hname⟩ := h
  exact ⟨b, mem_append_right _ hb, hname⟩

theorem binds_cons {declared : List String} (h : name ∈ declared) (bs : List Binder) :
    Binds (.names declared :: bs) name :=
  ⟨_, mem_cons_self, Binder.binds_names.mpr h⟩

theorem standing_of_lets (h : Lets name s) : name ∈ standing s := by
  cases s with
  | declare _ q ds =>
    change name ∈ if q = .var then [] else ds.map Declarator.name
    rw [if_neg h.1]
    exact h.2
  | _ => exact h.elim

open Node

/-- The name is used in a node and below it only where it is known. -/
def ScopedNode (name : String) (start known : Prop) : Node → Prop
  | .expr e => ScopedExpr name known e
  | .property (.mk _ _ e _) => ScopedExpr name known e
  | .declarator (.mk _ _ init) => ScopedOption name known init
  | .stmt s => ScopedStmt name start known s

/-- A part uses the name only where it is known, and there it is bound. -/
def ScopedPart (name : String) (U : List Binder) (p : Node.Part) : Prop :=
  ∃ start known, ScopedNode name start known p.2 ∧ (start ∨ known → Binds (p.1 ++ U) name)

variable {start known : Prop} {U bs : List Binder}

theorem scopedPart_expr {e : Expr} (h : ScopedExpr name known e) (hk : known → Binds U name) :
    ScopedPart name U (bs, .expr e) :=
  ⟨known, known, h, fun h => (hk (or_self_iff.mp h)).append bs⟩

theorem scopedPart_stmt (h : ScopedStmt name known known s) (hk : known → Binds U name) :
    ScopedPart name U (bs, .stmt s) :=
  ⟨known, known, h, fun h => (hk (or_self_iff.mp h)).append bs⟩

theorem scopedPart_exprs (h : ScopedExprs name known es) (hk : known → Binds U name) :
    ∀ p ∈ exprParts bs es, ScopedPart name U p :=
  forall_mem_map.mpr fun e he => scopedPart_expr (scopedExprs_iff.mp h e he) hk

theorem scopedPart_option {e : Option Expr} (h : ScopedOption name known e)
    (hk : known → Binds U name) : ∀ p ∈ optionPart bs e, ScopedPart name U p := by
  cases e with
  | none => exact nofun
  | some e => exact forall_mem_singleton.mpr (scopedPart_expr h hk)

/-- The statements of a list know what those before them declare. -/
theorem scopedPart_stmts {ss : List Stmt} (h : ScopedStmts name start known ss)
    (hk : start ∨ known ∨ name ∈ ss.flatMap standing → Binds (bs ++ U) name) :
    ∀ p ∈ stmtParts bs ss, ScopedPart name U p := by
  induction ss generalizing known with
  | nil => exact nofun
  | cons s ss ih =>
    refine forall_mem_cons.mpr ⟨⟨start, known, h.1, fun hs => hk (hs.imp_right .inl)⟩,
      ih h.2 fun hs => hk (hs.imp_right ?_)⟩
    rintro ((hknown | hlets) | hmem)
    · exact .inl hknown
    · exact .inr (mem_append_left _ (standing_of_lets hlets))
    · exact .inr (mem_append_right _ hmem)

theorem scopedPart_body {params : List String} {body : List Stmt} (h : ScopedBody name known body)
    (hk : known → Binds U name) :
    ∀ p ∈ stmtParts (.names (functionNames params body) :: bs) body, ScopedPart name U p := by
  refine scopedPart_stmts h fun hknown => ?_
  rw [← or_assoc, or_self, or_assoc] at hknown
  rcases hknown with hknown | hvar | hmem
  · exact (hk hknown).append _
  · exact binds_cons (mem_append_left _ (mem_append_right _ hvar)) _
  · exact binds_cons (mem_append_right _ hmem) _

/-- In a node that is no step binding the parts use the name only where it is known. -/
theorem scopedPart_of_node (h : ScopedNode name start known n) (hn : construct? n = none)
    (hs : start → Binds U name) (hk : known → Binds U name) :
    ∀ p ∈ n.parts, ScopedPart name U p := by
  have one {n : Node} (h : ScopedPart name U (free n)) : ∀ p ∈ [free n], ScopedPart name U p :=
    forall_mem_singleton.mpr h
  cases n with
  | expr e =>
    cases e with
    | template | array | sequence => exact scopedPart_exprs h hk
    | object _ ps =>
      replace h : ScopedProperties name known ps := h
      clear hn
      change ∀ p ∈ ps.map _, _
      induction ps with
      | nil => rintro _ ⟨⟩
      | cons p ps ih =>
        obtain ⟨span, key, e, shorthand⟩ := p
        exact forall_mem_cons.mpr
          ⟨⟨known, known, h.1, fun h => hk (or_self_iff.mp h)⟩, ih h.2⟩
    | function | arrowBlock => exact scopedPart_body h hk
    | arrow => exact forall_mem_singleton.mpr (scopedPart_expr h hk)
    | call | new =>
      exact forall_mem_cons.mpr ⟨scopedPart_expr h.1 hk, scopedPart_exprs h.2 hk⟩
    | member | unary | update | paren => exact one (scopedPart_expr h hk)
    | index | binary | assign =>
      exact forall_mem_cons.mpr ⟨scopedPart_expr h.1 hk, one (scopedPart_expr h.2 hk)⟩
    | conditional =>
      exact forall_mem_cons.mpr ⟨scopedPart_expr h.1 hk, forall_mem_cons.mpr
        ⟨scopedPart_expr h.2.1 hk, one (scopedPart_expr h.2.2 hk)⟩⟩
    | steps => cases hn
    | _ => rintro _ ⟨⟩
  | property p =>
    obtain ⟨span, key, e, shorthand⟩ := p
    exact one (scopedPart_expr h hk)
  | declarator d =>
    obtain ⟨span, x, init⟩ := d
    exact scopedPart_option h hk
  | stmt s =>
    cases s with
    | declare _ _ ds =>
      replace h : ScopedDeclarators name known ds := h.2
      clear hn
      change ∀ p ∈ ds.map _, _
      induction ds with
      | nil => rintro _ ⟨⟩
      | cons d ds ih =>
        have hd : ScopedPart name U (free (.declarator d)) ∧ ScopedDeclarators name known ds := by
          obtain ⟨span, x, init⟩ := d
          cases init with
          | none => exact ⟨⟨known, known, trivial, fun h => hk (or_self_iff.mp h)⟩, h⟩
          | some e => exact ⟨⟨known, known, h.1, fun h => hk (or_self_iff.mp h)⟩, h.2⟩
        exact forall_mem_cons.mpr ⟨hd.1, ih hd.2⟩
    | steps => cases hn
    | function => exact scopedPart_body h hs
    | ret _ value => exact scopedPart_option h hk
    | ifElse _ _ _ alternate =>
      cases alternate with
      | none =>
        exact forall_mem_cons.mpr ⟨scopedPart_expr h.1 hk, one (scopedPart_stmt h.2 hk)⟩
      | some a =>
        exact forall_mem_cons.mpr ⟨scopedPart_expr h.1 hk, forall_mem_cons.mpr
          ⟨scopedPart_stmt h.2.1 hk, one (scopedPart_stmt h.2.2 hk)⟩⟩
    | whileLoop =>
      exact forall_mem_cons.mpr ⟨scopedPart_expr h.1 hk, one (scopedPart_stmt h.2 hk)⟩
    | forLoop _ init _ _ _ =>
      have hinit : ∀ p ∈ startPart [.names (headerNames init)] init, ScopedPart name U p := by
        rcases init with _ | s
        · rintro _ ⟨⟩
        · cases s with
          | expr _ e => exact forall_mem_singleton.mpr (scopedPart_expr (e := e) h.1 hk)
          | _ => exact forall_mem_singleton.mpr (scopedPart_stmt h.1 hk)
      simp only [parts, forall_mem_append]
      exact ⟨⟨⟨hinit, scopedPart_option h.2.1 hk⟩, scopedPart_option h.2.2.1 hk⟩,
        forall_mem_singleton.mpr (scopedPart_stmt h.2.2.2 hk)⟩
    | forOf =>
      exact forall_mem_cons.mpr ⟨scopedPart_expr h.2.1 hk,
        forall_mem_singleton.mpr (scopedPart_stmt h.2.2 hk)⟩
    | throw_ _ e | expr _ e => exact one (scopedPart_expr (e := e) h hk)
    | block =>
      refine scopedPart_stmts h fun hknown => ?_
      rcases hknown with hknown | hknown | hmem
      · exact (hk hknown).append _
      · exact (hk hknown).append _
      · exact binds_cons hmem _
    | _ => rintro _ ⟨⟩

/-- In a tree without step bindings that uses a name only where it is known every reference to it is
bound. -/
theorem binds_of_scoped {place : List Nat} {trail : List Binder} {span : Span}
    (h : ScopedNode name start known n) (hn : ∀ x ∈ walk n, construct? x = none)
    (hs : start → Binds U name) (hk : known → Binds U name)
    (hreach : n.reach place = some (trail, .expr (.identifier span name))) :
    Binds (trail ++ U) name := by
  induction place generalizing n trail start known U with
  | nil =>
    cases hreach
    exact hk (h rfl)
  | cons i place ih =>
    obtain ⟨bs, part, trail', hpart, hbelow, rfl⟩ := reach_cons.mp hreach
    have hpart := mem_of_getElem? hpart
    obtain ⟨start', known', h', hk'⟩ := scopedPart_of_node h (hn n (self_mem_walk n)) hs hk _ hpart
    rw [append_assoc]
    exact ih h' (fun x hx => hn x (walk_parts hpart hx)) (fun h => hk' (.inl h))
      (fun h => hk' (.inr h)) hbelow

end Bound

end StepBinding.Tree
