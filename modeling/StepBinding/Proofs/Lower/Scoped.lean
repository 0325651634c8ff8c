import StepBinding.Proofs.Lower.Shape
import StepBinding.Proofs.Resolve.Bindings
import StepBinding.Proofs.Tree.Scoped

/-! Lowered code uses a fresh name only where it is known. The name is used in the value made for its
step binding and in the later steps, and both are lowered to code after the declaration of the
name: in the function made for an expression, after the first statement of a declaration, or with
`var` anywhere in the function around. -/

namespace StepBinding

open List hiding span
open StepBinding.Tree

variable {ss : List Stmt} {span : Span} {fresh : String} {q : Qualifier} {first : Expr}

namespace Node

section Parts

variable {R : List Binder → String → Prop} {outer bs : List Binder} {n : Node}

/-- What holds of every reference below a node and the binders around it. -/
def EachReference (R : List Binder → String → Prop) (outer : List Binder) (n : Node) : Prop :=
  ∀ place trail span name, n.reach place = some (trail, .expr (.identifier span name)) →
    R (trail ++ outer) name

def EachPart (R : List Binder → String → Prop) (outer : List Binder) : List Part → Prop
  | [] => True
  | p :: ps => EachReference R (p.1 ++ outer) p.2 ∧ EachPart R outer ps

theorem eachPart_iff {ps : List Part} :
    EachPart R outer ps ↔ ∀ p ∈ ps, EachReference R (p.1 ++ outer) p.2 := by
  induction ps with
  | nil => simp [EachPart]
  | cons p ps ih => rw [EachPart, ih, forall_mem_cons]

theorem eachPart_append {ps qs : List Part} :
    EachPart R outer (ps ++ qs) ↔ EachPart R outer ps ∧ EachPart R outer qs := by
  simp only [eachPart_iff, forall_mem_append]

theorem eachPart_stmtParts :
    EachPart R outer (stmtParts bs ss) ↔ ∀ s ∈ ss, EachReference R (bs ++ outer) (.stmt s) := by
  rw [eachPart_iff]
  exact forall_mem_map

theorem eachPart_exprParts {es : List Expr} :
    EachPart R outer (exprParts bs es) ↔ ∀ e ∈ es, EachReference R (bs ++ outer) (.expr e) := by
  rw [eachPart_iff]
  exact forall_mem_map

theorem EachReference.parts (h : EachReference R outer n) : EachPart R outer n.parts := by
  rw [eachPart_iff]
  intro p hp place trail span name hreach
  obtain ⟨i, hi⟩ := mem_iff_getElem?.mp hp
  rw [← append_assoc]
  exact h (i :: place) _ span name (reach_cons.mpr ⟨p.1, p.2, trail, hi, hreach, rfl⟩)

theorem eachReference_identifier {name : String} :
    EachReference R outer (.expr (.identifier span name)) ↔ R outer name := by
  constructor
  · exact fun h => h [] [] span name rfl
  · intro h place trail span' name' hreach
    cases place with
    | nil =>
      cases hreach
      exact h
    | cons i place =>
      obtain ⟨bs, part, trail', hpart, -⟩ := reach_cons.mp hreach
      cases hpart

end Parts

end Node

namespace Lower

open Node Resolve

variable {target : Target} {ctx : Context} {F N : String → Prop} {name : String}
  {start known : Prop} {T : List Binder}

/-- A reference with a fresh name stands in the later steps of its step binding. -/
def Inside (ctx : Context) (F : String → Prop) (trail : List Binder) (name : String) : Prop :=
  F name → ∃ binding i, .later binding i ∈ trail ∧ ctx.freshOf i = name

theorem varNames_forLoop (init : Option Stmt) (test update : Option Expr) (body : Stmt)
    (name : String) (h : name ∈ varNames body) :
    name ∈ varNames (.forLoop span init test update body) := by
  cases init with
  | none => exact h
  | some s =>
    cases s with
    | declare _ q ds =>
      cases q with
      | var => exact mem_append_right _ h
      | _ => exact h
    | _ => exact h

theorem varNames_forOf {x : String} (iterable : Expr) (body : Stmt) (name : String)
    (h : name ∈ varNames body) : name ∈ varNames (.forOf span q x iterable body) := by
  cases q with
  | var => exact mem_cons_of_mem _ h
  | _ => exact h

/-- The name is known if it is the fresh name of a step binding around. -/
def Knows (ctx : Context) (name : String) (T : List Binder) (known : Prop) : Prop :=
  ∀ binding i, .later binding i ∈ T → ctx.freshOf i = name → known

theorem Knows.or (h : Knows ctx name T known) (more : Prop) : Knows ctx name T (known ∨ more) :=
  fun binding i hmem hi => .inl (h binding i hmem hi)

theorem Knows.names (h : Knows ctx name T known) (declared : List String) :
    Knows ctx name (.names declared :: T) known := by
  intro binding i hmem
  rcases mem_cons.mp hmem with hmem | hmem
  · cases hmem
  · exact h binding i hmem

theorem Knows.nameBinder (h : Knows ctx name T known) (x : Option String) :
    Knows ctx name (nameBinder x ++ T) known := by
  cases x with
  | none => exact h
  | some x => exact h.names [x]

theorem Knows.later (h : Knows ctx name T known) {i : Nat} (hi : ctx.freshOf i = name → known)
    (binding : String) : Knows ctx name (.later binding i :: T) known := by
  intro c j hmem
  rcases mem_cons.mp hmem with hmem | hmem
  · cases hmem
    exact hi
  · exact h c j hmem

/-- The place of exactly one statement: several statements are in a block of their own there. -/
theorem slot_scoped (h : ScopedStmts name known known ss) :
    ScopedStmt name known known (slot span ss) := by
  match ss, h with
  | [], _ => trivial
  | [_], h => exact h.1
  | _ :: _ :: _, h => exact h

theorem value_scoped {later : List Expr} (hfresh : fresh = name → known)
    (h : ScopedExprs name known later) : ScopedExpr name known (value span fresh later) := by
  unfold value
  split
  · exact hfresh
  · refine scopedExprs_iff.mpr fun e he => ?_
    obtain ⟨step, hstep, rfl⟩ := mem_map.mp he
    exact ⟨hfresh, scopedExprs_iff.mp h step hstep⟩

theorem opening_scoped {later : List Expr} (hvar : q = .var → fresh = name → known)
    (h : ScopedExpr name known first) :
    ScopedStmt name start known (opening span q fresh (first :: later)) := by
  refine ⟨fun hq hmem => hvar hq ?_, h, trivial⟩
  cases mem_singleton.mp hmem
  rfl

/-- After the opening the fresh name is known. -/
theorem known_after {steps : List Expr} (hvar : q = .var → fresh = name → known)
    (heq : fresh = name) : known ∨ Lets name (opening span q fresh steps) := by
  by_cases hq : q = .var
  · exact .inl (hvar hq heq)
  · exact .inr ⟨hq, mem_singleton.mpr heq.symm⟩

/-- A step binding that is an expression; its steps are in the function made for it. -/
theorem expression_scoped {later : List Expr} (hthis : "this" ≠ name)
    (hfirst : ∀ more, ScopedExpr name (known ∨ more) first)
    (hlater : ∀ more, (fresh = name → known ∨ more) → ScopedExprs name (known ∨ more) later) :
    ScopedExpr name known (expression target span fresh (first :: later)) := by
  have body (q : Qualifier) : ScopedBody name known
      [opening span q fresh (first :: later), .ret span (some (value span fresh later))] := by
    have hvar : q = .var → fresh = name → known ∨ name ∈ varNamesOf
        [opening span q fresh (first :: later), .ret span (some (value span fresh later))] := by
      rintro rfl rfl
      exact .inr (mem_singleton.mpr rfl)
    refine ⟨opening_scoped hvar (hfirst _), value_scoped (known_after hvar) ?_, trivial⟩
    rw [or_assoc]
    exact hlater _ fun heq => or_assoc.mp (known_after hvar heq)
  cases target with
  | es2015 => exact ⟨body .let_, trivial⟩
  | es5 => exact ⟨body .var, fun h => absurd h hthis, trivial⟩

/-- A declaration; with `var` the fresh name is known in the function around. -/
theorem declaration_scoped {result : String} {later : List Expr} (hresult : result ≠ name)
    (hvar : name ∈ varNamesOf (declaration target span q result fresh (first :: later)) → known)
    (hfirst : ScopedExpr name known first)
    (hlater : ∀ more, (fresh = name → known ∨ more) → ScopedExprs name (known ∨ more) later) :
    ScopedStmts name start known (declaration target span q result fresh (first :: later)) := by
  have hopening : freshQualifier target q = .var → fresh = name → known := by
    rintro hq rfl
    refine hvar ?_
    simp [declaration, opening, varNamesOf, varNamesOfBy, varNamesBy, hq]
  refine ⟨opening_scoped hopening hfirst, ⟨fun _ hmem => ?_, ?_⟩, trivial⟩
  · exact absurd (mem_singleton.mp hmem).symm hresult
  · exact ⟨value_scoped (known_after hopening) (hlater _ (known_after hopening)), trivial⟩

theorem scopedStmts_append {ts : List Stmt} (hss : ScopedStmts name start known ss)
    (hts : ∀ more, ScopedStmts name start (known ∨ more) ts) :
    ScopedStmts name start known (ss ++ ts) := by
  induction ss generalizing known with
  | nil =>
    have h := hts False
    rwa [or_false] at h
  | cons s ss ih =>
    refine ⟨hss.1, ih hss.2 fun more => ?_⟩
    rw [or_assoc]
    exact hts _

/-- What a part of a statement declares with `var` is declared for the function around. -/
theorem known_of_slot {s : Stmt} (hvar : name ∈ varNamesOf [s] → known)
    (hsub : ∀ x ∈ varNames (slot span ss), x ∈ varNames s) (hmem : name ∈ varNamesOf ss) :
    known := by
  refine hvar ?_
  rw [varNamesOf_singleton]
  exact hsub name (varNames_slot span ss ▸ hmem)

/-- The declarators of a visited tree do not declare a fresh name. -/
theorem notMem_declarators {ds : List Declarator} (hF : F name)
    (h : AllDeclarators (Ordered ctx F N) ds) :
    name ∉ (declarators target ds).map Declarator.name := by
  rw [names_declarators]
  intro hmem
  obtain ⟨d, hd, rfl⟩ := mem_map.mp hmem
  exact (allDeclarators_iff.mp h d hd).1.1.declares _ (mem_singleton.mpr rfl) hF

section Induction

section

set_option linter.unusedSectionVars false

variable (hundefined : ¬F "undefined") (hthis : ¬F "this") (hF : F name)

include hundefined hthis hF

mutual

/-- A lowered expression uses a fresh name only where it is known. -/
theorem expr_scoped {T : List Binder} {known : Prop} (hk : Knows ctx name T known) :
    (e : Expr) → AllExpr (Ordered ctx F N) e → EachReference (Inside ctx F) T (.expr e) →
    ScopedExpr name known (expr target e)
  | .identifier span x, _, hr => by
    rintro rfl
    obtain ⟨binding, i, hmem, heq⟩ := eachReference_identifier.mp hr hF
    exact hk binding i hmem heq
  | .template _ _ es, h, hr | .array _ es, h, hr | .sequence _ es, h, hr =>
    exprs_scoped hk es h.2 (eachPart_exprParts.mp hr.parts)
  | .object _ ps, h, hr => properties_scoped hk ps h.2 hr.parts
  | .function _ x params body, h, hr =>
    stmts_scoped (((hk.nameBinder x).names _).or _)
      (((hk.nameBinder x).names _).or _) body h.2 (eachPart_stmtParts.mp hr.parts) .inr
  | .arrow _ params body, h, hr => expr_scoped (hk.names _) body h.2 hr.parts.1
  | .arrowBlock _ params _ body, h, hr =>
    stmts_scoped ((hk.names _).or _) ((hk.names _).or _) body h.2.2
      (eachPart_stmtParts.mp hr.parts) .inr
  | .call _ callee args, h, hr | .new _ callee args, h, hr =>
    ⟨expr_scoped hk callee h.2.1 hr.parts.1,
      exprs_scoped hk args h.2.2 (eachPart_exprParts.mp hr.parts.2)⟩
  | .member _ e _, h, hr | .unary _ _ e, h, hr | .update _ _ _ e, h, hr | .paren _ e, h, hr =>
    expr_scoped hk e h.2 hr.parts.1
  | .index _ l r, h, hr | .binary _ l _ r, h, hr | .assign _ l _ r, h, hr =>
    ⟨expr_scoped hk l h.2.1 hr.parts.1, expr_scoped hk r h.2.2 hr.parts.2.1⟩
  | .conditional _ t c a, h, hr =>
    ⟨expr_scoped hk t h.2.1 hr.parts.1, expr_scoped hk c h.2.2.1 hr.parts.2.1,
      expr_scoped hk a h.2.2.2 hr.parts.2.2.1⟩
  | .steps _ _ _ [] _ _, h, _ => absurd rfl h.1.2.2.2
  | .steps span q binding (first :: later) i fresh, h, hr => by
    have hfresh : fresh = some (ctx.freshOf i) := (h.1.1.fresh i rfl).1
    subst hfresh
    refine expression_scoped (fun heq => hthis (heq ▸ hF)) (fun more => ?_) fun more hi => ?_
    · exact expr_scoped (hk.or more) first h.2.1 hr.parts.1
    · exact exprs_scoped ((hk.or more).later hi binding) later h.2.2
        (eachPart_exprParts.mp hr.parts.2)
  | .rejected .., _, _ => fun heq => absurd (heq ▸ hF) hundefined
  | .this .., _, _ => fun heq => absurd (heq ▸ hF) hthis
  | .number .., _, _ | .string .., _, _ | .boolean .., _, _ | .null .., _, _
  | .foreign .., _, _ => trivial

theorem exprs_scoped {T : List Binder} {known : Prop} (hk : Knows ctx name T known) :
    (es : List Expr) → AllExprs (Ordered ctx F N) es →
    (∀ e ∈ es, EachReference (Inside ctx F) T (.expr e)) →
    ScopedExprs name known (exprs target es)
  | [], _, _ => trivial
  | e :: es, h, hr =>
    ⟨expr_scoped hk e h.1 (hr e mem_cons_self),
      exprs_scoped hk es h.2 fun e he => hr e (mem_cons_of_mem _ he)⟩

theorem properties_scoped {T : List Binder} {known : Prop} (hk : Knows ctx name T known) :
    (ps : List Property) → AllProperties (Ordered ctx F N) ps →
    EachPart (Inside ctx F) T (ps.map fun p => free (.property p)) →
    ScopedProperties name known (properties target ps)
  | [], _, _ => trivial
  | .mk _ _ e _ :: ps, h, hr =>
    ⟨expr_scoped hk e h.2.1 hr.1.parts.1, properties_scoped hk ps h.2.2 hr.2⟩

theorem declarators_scoped {T : List Binder} {known : Prop} (hk : Knows ctx name T known) :
    (ds : List Declarator) → AllDeclarators (Ordered ctx F N) ds →
    EachPart (Inside ctx F) T (ds.map fun d => free (.declarator d)) →
    ScopedDeclarators name known (declarators target ds)
  | [], _, _ => trivial
  | .mk _ _ none :: ds, h, hr => declarators_scoped hk ds h.2 hr.2
  | .mk _ _ (some e) :: ds, h, hr =>
    ⟨expr_scoped hk e h.2.1 hr.1.parts.1, declarators_scoped hk ds h.2.2 hr.2⟩

/-- A lowered statement uses a fresh name only where it is known. -/
theorem stmt_scoped {T : List Binder} {start known : Prop} (hs : Knows ctx name T start)
    (hk : Knows ctx name T known) :
    (s : Stmt) → AllStmt (Ordered ctx F N) s → EachReference (Inside ctx F) T (.stmt s) →
    (name ∈ varNamesOf (stmt target s) → known) → ScopedStmts name start known (stmt target s)
  | .declare _ _ ds, h, hr, _ =>
    ⟨⟨fun _ hmem => absurd hmem (notMem_declarators hF h.2),
      declarators_scoped hk ds h.2 hr.parts⟩, trivial⟩
  | .steps _ _ _ _ [] _ _, h, _, _ => absurd rfl h.1.2.2.2.2
  | .steps span q binding result (first :: later) i fresh, h, hr, hvar => by
    have hfresh : fresh = some (ctx.freshOf i) := (h.1.1.fresh i rfl).1
    subst hfresh
    refine declaration_scoped ?_ hvar (expr_scoped hk first h.2.1 hr.parts.1) fun more hi => ?_
    · rintro rfl
      exact h.1.1.declares _ (mem_singleton.mpr rfl) hF
    · exact exprs_scoped ((hk.or more).later hi binding) later h.2.2
        (eachPart_exprParts.mp hr.parts.2)
  | .function _ _ params body, h, hr, _ =>
    ⟨stmts_scoped ((hs.names _).or _) ((hs.names _).or _) body h.2
      (eachPart_stmtParts.mp hr.parts) .inr, trivial⟩
  | .ret _ none, _, _, _ => ⟨trivial, trivial⟩
  | .ret _ (some e), h, hr, _ | .throw_ _ e, h, hr, _ =>
    ⟨expr_scoped hk e h.2 hr.parts.1, trivial⟩
  | .ifElse _ t c none, h, hr, hvar | .whileLoop _ t c, h, hr, hvar =>
    ⟨⟨expr_scoped hk t h.2.1 hr.parts.1,
      slot_scoped (stmt_scoped hk hk c h.2.2 hr.parts.2.1
        (known_of_slot hvar fun _ => id))⟩, trivial⟩
  | .ifElse _ t c (some a), h, hr, hvar =>
    ⟨⟨expr_scoped hk t h.2.1 hr.parts.1,
      slot_scoped (stmt_scoped hk hk c h.2.2.1 hr.parts.2.1
        (known_of_slot hvar fun _ => mem_append_left _)),
      slot_scoped (stmt_scoped hk hk a h.2.2.2 hr.parts.2.2.1
        (known_of_slot hvar fun _ => mem_append_right _))⟩, trivial⟩
  | .forLoop span init test update body, h, hr, hvar => by
    rw [stmt_forLoop] at hvar ⊢
    have hparts := hr.parts
    simp only [Node.parts, eachPart_append] at hparts
    have hk' := hk.names (headerNames init)
    refine ⟨⟨?_, ?_, ?_, slot_scoped (stmt_scoped hk' hk' body h.2.2.2.2
      hparts.2.1 (known_of_slot hvar (varNames_forLoop _ _ _ _)))⟩, trivial⟩
    · cases init with
      | none => trivial
      | some s =>
        cases s with
        | declare s q ds =>
          exact ⟨fun _ hmem => absurd hmem (notMem_declarators hF h.2.1.2),
            declarators_scoped hk' ds h.2.1.2 hparts.1.1.1.1.parts⟩
        | expr s e => exact expr_scoped hk' e h.2.1 hparts.1.1.1.1
        | _ => exact h.1.2.elim
    · cases test with
      | none => trivial
      | some e => exact expr_scoped hk' e h.2.2.1 hparts.1.1.2.1
    · cases update with
      | none => trivial
      | some e => exact expr_scoped hk' e h.2.2.2.1 hparts.1.2.1
  | .forOf _ q x e b, h, hr, hvar =>
    ⟨⟨fun _ heq => absurd (heq ▸ hF) (h.1.1.declares _ (mem_singleton.mpr rfl)),
      expr_scoped hk e h.2.1 hr.parts.1,
      slot_scoped (stmt_scoped (hk.names _) (hk.names _) b h.2.2 hr.parts.2.1
        (known_of_slot hvar (varNames_forOf _ _)))⟩, trivial⟩
  | .block _ body, h, hr, hvar =>
    ⟨stmts_scoped (hk.names _) (hk.names _) body h.2
      (eachPart_stmtParts.mp hr.parts) fun hmem => hvar (varNamesOf_singleton _ ▸ hmem), trivial⟩
  | .expr span e, h, hr, _ => by
    rcases stmt_expr_cases target span e with hstmt | hstmt
    · rw [hstmt]
      trivial
    · rw [hstmt]
      exact ⟨expr_scoped hk e h.2 hr.parts.1, trivial⟩
  | .rejected .., _, _, _ => trivial
  | .break_ _, _, _, _ | .continue_ _, _, _, _ | .empty _, _, _, _ | .foreign _, _, _, _ =>
    ⟨trivial, trivial⟩

theorem stmts_scoped {T : List Binder} {start known : Prop} (hs : Knows ctx name T start)
    (hk : Knows ctx name T known) :
    (ss : List Stmt) → AllStmts (Ordered ctx F N) ss →
    (∀ s ∈ ss, EachReference (Inside ctx F) T (.stmt s)) →
    (name ∈ varNamesOf (stmts target ss) → known) → ScopedStmts name start known (stmts target ss)
  | [], _, _, _ => trivial
  | s :: ss, h, hr, hvar => by
    have hmem : varNamesOf (stmts target (s :: ss)) =
      varNamesOf (stmt target s) ++ varNamesOf (stmts target ss) := varNamesOf_append _ _
    rw [hmem, mem_append] at hvar
    refine scopedStmts_append (stmt_scoped hs hk s h.1 (hr s mem_cons_self)
      fun hmem => hvar (.inl hmem)) fun more => ?_
    exact stmts_scoped hs (hk.or more) ss h.2
      (fun t ht => hr t (mem_cons_of_mem _ ht)) fun hmem => .inl (hvar (.inr hmem))

end

end

end Induction

end Lower

end StepBinding
