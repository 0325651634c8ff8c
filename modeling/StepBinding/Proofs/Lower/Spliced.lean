import StepBinding.Proofs.Construct.Filed
import StepBinding.Proofs.Lower.Shape
import StepBinding.Splice

/-! The traversal that lowers step bindings and records that they are in their places. For a module
whose step bindings all have steps it yields the lowered module, and the edits it makes in the log
are those of the step bindings of the module, of each one once. -/

namespace StepBinding.Splice

open List Construct StepBinding.Tree Node

/-- Records of some step bindings in turn that they are in their places. -/
def splice (log : Log) : List Nat → Except Problem Log
  | [] => .ok log
  | i :: is => do
    let (_, log) ← done i log
    splice log is

theorem splice_append (log : Log) (is js : List Nat) :
    splice log (is ++ js) = splice log is >>= fun log => splice log js := by
  induction is generalizing log with
  | nil => rfl
  | cons i is ih =>
    change (done i log >>= fun x => splice x.2 (is ++ js)) =
      (done i log >>= fun x => splice x.2 is) >>= fun log => splice log js
    cases done i log with
    | error why => rfl
    | ok x => exact ih x.2

section Log

variable {log log' : Log} {is js : List Nat} {i : Nat}

private theorem resolved_of_allows {s : State} (h : s.allows .lowered) : s = .resolved := by
  cases s <;> first | rfl | cases h

/-- A record that is put in its place was resolved. -/
theorem get?_done {x : Unit × Log} (h : done i log = .ok x) :
    log.Stands i .resolved ∧ ∀ j,
      x.2.get? j = (log.get? j).map fun r => if j = i then { r with state := .spliced } else r := by
  unfold done at h
  dsimp only at h
  split at h
  · rename_i hlowered hspliced
    cases h
    obtain ⟨⟨r, hr, hallows⟩, hget⟩ := Log.get?_advance hlowered
    obtain ⟨-, hget'⟩ := Log.get?_advance hspliced
    refine ⟨⟨r, hr, resolved_of_allows hallows⟩, fun j => ?_⟩
    rw [hget', hget, Option.map_map]
    congr 1
    funext r
    by_cases hij : i = j
    · subst hij
      simp
    · simp [hij, Ne.symm hij]
  · cases h
  · cases h

theorem exists_done (h : log.Stands i .resolved) : ∃ x, done i log = .ok x := by
  obtain ⟨r, hr, hstate⟩ := h
  have hlowered : (log.advance i .lowered).refusal = none :=
    Log.refusal_advance hr (by rw [hstate]; rfl)
  have hget := (Log.get?_advance hlowered).2
  have hspliced : ((log.advance i .lowered).log.advance i .spliced).refusal = none :=
    Log.refusal_advance (r := { r with state := .lowered }) (by rw [hget, hr]; simp) rfl
  unfold done
  dsimp only
  rw [hlowered, hspliced]
  exact ⟨_, rfl⟩

theorem splice_cons (h : splice log (i :: is) = .ok log') :
    ∃ x, done i log = .ok x ∧ splice x.2 is = .ok log' := by
  change (done i log >>= fun x => splice x.2 is) = .ok log' at h
  cases hdone : done i log with
  | error why => rw [hdone] at h; cases h
  | ok x => rw [hdone] at h; exact ⟨x, rfl, h⟩

theorem get?_splice (h : splice log is = .ok log') :
    (∀ i ∈ is, log.Stands i .resolved) ∧ ∀ j,
      log'.get? j = (log.get? j).map fun r => if j ∈ is then { r with state := .spliced } else r := by
  induction is generalizing log with
  | nil =>
    cases h
    simp
  | cons i is ih =>
    obtain ⟨x, hdone, hrest⟩ := splice_cons h
    obtain ⟨hstands, hget⟩ := get?_done hdone
    obtain ⟨hresolved, hget'⟩ := ih hrest
    refine ⟨fun j hj => ?_, fun j => ?_⟩
    · by_cases hij : j = i
      · exact hij ▸ hstands
      · obtain ⟨r, hr, hstate⟩ := hresolved j ((mem_cons.mp hj).resolve_left hij)
        exact ⟨r, by simpa [hget, hij] using hr, hstate⟩
    · rw [hget', hget, Option.map_map]
      congr 1
      funext r
      by_cases hij : j = i <;> simp [hij]

/-- Step bindings that are resolved can be put in their places, each once. -/
theorem exists_splice (hnodup : is.Nodup) (h : ∀ i ∈ is, log.Stands i .resolved) :
    ∃ log', splice log is = .ok log' := by
  induction is generalizing log with
  | nil => exact ⟨log, rfl⟩
  | cons i is ih =>
    obtain ⟨hi, hnodup⟩ := nodup_cons.mp hnodup
    obtain ⟨x, hdone⟩ := exists_done (h i mem_cons_self)
    have hget := (get?_done hdone).2
    obtain ⟨log', hsplice⟩ := @ih x.2 hnodup fun j hj => by
      obtain ⟨r, hr, hstate⟩ := h j (mem_cons_of_mem _ hj)
      have hij : j ≠ i := fun hij => hi (hij ▸ hj)
      exact ⟨r, by rw [hget, hr]; simp [hij], hstate⟩
    refine ⟨log', ?_⟩
    change (done i log >>= fun x => splice x.2 is) = _
    rw [hdone]
    exact hsplice

/-- The order in which step bindings are put in their places does not matter. -/
theorem splice_perm (hp : is.Perm js) (hnodup : is.Nodup) (h : splice log is = .ok log') :
    splice log js = .ok log' := by
  obtain ⟨hstands, hget⟩ := get?_splice h
  obtain ⟨other, hother⟩ := exists_splice (hp.nodup hnodup) fun i hi => hstands i (hp.mem_iff.mpr hi)
  have hrecords : other.records = log'.records := ext_getElem? fun i => by
    change other.get? i = log'.get? i
    rw [(get?_splice hother).2, hget]
    simp only [hp.mem_iff]
  rw [hother, show other = log' from congrArg Log.mk hrecords]

end Log

/-- A part of the traversal yields `a` and edits the log for the step bindings among some nodes, in an
order of its own. -/
def Splices {α : Type} (act : Splicing α) (a : α) (ns : List Node) : Prop :=
  ∃ is, is.Perm (marks ns) ∧ ∀ log, act log = (splice log is).map fun log => (a, log)

namespace Splices

variable {α β γ : Type} {act : Splicing α} {act' : Splicing β} {a : α} {b : β} {c : γ}
  {n : Node} {ns ms ks : List Node}

theorem pure : Splices (pure a : Splicing α) a [] := ⟨[], .nil, fun _ => rfl⟩

theorem perm (h : Splices act a ns) (hp : (marks ns).Perm (marks ms)) : Splices act a ms :=
  let ⟨is, his, hact⟩ := h
  ⟨is, his.trans hp, hact⟩

/-- A node that is no step binding adds nothing. -/
theorem node (hn : construct? n = none) (h : Splices act a ns) : Splices act a (n :: ns) :=
  h.perm (by rw [marks, marks, filterMap_cons_none hn])

theorem bind {f : α → Splicing β} (h : Splices act a ns) (h' : Splices (f a) b ms) :
    Splices (act >>= f) b (ns ++ ms) := by
  obtain ⟨is, his, hact⟩ := h
  obtain ⟨js, hjs, hact'⟩ := h'
  refine ⟨is ++ js, by rw [marks_append]; exact his.append hjs, fun log => ?_⟩
  change (act log >>= fun x => f x.1 x.2) = _
  rw [hact, splice_append]
  cases splice log is with
  | error why => rfl
  | ok log => exact hact' log

theorem one {f : α → β} (h : Splices act a ns) :
    Splices (act >>= fun x => Pure.pure (f x)) (f a) ns :=
  perm (h.bind (f := fun x => Pure.pure (f x)) .pure) (by simp)

theorem two {f : α → β → γ} (h : Splices act a ns) (h' : Splices act' b ms) :
    Splices (act >>= fun x => act' >>= fun y => Pure.pure (f x y)) (f a b) (ns ++ ms) :=
  h.bind h'.one

/-- A step binding is in its place after its steps. -/
theorem finish {act : Splicing (List Expr)} {es : List Expr} {i : Nat} {lowered : List Expr → α}
    (hn : construct? n = some i) (hes : es ≠ []) (h : Splices act es ns) :
    Splices (act >>= fun es => finish i es lowered) (lowered es) (n :: ns) := by
  obtain ⟨is, his, hact⟩ := h
  refine ⟨is ++ [i], ?_, fun log => ?_⟩
  · rw [marks, filterMap_cons_some hn]
    exact (perm_append_comm.trans (.cons i his))
  · change (act log >>= fun x => Splice.finish i x.1 lowered x.2) = _
    rw [hact, splice_append]
    cases splice log is with
    | error why => rfl
    | ok log =>
      change Splice.finish i es lowered log = _
      unfold Splice.finish
      rw [if_neg (by simpa using hes)]
      change (done i log >>= fun x => _) = (do let (_, log) ← done i log; splice log []).map _
      cases done i log <;> rfl

end Splices

variable (target : Target) {N : String → Prop}

mutual

theorem splices_expr : (e : Expr) → AllExpr (Formed N) e →
    Splices (expr target e) (Lower.expr target e) (walkExpr e)
  | .template _ _ es, h | .array _ es, h | .sequence _ es, h =>
    .node rfl (splices_exprs es h.2).one
  | .object _ ps, h => .node rfl (splices_properties ps h.2).one
  | .function _ _ _ body, h => .node rfl (splices_stmts body h.2).one
  | .arrow _ _ body, h => .node rfl (splices_expr body h.2).one
  | .arrowBlock _ _ _ body, h => .node rfl (.node rfl (splices_stmts body h.2.2).one)
  | .call _ c es, h | .new _ c es, h =>
    .node rfl ((splices_expr c h.2.1).two (splices_exprs es h.2.2))
  | .member _ o _, h => .node rfl (splices_expr o h.2).one
  | .unary _ _ x, h | .update _ _ _ x, h | .paren _ x, h => .node rfl (splices_expr x h.2).one
  | .index _ l r, h | .binary _ l _ r, h | .assign _ l _ r, h =>
    .node rfl ((splices_expr l h.2.1).two (splices_expr r h.2.2))
  | .conditional _ t c a, h => by
    refine .node rfl ?_
    rw [append_assoc]
    exact (splices_expr t h.2.1).bind ((splices_expr c h.2.2.1).two (splices_expr a h.2.2.2))
  | .steps _ _ _ es _ _, h =>
    .finish rfl (by simpa [Lower.exprs_eq_map] using h.1.2.2) (splices_exprs es h.2)
  | .rejected .., _ | .identifier .., _ | .number .., _ | .string .., _ | .boolean .., _
  | .null _, _ | .this _, _ => .node rfl .pure
  | .foreign _, h => h.elim

theorem splices_exprs : (es : List Expr) → AllExprs (Formed N) es →
    Splices (exprs target es) (Lower.exprs target es) (walkExprs es)
  | [], _ => .pure
  | e :: es, h => (splices_expr e h.1).two (splices_exprs es h.2)

theorem splices_properties : (ps : List Property) → AllProperties (Formed N) ps →
    Splices (properties target ps) (Lower.properties target ps) (walkProperties ps)
  | [], _ => .pure
  | .mk _ _ e _ :: ps, h => .node rfl ((splices_expr e h.2.1).two (splices_properties ps h.2.2))

theorem splices_declarators : (ds : List Declarator) → AllDeclarators (Formed N) ds →
    Splices (declarators target ds) (Lower.declarators target ds) (walkDeclarators ds)
  | [], _ => .pure
  | .mk _ _ none :: ds, h => .node rfl (splices_declarators ds h.2).one
  | .mk _ _ (some e) :: ds, h =>
    .node rfl ((splices_expr e h.2.1).two (splices_declarators ds h.2.2))

theorem splices_stmt : (s : Stmt) → AllStmt (Formed N) s →
    Splices (stmt target s) (Lower.stmt target s) (walkStmt s)
  | .declare _ _ ds, h => .node rfl (splices_declarators ds h.2).one
  | .steps _ _ _ _ es _ _, h =>
    .finish rfl (by simpa [Lower.exprs_eq_map] using h.1.2.2.2) (splices_exprs es h.2)
  | .function _ _ _ body, h | .block _ body, h => .node rfl (splices_stmts body h.2).one
  | .ret _ (some e), h | .throw_ _ e, h => .node rfl (splices_expr e h.2).one
  | .ifElse _ t c none, h | .whileLoop _ t c, h | .forOf _ _ _ t c, h =>
    .node rfl ((splices_expr t h.2.1).two (splices_stmt c h.2.2))
  | .ifElse _ t c (some a), h => by
    refine .node rfl (.perm ((splices_stmt a h.2.2.2).bind
      ((splices_expr t h.2.1).two (splices_stmt c h.2.2.1))) ?_)
    rw [marks_append, marks_append _ (walkStmt a)]
    exact perm_append_comm
  | .forLoop _ init test update body, h => by
    rw [walkStmt_forLoop, append_assoc, append_assoc, Lower.stmt_forLoop]
    exact .node rfl ((splices_start init h.1 h.2.1).bind ((splices_option test h.2.2.1).bind
      ((splices_option update h.2.2.2.1).two (splices_stmt body h.2.2.2.2))))
  | .expr span e, h => by
    cases e with
    | rejected => exact .node rfl (.node rfl .pure)
    | _ => exact .node rfl (splices_expr _ h.2).one
  | .rejected .., _ | .ret _ none, _ | .break_ _, _ | .continue_ _, _ | .empty _, _ =>
    .node rfl .pure
  | .foreign _, h => h.elim

theorem splices_start : (init : Option Stmt) →
    Formed N (.stmt (.forLoop default init none none (.empty default))) →
    AllStart (Formed N) init →
    Splices (start target init) (Lower.start target init) (walkStart init)
  | none, _, _ => .pure
  | some (.declare _ _ ds), _, h => .node rfl (splices_declarators ds h.2).one
  | some (.expr _ e), _, h => (splices_expr e h).one

theorem splices_option : (value : Option Expr) → AllOption (Formed N) value →
    Splices (option target value) (value.map (Lower.expr target)) (walkOption value)
  | none, _ => .pure
  | some e, h => (splices_expr e h).one

theorem splices_stmts : (ss : List Stmt) → AllStmts (Formed N) ss →
    Splices (stmts target ss) (Lower.stmts target ss) (walkStmts ss)
  | [], _ => .pure
  | s :: ss, h => (splices_stmt s h.1).two (splices_stmts ss h.2)

end

variable {m : Module} {log : Log}

/-- A module whose step bindings have steps is lowered, whatever is recorded, by the edits for its step
bindings in one order, each once. -/
theorem exists_order (hm : AllStmts (Formed N) m.body) :
    ∃ is, is.Perm (marks (walkStmts m.body)) ∧ ∀ log,
      module target m log = (splice log is).map fun log => (Lower.module target m, log) := by
  obtain ⟨is, his, hact⟩ := splices_stmts target m.body hm
  refine ⟨is, his, fun log => ?_⟩
  unfold module
  rw [hact]
  cases splice log is <;> rfl

theorem module_eq_ok_iff {x : Module × Log} (hm : AllStmts (Formed N) m.body)
    (hnodup : (marks (walkStmts m.body)).Nodup) :
    module target m log = .ok x ↔
      splice log (marks (walkStmts m.body)) = .ok x.2 ∧ x.1 = Lower.module target m := by
  obtain ⟨is, his, hmodule⟩ := exists_order target hm
  rw [hmodule]
  constructor
  · intro h
    cases hsplice : splice log is with
    | error why => rw [hsplice] at h; cases h
    | ok log' =>
      rw [hsplice] at h
      cases h
      exact ⟨splice_perm his (his.symm.nodup hnodup) hsplice, rfl⟩
  · rintro ⟨hsplice, hmodule⟩
    rw [splice_perm his.symm hnodup hsplice]
    obtain ⟨m', log'⟩ := x
    cases hmodule
    rfl

end StepBinding.Splice
