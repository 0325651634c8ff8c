import StepBinding.Proofs.Construct.Change
import StepBinding.Proofs.Grammar.Local

/-! The same tokens are read in the same way at every place. If the ranges of all tokens are changed,
and if there are diagnostics before, a reading differs only in ranges. A larger bound on the uses of
the rules makes no difference either. -/

namespace StepBinding.Grammar

open List hiding span
open Token Construct

variable {α β σ : Type} {μ : Change} {s s' : Span} {b : Bool} {steps steps' : List Expr} {q : Prop}
  {n m : Nat}

-- A rule is an instance by its parts, and the longest rules have many parts.
set_option synthInstance.maxSize 100000

/-- Data that may mention places. -/
class Placed (α : Type) where
  move : Change → α → α

open Placed (move)

/-- The data `a'` are `a` at other places. -/
class Moved (μ : Change) [Placed α] (a a' : α) : Prop where
  eq : move μ a = a'

section Data

instance : Placed Unit := ⟨fun _ a => a⟩
instance : Placed Bool := ⟨fun _ a => a⟩
instance : Placed String := ⟨fun _ a => a⟩
instance : Placed Code := ⟨fun _ a => a⟩
instance : Placed BinaryOp := ⟨fun _ a => a⟩
instance : Placed Span := ⟨fun μ => μ.span⟩
instance : Placed Token := ⟨fun μ t => { t with span := μ.span t.span }⟩
instance : Placed Expr := ⟨fun μ => μ.label.expr⟩
instance : Placed Stmt := ⟨fun μ => μ.label.stmt⟩
instance : Placed Property := ⟨fun μ => μ.label.property⟩
instance : Placed Declarator := ⟨fun μ => μ.label.declarator⟩

variable [Placed α] [Placed β]

instance : Placed (List α) := ⟨fun μ => List.map (move μ)⟩
instance : Placed (Option α) := ⟨fun μ => Option.map (move μ)⟩
instance : Placed (α × β) := ⟨fun μ p => (move μ p.1, move μ p.2)⟩

instance : Placed (Pass α β) where
  move μ
    | .again s => .again (move μ s)
    | .leave b => .leave (move μ b)

instance (a : α) : Moved μ a (move μ a) := ⟨rfl⟩
instance (a : Unit) : Moved μ a a := ⟨rfl⟩
instance (a : String) : Moved μ a a := ⟨rfl⟩
instance {t t' : Token} [h : Moved μ t t'] : Moved μ t.span t'.span := ⟨by rw [← h.eq]; rfl⟩
instance (a : Bool) : Moved μ a a := ⟨rfl⟩
instance (codes : List Code) : Moved μ codes codes := ⟨map_id codes⟩
instance (a : BinaryOp) : Moved μ a a := ⟨rfl⟩

section Constructors

variable {a a' : α} {b b' : β} {as as' : List α} [h : Moved μ a a'] [h' : Moved μ b b']
  [hs : Moved μ as as']

instance : Moved μ ([] : List α) [] := ⟨rfl⟩
instance : Moved μ (none : Option α) none := ⟨rfl⟩
instance : Moved μ (a :: as) (a' :: as') := ⟨by rw [← h.eq, ← hs.eq]; rfl⟩
instance : Moved μ (some a) (some a') := ⟨by rw [← h.eq]; rfl⟩
instance : Moved μ (a, b) (a', b') := ⟨by rw [← h.eq, ← h'.eq]; rfl⟩
instance {p p' : α × β} [h : Moved μ p p'] : Moved μ p.1 p'.1 := ⟨by rw [← h.eq]; rfl⟩
instance {p p' : α × β} [h : Moved μ p p'] : Moved μ p.2 p'.2 := ⟨by rw [← h.eq]; rfl⟩
instance {bs bs' : List α} [h : Moved μ bs bs'] : Moved μ (as ++ bs) (as' ++ bs') :=
  ⟨by rw [← hs.eq, ← h.eq]; exact map_append⟩
instance : Moved μ as.reverse as'.reverse := ⟨by rw [← hs.eq]; exact map_reverse⟩
instance : Moved μ (Pass.again a : Pass α β) (Pass.again a') := ⟨by rw [← h.eq]; rfl⟩
instance : Moved μ (Pass.leave b : Pass α β) (Pass.leave b') := ⟨by rw [← h'.eq]; rfl⟩

end Constructors

theorem Moved.list_eq {as as' : List α} (h : Moved μ as as') (ha : ∀ a : α, move μ a = a) :
    as' = as := by
  rw [← h.eq, show move μ as = as.map (move μ) from rfl, funext ha]
  exact map_id as

end Data

/-- The cursor at other places, behind other diagnostics. -/
def Cursor.changed (c : Cursor) (μ : Change) (ds : List Diagnostic) : Cursor where
  rest := c.rest.map μ.token
  last := μ.token c.last
  diagnostics := ds ++ c.diagnostics.map μ.diagnostic
  faulty := c.faulty
  log := μ.log c.log

/-- The outcome of a reading at other places. -/
def changed [Placed α] (μ : Change) (ds : List Diagnostic) :
    EStateM.Result Stop Cursor α → EStateM.Result Stop Cursor α
  | .ok a c => .ok (move μ a) (c.changed μ ds)
  | .error e c => .error e (c.changed μ ds)

/-- Two readings, the second of the same tokens at other places, have the same outcome, unless the
first one stops otherwise than at a misplaced token. -/
class Alike (μ : Change) [Placed α] (p p' : Parse α) : Prop where
  run : ∀ ds c, Abnormal (p c) ∨ p' (c.changed μ ds) = changed μ ds (p c)

section Base

variable [Placed α] [Placed β] [Placed σ] {p p' p1 p1' p2 p2' : Parse α} {f f' : α → Parse β}

theorem Alike.bind (hp : Alike μ p p') (hf : ∀ a, Alike μ (f a) (f' (move μ a))) :
    Alike μ (p >>= f) (p' >>= f') where
  run ds c := by
    rcases hp.run ds c with habnormal | heq
    · exact .inl habnormal.bind
    · cases hpc : p c with
      | ok a c1 =>
        rw [hpc] at heq
        rw [bind_of_ok hpc, bind_of_ok heq]
        exact (hf a).run ds c1
      | error e c1 =>
        rw [hpc] at heq
        rw [bind_of_error hpc, bind_of_error heq]
        exact .inr rfl

instance [Alike μ p p'] [∀ a, Alike μ (f a) (f' (move μ a))] : Alike μ (p >>= f) (p' >>= f') :=
  .bind inferInstance fun _ => inferInstance

theorem Alike.pure {a a' : α} (h : move μ a = a') : Alike μ (Pure.pure a) (Pure.pure a') :=
  ⟨fun _ _ => .inr (h ▸ rfl)⟩

instance {a a' : α} [h : Moved μ a a'] : Alike μ (pure a) (pure a') := .pure h.eq

theorem Alike.ite [Decidable q] (h1 : Alike μ p1 p1') (h2 : Alike μ p2 p2') :
    Alike μ (if q then p1 else p2) (if q then p1' else p2') := by
  split
  · exact h1
  · exact h2

instance [Decidable q] [Alike μ p1 p1'] [Alike μ p2 p2'] :
    Alike μ (if q then p1 else p2) (if q then p1' else p2') :=
  .ite inferInstance inferInstance

theorem Alike.of_ok {x : Cursor → α} {y : Cursor → Cursor} (hp : ∀ c, p c = .ok (x c) (y c))
    (hp' : ∀ ds c, p' (c.changed μ ds) = .ok (move μ (x c)) ((y c).changed μ ds)) :
    Alike μ p p' where
  run ds c := .inr (by rw [hp, hp']; rfl)

theorem Alike.get {f f' : Cursor → Parse α} (hf : ∀ ds c, Alike μ (f c) (f' (c.changed μ ds))) :
    Alike μ (get >>= f) (get >>= f') :=
  ⟨fun ds c => (hf ds c).run ds c⟩

instance (e : Stop) : Alike (α := α) μ (throw e) (throw e) := ⟨fun _ _ => .inr rfl⟩

theorem alike_tryCatch {h h' : Stop → Parse α} (hp : Alike μ p p')
    (hm : Alike μ (h .misplaced) (h' .misplaced)) (ho : ∀ e ≠ .misplaced, h e = throw e) :
    Alike μ (tryCatch p h) (tryCatch p' h') where
  run ds c := by
    have hcatch : tryCatch p' h' (c.changed μ ds) = EStateM.tryCatch p' h' (c.changed μ ds) := rfl
    rw [hcatch, EStateM.tryCatch]
    rcases tryCatch_cases ho c with ⟨c1, hpc, htry⟩ | ⟨htry, hne⟩ <;> rw [htry] <;>
      rcases hp.run ds c with habnormal | heq
    · obtain ⟨e, c2, he, hne⟩ := habnormal
      cases hpc.symm.trans he
      exact absurd rfl hne
    · rw [heq, hpc]
      exact hm.run ds c1
    · exact .inl habnormal
    · cases hpc : p c with
      | ok a c1 => exact .inr (by rw [heq, hpc]; rfl)
      | error e c1 => exact .inl ⟨e, c1, rfl, fun he => hne c1 (he ▸ hpc)⟩

theorem next_changed (c : Cursor) (ds : List Diagnostic) :
    (c.changed μ ds).rest.headD (c.changed μ ds).last = μ.token (c.rest.headD c.last) := by
  simp only [Cursor.changed]
  cases c.rest <;> rfl

theorem kind_move (t : Token) : (move μ t).kind = t.kind := rfl

theorem isTarget_move (e : Expr) : (move μ e).isTarget = e.isTarget := Relabel.isTarget_expr ..

instance : Alike μ current current :=
  .of_ok (fun _ => rfl) fun ds c => by rw [current, next_changed]; rfl

instance (k : Kind) : Alike μ (isAt k) (isAt k) := by unfold isAt; infer_instance
instance (ks : List Kind) : Alike μ (isAtAny ks) (isAtAny ks) := by unfold isAtAny; infer_instance

instance (n : Nat) : Alike μ (peek n) (peek n) :=
  .of_ok (fun _ => rfl) fun ds c => by
    simp only [peek, Cursor.changed, getElem?_map, getLastD_eq_getLast?,
      getLast?_map, Option.getD_map]
    rfl

instance : Alike μ advance advance where
  run ds c := .inr (by
    unfold advance
    cases hrest : c.rest with
    | nil => simp [Cursor.changed, changed, hrest]; rfl
    | cons t ts => cases ts <;> simp [Cursor.changed, changed, hrest] <;> rfl)

instance (message : String) [h : Moved μ s s'] :
    Alike μ (report message s) (report message s') where
  run ds c := .inr (by
    rw [report, report, modify_run, modify_run, ← h.eq]
    simp only [changed, Cursor.changed, map_append, append_assoc]
    rfl)

instance alike_note (noted : List Diagnostic) : Alike μ (note noted)
    (note (noted.map μ.diagnostic)) where
  run ds c := .inr (by
    rw [note, note, modify_run, modify_run]
    simp only [changed, Cursor.changed, map_append, append_assoc])

instance alike_fail (message : String) [Moved μ s s'] :
    Alike (α := α) μ (fail message s) (fail message s') := by
  unfold fail; infer_instance

instance (k : Kind) (what : String) : Alike μ (expect k what) (expect k what) :=
  .bind inferInstance fun _ => .ite inferInstance (alike_fail _)

instance [h : Moved μ s s'] : Alike μ (spanFrom s) (spanFrom s') :=
  .of_ok (fun _ => rfl) fun ds c => by
    rw [spanFrom, ← h.eq]
    exact congrArg (EStateM.Result.ok · _) (μ.through ..).symm

theorem alike_edit {e e' : Log → Edited} (he : ∀ l, μ.Agrees (e l) (e' (μ.log l))) :
    Alike μ (edit e) (edit e') where
  run ds c := by
    unfold edit
    dsimp only
    cases hnone : (e c.log).refusal with
    | some why => exact .inl ⟨_, _, rfl, nofun⟩
    | none =>
      obtain ⟨hnone', hlog⟩ := he c.log hnone
      right
      rw [show (c.changed μ ds).log = μ.log c.log from rfl, hnone', hlog]
      rfl

instance (rest : List Token) : Alike μ (skipTo rest) (skipTo (rest.map μ.token)) where
  run ds c := .inr (by
    rw [skipTo, skipTo, modify_run, modify_run]
    simp only [changed, Cursor.changed, length_map, ← map_take,
      getLastD_eq_getLast?, getLast?_map, Option.getD_map])

instance : Alike μ semicolon semicolon := by unfold semicolon; infer_instance

instance {body body' : σ → Parse (Pass σ β)} [hbody : ∀ s, Alike μ (body s) (body' (move μ s))]
    {s s' : σ} [hs : Moved μ s s'] : Alike μ (loop body s) (loop body' s') := by
  have hpasses (limit limit' : List Token) (hlength : limit'.length = limit.length) (s : σ) :
      Alike μ (passes limit body s) (passes limit' body' (move μ s)) := by
    induction limit generalizing limit' s with
    | nil => exact ⟨fun _ _ => .inl ⟨_, _, rfl, by rintro ⟨⟩⟩⟩
    | cons t limit ih =>
      cases limit' with
      | nil => cases hlength
      | cons t' limit' =>
        unfold passes
        refine .bind (hbody s) fun pass => ?_
        cases pass with
        | again s => exact ih limit' (Nat.succ.inj hlength) s
        | leave b => exact .pure rfl
  rw [← hs.eq]
  exact .get fun ds c => hpasses _ _ (by simp [Cursor.changed]) s

instance (close : Kind) (trailing : Bool) {item item' : Parse α} [Alike μ item item']
    (acc : List α) :
    Alike μ (commaPass close trailing item acc) (commaPass close trailing item' (move μ acc)) := by
  unfold commaPass
  rw [show (move μ acc).isEmpty = acc.isEmpty from isEmpty_map]
  dsimp only
  infer_instance

instance (close : Kind) (closeName : String) (trailing : Bool) {item item' : Parse α}
    [Alike μ item item'] :
    Alike μ (commaList close closeName trailing item) (commaList close closeName trailing item') := by
  unfold commaList; infer_instance

end Base

section Trees

variable {u u' : Span} {e e' e1 e1' e2 e2' : Expr} {es es' : List Expr} {n : String}
  {name name' : Option String} {names names' : List String} {x x' : Stmt}
  {o o' o1 o1' : Option Expr} {y y' : Option Stmt} {xs xs' : List Stmt} {ps ps' : List Property}
  {ds ds' : List Declarator} {q : Qualifier} [hname : Moved μ name name']
  [hnames : Moved μ names names'] [hs : Moved μ s s'] [hu : Moved μ u u'] [he : Moved μ e e']
  [he1 : Moved μ e1 e1'] [he2 : Moved μ e2 e2'] [hes : Moved μ es es'] [hx : Moved μ x x']
  [ho : Moved μ o o'] [ho1 : Moved μ o1 o1'] [hy : Moved μ y y'] [hxs : Moved μ xs xs']
  [hps : Moved μ ps ps'] [hds : Moved μ ds ds']

instance : Moved μ e.span e'.span := ⟨by rw [← he.eq]; exact (Relabel.span_expr μ.label e).symm⟩
instance : Moved μ (s.through u) (s'.through u') := ⟨by rw [← hs.eq, ← hu.eq]; exact μ.through ..⟩
instance : Moved μ (es.headD e) (es'.headD e') := ⟨by rw [← hes.eq, ← he.eq]; cases es <;> rfl⟩

instance : Moved μ (Expr.number s n) (.number s' n) := ⟨by rw [← hs.eq]; rfl⟩
instance : Moved μ (Expr.string s n) (.string s' n) := ⟨by rw [← hs.eq]; rfl⟩
instance : Moved μ (Expr.template s names es) (.template s' names' es') :=
  ⟨by rw [← hs.eq, ← hes.eq, hnames.list_eq fun _ => rfl]; exact congrArg _ (Relabel.exprs_eq_map ..)⟩
instance : Moved μ (Expr.boolean s b) (.boolean s' b) := ⟨by rw [← hs.eq]; rfl⟩
instance : Moved μ (Expr.null s) (.null s') := ⟨by rw [← hs.eq]; rfl⟩
instance : Moved μ (Expr.this s) (.this s') := ⟨by rw [← hs.eq]; rfl⟩
instance : Moved μ (Expr.identifier s n) (.identifier s' n) := ⟨by rw [← hs.eq]; rfl⟩
instance : Moved μ (Expr.array s es) (.array s' es') :=
  ⟨by rw [← hs.eq, ← hes.eq]; exact congrArg _ (Relabel.exprs_eq_map ..)⟩
instance : Moved μ (Expr.object s ps) (.object s' ps') :=
  ⟨by rw [← hs.eq, ← hps.eq]; exact congrArg _ (Relabel.properties_eq_map ..)⟩
instance : Moved μ (Expr.function s name names xs) (.function s' name' names' xs') :=
  ⟨by
    rw [← hs.eq, ← hxs.eq, ← hname.eq, hnames.list_eq fun _ => rfl]
    cases name <;> exact congrArg _ (Relabel.stmts_eq_map ..)⟩
instance : Moved μ (Expr.arrow s names e) (.arrow s' names' e') :=
  ⟨by rw [← hs.eq, ← he.eq, hnames.list_eq fun _ => rfl]; rfl⟩
instance : Moved μ (Expr.arrowBlock s names u xs) (.arrowBlock s' names' u' xs') :=
  ⟨by
    rw [← hs.eq, ← hu.eq, ← hxs.eq, hnames.list_eq fun _ => rfl]
    exact congrArg _ (Relabel.stmts_eq_map ..)⟩
instance : Moved μ (Expr.call s e es) (.call s' e' es') :=
  ⟨by rw [← hs.eq, ← he.eq, ← hes.eq]; exact congrArg _ (Relabel.exprs_eq_map ..)⟩
instance : Moved μ (Expr.new s e es) (.new s' e' es') :=
  ⟨by rw [← hs.eq, ← he.eq, ← hes.eq]; exact congrArg _ (Relabel.exprs_eq_map ..)⟩
instance : Moved μ (Expr.member s e n) (.member s' e' n) := ⟨by rw [← hs.eq, ← he.eq]; rfl⟩
instance : Moved μ (Expr.index s e e1) (.index s' e' e1') :=
  ⟨by rw [← hs.eq, ← he.eq, ← he1.eq]; rfl⟩
instance {op : UnaryOp} : Moved μ (Expr.unary s op e) (.unary s' op e') :=
  ⟨by rw [← hs.eq, ← he.eq]; rfl⟩
instance {op : UpdateOp} : Moved μ (Expr.update s op b e) (.update s' op b e') :=
  ⟨by rw [← hs.eq, ← he.eq]; rfl⟩
instance : Moved μ (Expr.conditional s e e1 e2) (.conditional s' e' e1' e2') :=
  ⟨by rw [← hs.eq, ← he.eq, ← he1.eq, ← he2.eq]; rfl⟩
instance {op : AssignOp} : Moved μ (Expr.assign s e op e1) (.assign s' e' op e1') :=
  ⟨by rw [← hs.eq, ← he.eq, ← he1.eq]; rfl⟩
instance : Moved μ (Expr.sequence s es) (.sequence s' es') :=
  ⟨by rw [← hs.eq, ← hes.eq]; exact congrArg _ (Relabel.exprs_eq_map ..)⟩
instance : Moved μ (Expr.paren s e) (.paren s' e') := ⟨by rw [← hs.eq, ← he.eq]; rfl⟩

instance : Moved μ (Property.mk s n e b) (.mk s' n e' b) :=
  ⟨by rw [← hs.eq, ← he.eq]; rfl⟩
instance : Moved μ (Declarator.mk s n o) (.mk s' n o') :=
  ⟨by rw [← hs.eq, ← ho.eq]; cases o <;> rfl⟩

instance : Moved μ (Stmt.declare s q ds) (.declare s' q ds') :=
  ⟨by rw [← hs.eq, ← hds.eq]; exact congrArg _ (Relabel.declarators_eq_map ..)⟩
instance : Moved μ (Stmt.function s n names xs) (.function s' n names' xs') :=
  ⟨by rw [← hs.eq, ← hxs.eq, hnames.list_eq fun _ => rfl]; exact congrArg _ (Relabel.stmts_eq_map ..)⟩
instance : Moved μ (Stmt.ret s o) (.ret s' o') := ⟨by rw [← hs.eq, ← ho.eq]; cases o <;> rfl⟩
instance : Moved μ (Stmt.ifElse s e x y) (.ifElse s' e' x' y') :=
  ⟨by rw [← hs.eq, ← he.eq, ← hx.eq, ← hy.eq]; cases y <;> rfl⟩
instance : Moved μ (Stmt.whileLoop s e x) (.whileLoop s' e' x') :=
  ⟨by rw [← hs.eq, ← he.eq, ← hx.eq]; rfl⟩
instance : Moved μ (Stmt.forLoop s y o o1 x) (.forLoop s' y' o' o1' x') :=
  ⟨by rw [← hs.eq, ← hy.eq, ← ho.eq, ← ho1.eq, ← hx.eq]; cases y <;> cases o <;> cases o1 <;> rfl⟩
instance : Moved μ (Stmt.forOf s q n e x) (.forOf s' q n e' x') :=
  ⟨by rw [← hs.eq, ← he.eq, ← hx.eq]; rfl⟩
instance : Moved μ (Stmt.break_ s) (.break_ s') := ⟨by rw [← hs.eq]; rfl⟩
instance : Moved μ (Stmt.continue_ s) (.continue_ s') := ⟨by rw [← hs.eq]; rfl⟩
instance : Moved μ (Stmt.throw_ s e) (.throw_ s' e') := ⟨by rw [← hs.eq, ← he.eq]; rfl⟩
instance : Moved μ (Stmt.block s xs) (.block s' xs') :=
  ⟨by rw [← hs.eq, ← hxs.eq]; exact congrArg _ (Relabel.stmts_eq_map ..)⟩
instance : Moved μ (Stmt.expr s e) (.expr s' e') := ⟨by rw [← hs.eq, ← he.eq]; rfl⟩
instance : Moved μ (Stmt.empty s) (.empty s') := ⟨by rw [← hs.eq]; rfl⟩

end Trees

namespace Rules

variable {r r' : Rules}

instance (unread : Nat) : Alike μ (recover unread) (recover unread) := by
  unfold recover
  refine .get fun ds c => ?_
  rw [show (c.changed μ ds).rest.length = c.rest.length from length_map ..]
  dsimp only
  infer_instance

section Statement

variable [hs : Alike μ r.statement r'.statement]

instance (stop : Kind) : Alike μ (r.statement? stop) (r'.statement? stop) := by
  unfold statement?
  refine .get fun ds c => alike_tryCatch inferInstance ?_ fun e he => ?_
  · rw [show (c.changed μ ds).rest.length = c.rest.length from length_map ..]
    dsimp only
    infer_instance
  · cases e with
    | misplaced => exact absurd rfl he
    | _ => rfl

instance (stop : Kind) (acc : List Stmt) :
    Alike μ (r.statementPass stop acc) (r'.statementPass stop (move μ acc)) := by
  unfold statementPass
  refine .bind inferInstance fun _ => .ite inferInstance <| .bind inferInstance fun s => ?_
  cases s <;> exact .pure rfl

instance (stop : Kind) : Alike μ (r.statements stop) (r'.statements stop) := by
  unfold statements; infer_instance

instance : Alike μ r.body r'.body := by unfold body; infer_instance
instance : Alike μ r.block r'.block := by unfold block; infer_instance

end Statement

theorem isArrowStart_map {ts : List Token} : isArrowStart (ts.map μ.token) = isArrowStart ts := by
  have hafter (depth : Nat) (ts : List Token) :
      arrowAfter depth (ts.map μ.token) = arrowAfter depth ts := by
    induction ts generalizing depth with
    | nil => rfl
    | cons t ts ih =>
      rw [map_cons]
      unfold arrowAfter
      rw [Change.kind_token]
      have hhead : ((ts.map μ.token).head?.any fun next => next.kind = .fatArrow) =
          ts.head?.any fun next => next.kind = .fatArrow := by
        cases ts <;> rfl
      split <;> simp only [ih, hhead]
  cases ts with
  | nil => rfl
  | cons t ts =>
    have hcons := hafter 0 (t :: ts)
    rw [map_cons] at hcons ⊢
    unfold isArrowStart
    dsimp only
    rw [hcons]
    cases ts <;> rfl

instance : Alike μ params params := by unfold params; infer_instance

theorem emptySteps_map {following : List Token} (hne : (Steps.split following).isEmpty = false) :
    emptySteps (μ.split (Steps.split following)) (following.map μ.token) =
      (emptySteps (Steps.split following) following).map μ.diagnostic := by
  unfold emptySteps
  rw [μ.emptySteps_split, μ.bounds_split, map_map]
  refine map_congr_left fun place hplace => ?_
  obtain ⟨start, t, hstart, hcomma, -⟩ := Steps.comma_of_emptySteps hplace hne
  have hstart : (((Steps.split following).bounds 0).map Prod.fst).getD place 0 = start := by
    rw [getD_eq_getElem?_getD, hstart]
    rfl
  dsimp only [Function.comp]
  rw [hstart, getElem?_map, hcomma]
  rfl

section Assignment

variable [ha : Alike μ r.assignment r'.assignment]

instance (acc : List Expr) : Alike μ (r.sequencePass acc) (r'.sequencePass (move μ acc)) := by
  unfold sequencePass; infer_instance

instance : Alike μ r.expression r'.expression := by unfold expression; infer_instance
instance : Alike μ r.wholeStep r'.wholeStep := by unfold wholeStep; infer_instance

/-- A step is read on its own, behind the log so far. -/
instance (tokens : List Token) : Alike μ (r.step tokens) (r'.step (tokens.map μ.token)) where
  run ds c := by
    cases tokens with
    | nil => exact .inr rfl
    | cons t ts =>
      have hlast : ((t :: ts).map μ.token).getLastD (μ.token t) = μ.token ((t :: ts).getLastD t) := by
        rw [getLastD_eq_getLast?, getLastD_eq_getLast?, getLast?_map, Option.getD_map]
      have hstart : Cursor.mk (((t :: ts).map μ.token) ++
            [⟨.endMark, "", (((t :: ts).map μ.token).getLastD (μ.token t)).span⟩]) (μ.token t) [] false
            (c.changed μ ds).log =
          (Cursor.mk ((t :: ts) ++ [⟨.endMark, "", ((t :: ts).getLastD t).span⟩]) t [] false
            c.log).changed μ [] := by
        rw [hlast]
        simp [Cursor.changed, Change.token]
      unfold step
      rw [map_cons]
      dsimp only
      rw [← map_cons, hstart]
      generalize Cursor.mk ((t :: ts) ++ [⟨.endMark, "", ((t :: ts).getLastD t).span⟩]) t [] false
        c.log = start
      have hkeep (sub : Cursor) :
          { c.changed μ ds with
            diagnostics := (c.changed μ ds).diagnostics ++ (sub.changed μ []).diagnostics
            log := (sub.changed μ []).log } =
          Cursor.changed { c with diagnostics := c.diagnostics ++ sub.diagnostics, log := sub.log }
            μ ds := by
        simp [Cursor.changed]
      have hwhole : Alike μ r.wholeStep r'.wholeStep := inferInstance
      rcases hwhole.run [] start with ⟨e, sub, he, hne⟩ | heq
      · rw [he]
        cases e with
        | misplaced => exact absurd rfl hne
        | _ => exact .inl ⟨_, _, rfl, nofun⟩
      · rw [heq]
        cases r.wholeStep start with
        | ok e sub =>
          right
          dsimp only [changed]
          rw [hkeep, show (sub.changed μ []).faulty = sub.faulty from rfl]
          cases sub.faulty <;> rfl
        | error e sub =>
          cases e with
          | misplaced => right; dsimp only [changed]; rw [hkeep]; rfl
          | _ => exact .inl ⟨_, _, rfl, nofun⟩

instance alike_stepList (steps : List (List Token)) :
    Alike μ (r.stepList steps) (r'.stepList (steps.map (List.map μ.token))) := by
  induction steps with
  | nil => exact .pure rfl
  | cons tokens later ih =>
    cases tokens with
    | nil => exact ih
    | cons t ts =>
      refine .bind (inferInstanceAs (Alike μ (r.step (t :: ts)) _)) fun e => ?_
      cases e with
      | none => exact .bind ih fun _ => .pure rfl
      | some e => exact .bind ih fun _ => .pure rfl

instance (equals : Token) (following : List Token) :
    Alike μ (r.readSteps equals following (Steps.split following))
      (r'.readSteps (μ.token equals) (following.map μ.token)
        (Steps.split (following.map μ.token))) := by
  rw [show Steps.split (following.map μ.token) = _ from μ.splitFrom_map {}]
  unfold readSteps
  rw [show Steps.splitFrom {} following = Steps.split following from rfl, μ.isEmpty_split]
  cases hempty : (Steps.split following).isEmpty with
  | true => exact .bind (alike_note [_]) fun _ => .pure rfl
  | false =>
    have hholes := @emptySteps_map μ _ hempty
    refine .bind (hholes ▸ alike_note _) fun _ => .bind (alike_stepList _) fun p => ?_
    rw [hholes, μ.codes_diagnostics]
    exact inferInstanceAs (Alike μ (pure (p.1, _ ++ p.2)) (pure ((move μ p).1, _ ++ (move μ p).2)))

/-- What became of a step binding, at another place. -/
instance : Placed Outcome where
  move μ
    | .accepted head span index steps =>
      .accepted (μ.head head) (μ.span span) index (move μ steps)
    | .rejected form span index => .rejected form (μ.span span) index

instance (form : Form) (index : Nat) [h : Moved μ s s'] :
    Moved μ (Outcome.rejected form s index) (.rejected form s' index) :=
  ⟨by rw [← h.eq]; rfl⟩

instance (head : Head) (index : Nat) [h : Moved μ s s'] [hs : Moved μ steps steps'] :
    Moved μ (Outcome.accepted head s index steps)
      (.accepted (μ.head head) s' index steps') :=
  ⟨by rw [← h.eq, ← hs.eq]; rfl⟩

theorem rest_split (following : List Token) :
    (Steps.split (following.map μ.token)).rest = (Steps.split following).rest.map μ.token :=
  congrArg Steps.Split.rest (μ.splitFrom_map {})

theorem errors_head (head : Head) :
    (μ.head head).errors.map Diagnostic.code = head.errors.map Diagnostic.code :=
  μ.codes_diagnostics head.errors

instance (index : Nat) (codes : List Code) :
    Alike μ (edit fun log => log.rejectWith index codes)
      (edit fun log => log.rejectWith index codes) :=
  alike_edit fun _ => μ.agrees_rejectWith

instance (head : Head) : Moved μ head.keyword.span (μ.head head).keyword.span := ⟨rfl⟩

omit ha in
instance (head : Head) (following : List Token) (index : Nat) :
    Alike μ (abandon head following index)
      (abandon (μ.head head) (following.map μ.token) index) := by
  unfold abandon
  rw [rest_split, errors_head, show (μ.head head).form = head.form from rfl]
  infer_instance

omit ha in
instance (head : Head) (index : Nat) {codes codes' : List Code} [hs : Moved μ steps steps']
    [hc : Moved μ codes codes'] :
    Alike μ (conclude head index steps codes)
      (conclude (μ.head head) index steps' codes') := by
  have hadvance : Alike μ (edit fun log => log.advance index .parsed)
      (edit fun log => log.advance index .parsed) := alike_edit fun _ => μ.agrees_advance
  have hreject (code : Code) : Alike μ
      (edit fun log => log.rejectAll code (Tree.constructs steps))
      (edit fun log => log.rejectAll code (Tree.constructs steps')) := by
    have heq : Tree.constructs steps' = (Tree.constructs steps) := by
      rw [← hs.eq]
      exact (congrArg _ (Relabel.exprs_eq_map ..).symm).trans (Relabel.constructs_exprs ..)
    rw [heq]
    exact alike_edit fun _ => μ.agrees_rejectAll
  unfold conclude
  rw [show (μ.head head).form = head.form from rfl, hc.list_eq fun _ => rfl]
  dsimp only
  infer_instance

instance alike_finish (head : Head) (equals : Token) (following : List Token) (index : Nat) :
    Alike μ (r.finish head equals following index)
      (r'.finish (μ.head head) (μ.token equals) (following.map μ.token) index) := by
  unfold finish
  rw [rest_split, errors_head]
  exact .ite inferInstance <| .bind inferInstance fun p => inferInstanceAs (Alike μ (do
    skipTo _
    conclude head index p.1 (_ ++ p.2)) (do
    skipTo _
    conclude _ _ (move μ p).1 (_ ++ (move μ p).2)))

instance (only : Bool) : Alike μ (r.construct only) (r'.construct only) where
  run ds c := by
    rw [construct_eq, construct_eq]
    have hnext : (c.changed μ ds).next = μ.token c.next := next_changed c ds
    have hrest : (c.changed μ ds).rest = c.rest.map μ.token := rfl
    have hread : Head.read only (c.changed μ ds).next (c.changed μ ds).rest.tail =
        μ.head (Head.read only c.next c.rest.tail) := by
      rw [hnext, hrest, ← map_tail, μ.read_map]
    dsimp only
    rw [hread, hnext, hrest]
    generalize Head.read only c.next c.rest.tail = head
    have hequals : ((c.rest.map μ.token)[(μ.head head).length - 1]?).getD (μ.token c.next) =
        μ.token ((c.rest[head.length - 1]?).getD c.next) := by
      rw [getElem?_map, Option.getD_map]
      rfl
    have hfinish := (@alike_finish μ r r' _ head
      ((c.rest[head.length - 1]?).getD c.next) (c.rest.drop head.length) c.log.size).run ds
      { c with
        log := c.log.enter head.form head.span (head.binding.map Token.text)
        diagnostics := c.diagnostics ++ head.errors }
    have hbinding : ((μ.head head).binding.map Token.text) = head.binding.map Token.text := by
      rw [show (μ.head head).binding = head.binding.map μ.token from rfl, Option.map_map]
      rfl
    rw [hequals, hbinding, ← map_drop, show (c.changed μ ds).log = μ.log c.log from rfl, μ.size_log,
      show (μ.head head).span = μ.span head.span from rfl, μ.enter_log]
    have hstart : Cursor.changed { c with
          log := c.log.enter head.form head.span (head.binding.map Token.text)
          diagnostics := c.diagnostics ++ head.errors } μ ds =
        { c.changed μ ds with
          log := μ.log (c.log.enter head.form head.span (head.binding.map Token.text))
          diagnostics := (c.changed μ ds).diagnostics ++ (μ.head head).errors } := by
      simp [Cursor.changed, Change.head]
    rw [hstart] at hfinish
    exact hfinish

theorem bindingName_head (head : Head) : bindingName (μ.head head) = bindingName head := by
  rw [bindingName, show (μ.head head).binding = head.binding.map μ.token from rfl, Option.map_map]
  rfl

instance : Alike μ r.constructExpr r'.constructExpr := by
  unfold constructExpr
  refine .bind inferInstance fun o => ?_
  cases o with
  | accepted head span index steps =>
    refine .pure ?_
    rw [bindingName_head]
    exact congrArg (Expr.steps _ _ _ · _ _) (Relabel.exprs_eq_map ..)
  | rejected form span index => exact .pure rfl

instance : Alike μ r.constructStmt r'.constructStmt := by
  unfold constructStmt
  refine .bind inferInstance fun o => ?_
  cases o with
  | accepted head span index steps =>
    dsimp only [Placed.move]
    rw [bindingName_head, ← Relabel.exprs_eq_map,
      show (μ.head head).result = head.result.map μ.token from rfl]
    cases head.result with
    | none => exact .bind inferInstance fun _ => .pure rfl
    | some name => exact .pure rfl
  | rejected form span index =>
    exact .ite (.bind inferInstance fun _ => .ite (.bind inferInstance fun _ => .pure rfl)
      (.pure rfl)) (.pure rfl)

instance : Alike μ r.property r'.property := by unfold property; dsimp only; infer_instance
instance : Alike μ r.object r'.object := by unfold object; infer_instance
instance : Alike μ r.array r'.array := by unfold array; infer_instance

instance (acc : List String × List Expr) :
    Alike μ (r.templatePass acc) (r'.templatePass (move μ acc)) := by
  unfold templatePass; infer_instance

instance : Alike μ r.template r'.template :=
  .bind inferInstance fun t => .bind inferInstance fun p =>
    inferInstanceAs (Alike μ (do return Expr.template (← spanFrom t.span) p.1 p.2)
      (do return Expr.template (← spanFrom (move μ t).span) (move μ p).1 (move μ p).2))
instance : Alike μ r.args r'.args := by unfold args; infer_instance

instance (object : Expr) : Alike μ (r.index object) (r'.index (move μ object)) := by
  unfold index; infer_instance

instance (object : Expr) : Alike μ (member object) (member (move μ object)) := by
  unfold member; dsimp only; infer_instance

instance (e : Expr) : Alike μ (r.memberPass e) (r'.memberPass (move μ e)) := by
  unfold memberPass; infer_instance

instance (e : Expr) : Alike μ (r.callPass e) (r'.callPass (move μ e)) := by
  unfold callPass; infer_instance

instance (keyword name : Token) :
    Alike μ (r.initializer keyword name) (r'.initializer (move μ keyword) (move μ name)) := by
  unfold initializer; infer_instance

instance (keyword : Token) : Alike μ (r.declarator keyword) (r'.declarator (move μ keyword)) := by
  unfold declarator; infer_instance

instance (keyword : Token) (acc : List Declarator) :
    Alike μ (r.declaratorPass keyword acc) (r'.declaratorPass (move μ keyword) (move μ acc)) := by
  unfold declaratorPass; infer_instance

instance : Alike μ r.declaration r'.declaration := by unfold declaration; infer_instance
instance : Alike μ r.test r'.test := by unfold test; infer_instance
instance : Alike μ r.returnStmt r'.returnStmt := by unfold returnStmt; infer_instance
instance (stop : Kind) : Alike μ (r.optional stop) (r'.optional stop) := by
  unfold optional; infer_instance

instance : Alike μ r.forInit r'.forInit := by
  unfold forInit
  refine .bind inferInstance fun _ => .ite inferInstance <| .get fun ds c => ?_
  dsimp only
  rw [show isMarker (c.changed μ ds).rest = isMarker c.rest from μ.isMarker_map]
  infer_instance

end Assignment

section Operators

instance (t : Token) (operand : Expr) :
    Alike μ (applyPrefixed t operand) (applyPrefixed (move μ t) (move μ operand)) := by
  unfold applyPrefixed
  rw [kind_move, isTarget_move]
  dsimp only
  cases UpdateOp.ofKind? t.kind <;> infer_instance

instance (acc : List Token) : Alike μ (operatorPass acc) (operatorPass (move μ acc)) := by
  unfold operatorPass; infer_instance

instance (ts : List Token) (e : Expr) :
    Alike μ (applyAll ts e) (applyAll (move μ ts) (move μ e)) := by
  induction ts generalizing e with
  | nil => exact .pure rfl
  | cons t ts ih => exact .bind inferInstance ih

theorem attach_expr (op : BinaryOp) (right e : Expr) :
    μ.label.expr (Chain.attach op right e) =
      Chain.attach op (μ.label.expr right) (μ.label.expr e) := by
  have hnode (l : Expr) (o : BinaryOp) (r : Expr) :
      μ.label.expr (Chain.node l o r) = Chain.node (μ.label.expr l) o (μ.label.expr r) := by
    rw [Chain.node, Chain.node, Relabel.expr, Relabel.span_expr, Relabel.span_expr]
    exact congrArg (Expr.binary · _ _ _) (μ.through ..)
  fun_induction Chain.attach op right e with
  | case1 span l o r hlt ih => rw [hnode, ih, Relabel.expr, Chain.attach, if_pos hlt]
  | case2 span l o r hlt => rw [hnode, Relabel.expr, Chain.attach, if_neg hlt]
  | case3 e hne =>
    rw [hnode, Chain.attach.eq_2]
    intro span l o r he
    cases e with
    | binary => exact hne _ _ _ _ rfl
    | foreign c => rw [Relabel.expr] at he; split at he <;> cases he
    | _ => cases he

instance {first first' : Expr} {more more' : List (BinaryOp × Expr)} [hf : Moved μ first first']
    [hm : Moved μ more more'] : Moved μ (Chain.group first more) (Chain.group first' more') where
  eq := by
    rw [← hf.eq, ← hm.eq]
    unfold Chain.group
    clear hf hm
    induction more generalizing first with
    | nil => rfl
    | cons link more ih => rw [foldl_cons, ih]; exact congrArg (List.foldl _ · _) (attach_expr ..)

end Operators

section Expressions

variable [hs : Alike μ r.statement r'.statement]

instance : Alike μ r.functionExpr r'.functionExpr := by unfold functionExpr; infer_instance
instance : Alike μ r.functionDecl r'.functionDecl := by unfold functionDecl; infer_instance

variable [ha : Alike μ r.assignment r'.assignment]

instance : Alike μ r.arrow r'.arrow := by unfold arrow; infer_instance

instance : Alike μ r.primary r'.primary := by
  unfold primary
  refine .bind inferInstance fun t => ?_
  rw [kind_move]
  split
  case h_13 => exact alike_fail _
  all_goals infer_instance

instance : Alike μ r.new r'.new := by unfold new; infer_instance
instance : Alike μ r.callMember r'.callMember := by unfold callMember; infer_instance

instance : Alike μ r.postfixed r'.postfixed := by
  unfold postfixed
  refine .bind inferInstance fun e => .bind inferInstance fun t => ?_
  rw [kind_move, isTarget_move]
  cases UpdateOp.ofKind? t.kind <;> infer_instance

instance : Alike μ r.unary r'.unary := by unfold unary; infer_instance

instance (acc : List (BinaryOp × Expr)) : Alike μ (r.chainPass acc) (r'.chainPass (move μ acc)) := by
  unfold chainPass
  refine .bind inferInstance fun t => ?_
  rw [kind_move]
  cases BinaryOp.ofKind? t.kind <;> infer_instance

instance : Alike μ r.binary r'.binary := by unfold binary; infer_instance
instance : Alike μ r.conditional r'.conditional := by unfold conditional; infer_instance

omit hs in
instance (left : Expr) : Alike μ (r.assigned left) (r'.assigned (move μ left)) := by
  unfold assigned
  refine .bind inferInstance fun t => ?_
  rw [kind_move, isTarget_move]
  cases AssignOp.ofKind? t.kind <;> infer_instance

instance : Alike μ r.assignmentRule r'.assignmentRule := by
  rw [assignmentRule_eq, assignmentRule_eq]
  refine .get fun ds c => ?_
  rw [show isMarker (c.changed μ ds).rest = isMarker c.rest from μ.isMarker_map,
    show isArrowStart (c.changed μ ds).rest = isArrowStart c.rest from isArrowStart_map]
  infer_instance

instance : Alike μ r.ifStmt r'.ifStmt := by unfold ifStmt; infer_instance
instance : Alike μ r.whileStmt r'.whileStmt := by unfold whileStmt; infer_instance
instance : Alike μ r.forStmt r'.forStmt := by unfold forStmt; infer_instance

instance : Alike μ r.statementRule r'.statementRule := by
  unfold statementRule
  refine .bind inferInstance fun t => .ite (.get fun ds c => ?_) ?_
  · rw [show isMarker (c.changed μ ds).rest = isMarker c.rest from μ.isMarker_map]
    infer_instance
  · rw [kind_move]
    split <;> infer_instance

end Expressions
end Rules

/-- All rules read the same tokens alike at every place, and with every greater bound. -/
theorem rules_alike (μ : Change) (h : n ≤ m) :
    Alike μ (rules n).assignment (rules m).assignment ∧
      Alike μ (rules n).statement (rules m).statement := by
  induction n generalizing m with
  | zero => exact ⟨⟨fun _ _ => .inl ⟨_, _, rfl, nofun⟩⟩, ⟨fun _ _ => .inl ⟨_, _, rfl, nofun⟩⟩⟩
  | succ n ih =>
    obtain ⟨m, rfl⟩ : ∃ k, m = k + 1 := ⟨m - 1, by omega⟩
    obtain ⟨ha, hs⟩ := ih (Nat.le_of_succ_le_succ h)
    exact ⟨inferInstanceAs (Alike μ (rules n).assignmentRule (rules m).assignmentRule),
      inferInstanceAs (Alike μ (rules n).statementRule (rules m).statementRule)⟩

theorem move_stmts (ss : List Stmt) : move μ ss = μ.label.stmts ss :=
  (Relabel.stmts_eq_map ..).symm

theorem statements_alike (μ : Change) (h : n ≤ m) (stop : Kind) :
    Alike μ ((rules n).statements stop) ((rules m).statements stop) :=
  have := (rules_alike μ h).2
  inferInstance

end StepBinding.Grammar
