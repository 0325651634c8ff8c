import StepBinding.Proofs.Machine.Library

/-! The rules for expressions evaluate the parts of an expression in the environment that they are
given, and pass the values on to the library. So they keep what a logic is about, as long as the
evaluator for the parts does, and reading and storing names. Functions and step bindings are left to
each logic: their code runs in environments of its own. -/

namespace StepBinding.Machine

open List

variable {e : Expr} {this : Value}

/-- The parts of an expression that are evaluated in its environment; `this` is a name. -/
def operands : Expr → List Expr
  | .this span => [.identifier span "this"]
  | .template _ _ es | .array _ es | .sequence _ es => es
  | .object _ ps => ps.map fun | .mk _ _ e _ => e
  | .call _ f args | .new _ f args => f :: args
  | .paren _ e | .member _ e _ | .unary _ _ e | .update _ _ _ e => [e]
  | .index _ l r | .binary _ l _ r | .assign _ l _ r => [l, r]
  | .conditional _ t c a => [t, c, a]
  | _ => []

/-- An expression whose code runs in an environment of its own, or not at all. -/
def isApart : Expr → Bool
  | .function .. | .arrow .. | .arrowBlock .. | .steps .. | .rejected .. => true
  | _ => false

/-- Expressions that may be evaluated, with evaluators for them and for their lowered code. -/
structure Logic.Code (L : Logic) (r r' : Evaluator) where
  Fits : L.Stage → Nat → Expr → Prop
  mono : ∀ {s t env e}, L.Leads s t → Fits s env e → Fits t env e
  operand : ∀ {s env e}, Fits s env e → ∀ e' ∈ operands e, Fits s env e'
  /-- What lowering makes of a rejected expression does not matter. -/
  rejected : ∀ {α : Type} [Carrier α] [Holder α] {s env span form i} {x y y' : Run α},
    Fits s env (.rejected span form i) → L.Judge s x y → L.Judge s x y'
  read : ∀ {s env span name}, Fits s env (.identifier span name) →
    L.Judge s (readName env name) (readName env name)
  store : ∀ {s env span name} {v : Value}, Fits s env (.identifier span name) → L.Fine s v →
    L.Judge s (assignName env name v) (assignName env name (lower v))
  expr : ∀ {s env e}, Fits s env e → L.Judge s (r.expr e env) (r'.expr (Lower.expr .es2015 e) env)
  call : ∀ s, L.Calls s r.call r'.call

variable {L : Logic} {s t : L.Stage} {r r' : Evaluator} {env : Nat} {v : Value} {args : List Value}

section Items

theorem judge_itemsOf (hv : L.Fine s v) : L.Judge s (itemsOf v) (itemsOf (lower v)) := by
  cases v with
  | string text =>
    have h : L.Judge s (pure (.fixed (letters text)) : Run Items)
        (pure (.fixed (lower (letters text)))) := .pure (every_texts _ text.toList)
    rwa [show lower (letters text) = letters text from lower_texts _ text.toList] at h
  | array a => exact .pure (a := Items.live a) trivial
  | _ => exact .bind_plain (judge_displayOf _) fun _ => .fail nofun

theorem judge_itemAt {items : Items} (h : L.Fine s items) (i : Nat) :
    L.Judge s (itemAt items i) (itemAt (lower items) i) := by
  cases items with
  | fixed vs =>
    change L.Judge s (pure vs[i]?) (pure (lower vs)[i]?)
    rw [show (lower vs)[i]? = lower vs[i]? from getElem?_map]
    exact .pure fun v hv => h v (mem_of_getElem? hv)
  | live a =>
    refine .get_bind fun _ m _ hm => ?_
    rw [arrayOf_lower, show (lower (m.arrayOf a))[i]? = lower (m.arrayOf a)[i]? from
      Array.getElem?_map]
    exact .pure fun v hv => every_arrayOf hm a v (Array.mem_of_getElem? hv)

end Items

namespace Logic.Code

variable (C : L.Code r r')

section Lists

variable {es : List Expr}

theorem judge_values (h : ∀ e ∈ es, C.Fits s env e) :
    L.Judge s (values r env es) (values r' env (Lower.exprs .es2015 es)) := by
  induction es generalizing s with
  | nil => exact .pure every_nil
  | cons e es ih =>
    obtain ⟨he, hes⟩ := forall_mem_cons.mp h
    refine (C.expr he).bind fun t v hle hv => ?_
    refine (ih fun e he => C.mono hle (hes e he)).bind fun u vs hle' hvs => ?_
    exact .pure (every_cons.mpr ⟨hv.mono hle', hvs⟩)

theorem judge_lastValue (h : ∀ e ∈ es, C.Fits s env e) (hv : L.Fine s v) :
    L.Judge s (lastValue r env v es) (lastValue r' env (lower v) (Lower.exprs .es2015 es)) := by
  induction es generalizing s v with
  | nil => exact .pure hv
  | cons e es ih =>
    obtain ⟨he, hes⟩ := forall_mem_cons.mp h
    exact (C.expr he).bind fun t v hle hv => ih (fun e he => C.mono hle (hes e he)) hv

theorem judge_templateText (h : ∀ e ∈ es, C.Fits s env e) (quasis : List String) :
    L.Judge s (templateText r env es quasis) (templateText r' env (Lower.exprs .es2015 es) quasis) := by
  induction es generalizing s quasis with
  | nil => exact .plain _
  | cons e es ih =>
    obtain ⟨he, hes⟩ := forall_mem_cons.mp h
    cases quasis with
    | nil => exact .plain _
    | cons quasi quasis =>
      refine (C.expr he).bind fun t v hle _ => .bind_plain (judge_textOf v) fun _ => ?_
      exact .bind_plain (ih (fun e he => C.mono hle (hes e he)) quasis) fun _ => .plain _

theorem judge_fieldValues {ps : List Property} {fs : Fields}
    (h : ∀ e ∈ ps.map fun | .mk _ _ e _ => e, C.Fits s env e) (hfs : L.Fine s fs) :
    L.Judge s (fieldValues r env ps fs)
      (fieldValues r' env (Lower.properties .es2015 ps) (lower fs)) := by
  induction ps generalizing s fs with
  | nil => exact .pure hfs
  | cons p ps ih =>
    obtain ⟨span, key, e, shorthand⟩ := p
    obtain ⟨he, hes⟩ := forall_mem_cons.mp h
    refine (C.expr he).bind fun t v hle hv => ?_
    rw [put_lower]
    exact ih (fun e he => C.mono hle (hes e he)) (every_put (hfs.mono hle) key hv)

end Lists

section Calls

include C

theorem judge_callStep (mode mode' : Mode) {f : Callable} (hf : L.Fine s f) (hargs : L.Fine s args)
    (hclosure : ∀ c, f = .closure c → L.Judge s (callClosure mode r c this args)
      (callClosure mode' r' (lower c) (lower this) (lower args))) :
    L.Judge s (callStep mode r f this args)
      (callStep mode' r' (lower f) (lower this) (lower args)) := by
  cases f with
  | closure c => exact hclosure c rfl
  | builtin f => exact judge_builtin f args
  | arrayMethod a method => exact judge_arrayMethod (C.call s) a method hargs
  | stringMethod text method => exact judge_stringMethod text method args
  | toFixed n =>
    change L.Judge s (do return .string (← Machine.known (n.fixed (← intArg (arg args 0)))))
      (do return Value.string (← Machine.known (n.fixed (← intArg (arg (lower args) 0)))))
    rw [arg_lower]
    exact .bind_plain (judge_intArg _) fun _ => .bind_plain (.known _) fun _ => .pure trivial
  | toText n => exact .bind_plain (.known _) fun _ => .pure trivial
  | callOf f =>
    change L.Judge s (r.call f (arg args 0) args.tail)
      (r'.call (lower f) (arg (lower args) 0) (lower args).tail)
    rw [arg_lower, show (lower args).tail = lower args.tail from map_tail.symm]
    exact C.call s _ _ _ _ (L.refl s) hf (every_arg hargs 0)
      fun v hv => hargs v (mem_of_mem_tail hv)
  | applyOf f =>
    refine .get_bind fun t m hle hm => ?_
    rw [arg_lower, arg_lower, argumentList_lower]
    cases h : m.argumentList (arg args 1) with
    | none => exact .throw trivial
    | some list =>
      exact C.call s t f _ _ hle (Logic.Fine.mono (a := f) hf hle)
        (Logic.Fine.mono (every_arg hargs 0) hle) (every_argumentList hm _ _ h)

theorem judge_callValue (hv : L.Fine s v) (hthis : L.Fine s this) (hargs : L.Fine s args) :
    L.Judge s (callValue r v this args) (callValue r' (lower v) (lower this) (lower args)) := by
  cases v with
  | function id f => exact C.call s s f this args (L.refl s) hv hthis hargs
  | _ => exact .bind_plain (judge_displayOf _) fun _ => .fail nofun

theorem judge_callee (h : C.Fits s env e) :
    L.Judge s (callee r env e) (callee r' env (Lower.expr .es2015 e)) := by
  have read {t : L.Stage} (this key : Value) (hthis : L.Fine t this) :
      L.Judge t (do return (← readProperty this key, this))
        (do return (← readProperty (lower this) (lower key), lower this)) :=
    (judge_readProperty hthis key).bind fun _ f hle hf => .pure (a := (f, this)) ⟨hf, hthis.mono hle⟩
  have hparts := C.operand h
  cases e with
  | member _ o name =>
    exact (C.expr (hparts o (.head _))).bind fun _ this _ hthis => read this (.string name) hthis
  | index _ o i =>
    refine (C.expr (hparts o (.head _))).bind fun t this hle hthis => ?_
    refine (C.expr (C.mono hle (hparts i (.tail _ (.head _))))).bind fun u key hle' _ => ?_
    exact read this key (hthis.mono hle')
  | _ => exact (C.expr h).bind fun _ f _ hf => .pure (a := (f, Value.undefined)) ⟨hf, trivial⟩

theorem judge_construct (hv : L.Fine s v) (hargs : L.Fine s args) :
    L.Judge s (construct r v args) (construct r' (lower v) (lower args)) := by
  have refused (v : Value) : L.Judge s (do fail (.notConstructor (← displayOf v)) : Run Value)
      (do fail (.notConstructor (← displayOf (lower v)))) :=
    .bind_plain (judge_displayOf v) fun _ => .fail nofun
  cases v with
  | function id f =>
    cases f with
    | builtin f => exact .ite (judge_builtin f args) (refused _)
    | closure c =>
      refine .ite (refused (.function id (.closure c))) ?_
      refine (judge_newObject every_nil).bind fun t this hle hthis => ?_
      refine Logic.Judge.bind (C.call s t (.closure c) this args hle
        (Logic.Fine.mono (a := Callable.closure c) hv hle) hthis (hargs.mono hle)) fun u w hle' _ => ?_
      cases w with
      | object o => exact .pure trivial
      | array a => exact .pure trivial
      | _ => exact .pure (hthis.mono hle')
    | _ => exact refused (.function id _)
  | _ => exact refused _

end Calls

section Operations

theorem judge_assign {target : Expr} (h : C.Fits s env target) (hv : L.Fine s v) :
    L.Judge s (assign r env target v) (assign r' env (Lower.expr .es2015 target) (lower v)) := by
  have hparts := C.operand h
  cases target with
  | identifier => exact C.store h hv
  | member _ o name =>
    exact (C.expr (hparts o (.head _))).bind fun _ u hle _ =>
      judge_writeProperty u (.string name) (hv.mono hle)
  | index _ o i =>
    refine (C.expr (hparts o (.head _))).bind fun t u hle _ => ?_
    refine (C.expr (C.mono hle (hparts i (.tail _ (.head _))))).bind fun _ key hle' _ => ?_
    exact judge_writeProperty u key ((hv.mono hle).mono hle')
  | rejected => exact C.rejected h (y := fail .badTarget) (.fail nofun)
  | _ => exact .fail nofun

theorem judge_hasName (name : String) : L.Judge s (hasName env name) (hasName env name) := by
  refine .get_bind fun _ m _ _ => ?_
  rw [home?_lower]
  exact .plain _

theorem judge_unaryStep (op : UnaryOp) (h : C.Fits s env e) :
    L.Judge s (unaryStep r env op e) (unaryStep r' env op (Lower.expr .es2015 e)) := by
  have evaluated (op : UnaryOp) : L.Judge s (do unary op (← r.expr e env))
      (do unary op (← r'.expr (Lower.expr .es2015 e) env)) :=
    (C.expr h).bind fun _ v _ _ => judge_unary op v
  cases op with
  | typeof =>
    cases e with
    | identifier _ name =>
      refine .bind_plain (judge_hasName name) fun c => .ite ?_ (.pure trivial)
      exact (C.read h).bind fun _ v _ _ => judge_unary .typeof v
    | rejected => exact C.rejected h (evaluated .typeof)
    | _ => exact evaluated _
  | _ => exact evaluated _

theorem judge_binaryStep (op : BinaryOp) {left right : Expr} (hl : C.Fits s env left)
    (hr : C.Fits s env right) : L.Judge s (binaryStep r env left op right)
      (binaryStep r' env (Lower.expr .es2015 left) op (Lower.expr .es2015 right)) := by
  refine (C.expr hl).bind fun t v hle hv => ?_
  have other := C.expr (C.mono hle hr)
  cases op with
  | and => exact .bind_plain (judge_holds v) fun _ => .ite other (.pure hv)
  | or => exact .bind_plain (judge_holds v) fun _ => .ite (.pure hv) other
  | nullish =>
    dsimp only
    rw [isNullish_lower]
    exact .ite other (.pure hv)
  | _ => exact other.bind fun _ w hle' hw => judge_binary _ (hv.mono hle') hw

end Operations

theorem judge_exprStep (mode mode' : Mode) (h : C.Fits s env e)
    (hapart : isApart e → L.Judge s (exprStep mode r e env)
      (exprStep mode' r' (Lower.expr .es2015 e) env)) :
    L.Judge s (exprStep mode r e env) (exprStep mode' r' (Lower.expr .es2015 e) env) := by
  have hparts := C.operand h
  cases e with
  | number _ text => exact .bind_plain (.known _) fun _ => .pure trivial
  | string | boolean | null => exact .pure trivial
  | template _ quasis es =>
    cases quasis with
    | nil => exact .throw trivial
    | cons quasi quasis => exact .bind_plain (C.judge_templateText hparts quasis) fun _ => .pure trivial
  | this => exact C.read (hparts _ (.head _))
  | identifier => exact C.read h
  | paren _ e => exact C.expr (hparts e (.head _))
  | array _ es => exact (C.judge_values hparts).bind fun _ vs _ hvs => judge_newArray hvs
  | object _ ps =>
    exact (C.judge_fieldValues hparts every_nil).bind fun _ fs _ hfs => judge_newObject hfs
  | call _ f args =>
    obtain ⟨hf, hargs⟩ := forall_mem_cons.mp hparts
    refine (C.judge_callee hf).bind fun t p hle hp => ?_
    refine (C.judge_values fun e he => C.mono hle (hargs e he)).bind fun u vs hle' hvs => ?_
    exact C.judge_callValue (Logic.Fine.mono hp.1 hle') (Logic.Fine.mono hp.2 hle') hvs
  | new _ f args =>
    obtain ⟨hf, hargs⟩ := forall_mem_cons.mp hparts
    refine (C.expr hf).bind fun t v hle hv => ?_
    refine (C.judge_values fun e he => C.mono hle (hargs e he)).bind fun u vs hle' hvs => ?_
    exact C.judge_construct (hv.mono hle') hvs
  | member _ o name =>
    exact (C.expr (hparts o (.head _))).bind fun _ v _ hv => judge_readProperty hv (.string name)
  | index _ o i =>
    refine (C.expr (hparts o (.head _))).bind fun t v hle hv => ?_
    refine (C.expr (C.mono hle (hparts i (.tail _ (.head _))))).bind fun _ key hle' _ => ?_
    exact judge_readProperty (hv.mono hle') key
  | unary _ op e => exact C.judge_unaryStep op (hparts e (.head _))
  | update _ op leading target =>
    have htarget := hparts target (.head _)
    refine (C.expr htarget).bind fun t v hle _ => .bind_plain (judge_numberOf v) fun old => ?_
    refine .bind_plain (.known _) fun new => ?_
    exact .bind_plain (C.judge_assign (C.mono hle htarget) (v := .number new) trivial) fun _ =>
      .pure trivial
  | binary _ left op right =>
    exact C.judge_binaryStep op (hparts left (.head _)) (hparts right (.tail _ (.head _)))
  | conditional _ test consequent alternate =>
    refine (C.expr (hparts test (.head _))).bind fun t v hle _ =>
      .bind_plain (judge_holds v) fun c => ?_
    exact .ite (C.expr (C.mono hle (hparts consequent (.tail _ (.head _)))))
      (C.expr (C.mono hle (hparts alternate (.tail _ (.tail _ (.head _))))))
  | assign _ target op e =>
    have htarget := hparts target (.head _)
    have he := hparts e (.tail _ (.head _))
    have ending {t : L.Stage} (v : Value) (hle : L.Leads s t) (hv : L.Fine t v) : L.Judge t
        (do assign r env target v; return v)
        (do assign r' env (Lower.expr .es2015 target) (lower v); return lower v) :=
      (C.judge_assign (C.mono hle htarget) hv).bind fun _ _ hle' _ => .pure (hv.mono hle')
    unfold exprStep
    dsimp only [Lower.expr]
    cases op.operator? with
    | none => exact (C.expr he).bind fun _ v hle hv => ending v hle hv
    | some op =>
      refine (C.expr htarget).bind fun t u hle hu =>
        (C.expr (C.mono hle he)).bind fun t' w hle' hw => ?_
      exact (judge_binary op (hu.mono hle') hw).bind fun _ v hle'' hv =>
        ending v (L.trans (L.trans hle hle') hle'') hv
  | sequence _ es => exact C.judge_lastValue hparts (v := .undefined) trivial
  | function | arrow | arrowBlock | steps | rejected => exact hapart rfl
  | foreign => exact .fail nofun

end Logic.Code

end StepBinding.Machine
