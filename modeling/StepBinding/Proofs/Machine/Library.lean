import StepBinding.Proofs.Machine.Lowered

/-! The library does not look into code. It takes the functions that it is given and that are on the
machine, and it passes them on and calls them. So its operators, properties and functions keep
whatever sequences of basic computations keep, as long as the functions that they call back do. A
logic says what that is, for a computation on machines and another on their lowered images; to tell
something of single computations it does not look at the second one. -/

namespace StepBinding.Machine

open List

variable {γ : Type} {p q : Value → Value → Run Bool} {f : Callable}

/-- An exit that carries no value and says nothing about names. -/
def Exit.Bare : Exit → Prop
  | .error (.notDefined _) | .thrown .. | .returned _ => False
  | _ => True

/-- What is to be kept by computations, and what is known meanwhile of the functions of the program.
It may become more with every computation. Basic computations of the library keep environments. -/
structure Logic where
  Stage : Type
  Leads : Stage → Stage → Prop
  Known : Stage → Closure → Prop
  Judge : Stage → ∀ {α : Type} [Carrier α] [Holder α], Run α → Run α → Prop
  refl : ∀ s, Leads s s
  trans : ∀ {s t u}, Leads s t → Leads t u → Leads s u
  known : ∀ {s t}, Leads s t → ∀ c, Known s c → Known t c
  mono : ∀ {α : Type} [Carrier α] [Holder α] {s t} {x y : Run α}, Leads s t → Judge s x y →
    Judge t x y
  pure : ∀ {α : Type} [Carrier α] [Holder α] {s} {a : α}, Every (Known s) a →
    Judge s (pure a) (pure (lower a))
  throw : ∀ {α : Type} [Carrier α] [Holder α] {s} {e : Exit}, e.Bare →
    Judge s (throw e : Run α) (throw e)
  bind : ∀ {α β : Type} [Carrier α] [Holder α] [Carrier β] [Holder β] {s} {x y : Run α}
    {f g : α → Run β}, Judge s x y →
    (∀ t a, Leads s t → Every (Known t) a → Judge t (f a) (g (lower a))) →
    Judge s (x >>= f) (y >>= g)
  modifyGet : ∀ {α : Type} [Carrier α] [Holder α] {s} {f g : Machine → α × Machine},
    (∀ m, (f m).2.envs = m.envs) → (∀ m, g (lower m) = lower (f m)) →
    (∀ t m, Leads s t → Every (Known t) m → Every (Known t) (f m)) →
    Judge s (modifyGet f) (modifyGet g)

/-- All functions in the data are known. -/
abbrev Logic.Fine (L : Logic) {α : Type} [Holder α] (s : L.Stage) (a : α) : Prop :=
  Every (L.Known s) a

variable {α β : Type} [Holder α] [Holder β] {L : Logic} {s t : L.Stage}

theorem Logic.Fine.mono {a : α} (h : L.Fine s a) (hle : L.Leads s t) : L.Fine t a :=
  Holder.imp (L.known hle) h

theorem Logic.fine_cons {a : α} {as : List α} : L.Fine s (a :: as) ↔ L.Fine s a ∧ L.Fine s as :=
  every_cons

variable [Carrier α] [Carrier β]

namespace Logic.Judge

variable {x y : Run α} {f g : α → Run β}

theorem pure {a : α} (ha : L.Fine s a) : L.Judge s (Pure.pure a) (Pure.pure (lower a)) := L.pure ha

theorem throw {e : Exit} (he : e.Bare) :
    L.Judge s (MonadExcept.throw e : Run α) (MonadExcept.throw e) := L.throw he

/-- An error that is not about a name. -/
theorem fail {e : Error} (he : ∀ name, e ≠ .notDefined name) :
    L.Judge s (Machine.fail e : Run α) (Machine.fail e) := by
  refine L.throw ?_
  cases e with
  | notDefined name => exact absurd rfl (he name)
  | _ => trivial

theorem bind (hx : L.Judge s x y)
    (hf : ∀ t a, L.Leads s t → L.Fine t a → L.Judge t (f a) (g (lower a))) :
    L.Judge s (x >>= f) (y >>= g) := L.bind hx hf

theorem ite {c : Prop} [Decidable c] {x1 x2 y1 y2 : Run α} (h1 : L.Judge s x1 y1)
    (h2 : L.Judge s x2 y2) : L.Judge s (if c then x1 else x2) (if c then y1 else y2) := by
  split
  · exact h1
  · exact h2

/-- A result without code is the same on both sides. -/
theorem plain [Plain α] (a : α) : L.Judge s (Pure.pure a) (Pure.pure a) := by
  have h : L.Judge s (Pure.pure a) (Pure.pure (lower a)) := .pure (Plain.every _ a)
  rwa [Plain.lower_eq] at h

theorem bind_plain [Plain α] (hx : L.Judge s x y) (hf : ∀ a, L.Judge s (f a) (g a)) :
    L.Judge s (x >>= f) (y >>= g) :=
  hx.bind fun t a hle _ => by rw [Plain.lower_eq]; exact L.mono hle (hf a)

theorem known [Plain α] (r : Except Number.Fault α) :
    L.Judge s (Machine.known r) (Machine.known r) := by
  cases r with
  | ok a => exact .plain a
  | error e => exact .throw trivial

theorem get_bind {f g : Machine → Run β}
    (hf : ∀ t m, L.Leads s t → L.Fine t m → L.Judge t (f m) (g (lower m))) :
    L.Judge s (get >>= f) (get >>= g) :=
  bind (x := get) (L.modifyGet (f := fun m => (m, m)) (g := fun m => (m, m)) (fun _ => rfl)
    (fun _ => rfl) fun _ _ _ hm => ⟨hm, hm⟩) hf

theorem modify {f g : Machine → Machine} (henvs : ∀ m, (f m).envs = m.envs)
    (hlower : ∀ m, g (lower m) = lower (f m))
    (h : ∀ t m, L.Leads s t → L.Fine t m → L.Fine t (f m)) :
    L.Judge s (modify f : Run Unit) (modify g) :=
  L.modifyGet henvs (fun m => congrArg (Prod.mk ()) (hlower m)) fun t m hle hm =>
    ⟨trivial, h t m hle hm⟩

omit [Holder β] in
theorem mapM {bs : List β} {f g : β → Run α}
    (h : ∀ t b, L.Leads s t → L.Judge t (f b) (g (lower b))) :
    L.Judge s (bs.mapM f) ((lower bs).mapM g) := by
  induction bs generalizing s with
  | nil => exact .pure every_nil
  | cons b bs ih =>
    rw [lower_cons, mapM_cons, mapM_cons]
    refine .bind (h s b (L.refl s)) fun t a hle ha => ?_
    refine .bind (ih fun t' b' hle' => h t' b' (L.trans hle hle')) fun t' as hle' has => ?_
    exact .pure (every_cons.mpr ⟨ha.mono hle', has⟩)

end Logic.Judge

variable {u v w : Value} {vs ws args : List Value} {fs : Fields}

section Store

variable {a : Nat}

theorem judge_newArray (hvs : L.Fine s vs) : L.Judge s (newArray vs) (newArray (lower vs)) := by
  refine L.modifyGet (fun _ => rfl) (fun m => ?_) fun _ _ hle hm =>
    ⟨trivial, hm.1, every_push hm.2.1 (every_toArray (hvs.mono hle)), hm.2.2⟩
  have h : lower (m.arrays.push vs.toArray) = (lower m.arrays).push (lower vs).toArray := by
    rw [← lower_toArray]
    exact Array.map_push
  exact Prod.ext (congrArg Value.array Array.size_map)
    (congrArg (fun arrays => { lower m with arrays }) h.symm)

theorem judge_newObject (hfs : L.Fine s fs) : L.Judge s (newObject fs) (newObject (lower fs)) := by
  refine L.modifyGet (fun _ => rfl) (fun m => ?_) fun _ _ hle hm =>
    ⟨trivial, hm.1, hm.2.1, every_push hm.2.2 (hfs.mono hle)⟩
  have h : lower (m.objects.push fs) = (lower m.objects).push (lower fs) := Array.map_push
  exact Prod.ext (congrArg Value.object Array.size_map)
    (congrArg (fun objects => { lower m with objects }) h.symm)

theorem judge_changeArray {f g : Array Value → Array Value} (h : ∀ vs, g (lower vs) = lower (f vs))
    (hf : ∀ t vs, L.Leads s t → L.Fine t vs → L.Fine t (f vs)) :
    L.Judge s (changeArray a f) (changeArray a g) :=
  .modify (fun _ => rfl)
    (fun m => congrArg (fun arrays => { lower m with arrays }) (lower_modify h))
    fun t _ hle hm => ⟨hm.1, every_modify hm.2.1 fun vs => hf t vs hle, hm.2.2⟩

theorem judge_setElements (hvs : L.Fine s vs) :
    L.Judge s (setElements a vs) (setElements a (lower vs)) :=
  judge_changeArray (fun _ => (lower_toArray vs).symm) fun _ _ hle _ => every_toArray (hvs.mono hle)

theorem judge_setField {o : Nat} {name : String} (hv : L.Fine s v) :
    L.Judge s (setField o name v) (setField o name (lower v)) :=
  .modify (fun _ => rfl) (fun m => congrArg (fun objects => { lower m with objects })
    (lower_modify (g := fun fs => fs.put name (lower v)) (f := fun fs => fs.put name v)
      fun fs => put_lower fs name v)) fun _ _ hle hm =>
    ⟨hm.1, hm.2.1, every_modify hm.2.2 fun _ hfs => every_put hfs name (hv.mono hle)⟩

theorem judge_newFunctionId : L.Judge s newFunctionId newFunctionId :=
  L.modifyGet (fun _ => rfl) (fun _ => rfl) fun _ _ _ hm => ⟨trivial, hm⟩

theorem judge_newFunction (hf : L.Fine s f) : L.Judge s (newFunction f) (newFunction (lower f)) :=
  judge_newFunctionId.bind_plain fun id => .pure (a := Value.function id f) hf

theorem judge_logLine (line : String) : L.Judge s (logLine line) (logLine line) :=
  .modify (fun _ => rfl) (fun _ => rfl) fun _ _ _ hm => hm

end Store

section Operators

theorem judge_textOf (v : Value) : L.Judge s (textOf v) (textOf (lower v)) :=
  .get_bind fun _ m _ _ => by rw [text_lower]; exact .known _

theorem judge_displayOf (v : Value) : L.Judge s (displayOf v) (displayOf (lower v)) :=
  .get_bind fun _ m _ _ => by rw [display_lower]; exact .known _

theorem judge_numberOf (v : Value) : L.Judge s (numberOf v) (numberOf (lower v)) :=
  .get_bind fun _ m _ _ => by rw [numeric_lower]; exact .known _

theorem judge_holds (v : Value) : L.Judge s (holds v) (holds (lower v)) := by
  rw [holds, holds, truthy_lower]
  exact .known _

theorem judge_addend (hv : L.Fine s v) : L.Judge s (addend v) (addend (lower v)) := by
  cases v with
  | array r => exact .bind_plain (judge_textOf (.array r)) fun t => .pure trivial
  | object r => exact .bind_plain (judge_textOf (.object r)) fun t => .pure trivial
  | _ => exact .pure hv

theorem judge_arithmetic (op : Number → Number → Except Number.Fault Number) (v w : Value) :
    L.Judge s (arithmetic op v w) (arithmetic op (lower v) (lower w)) :=
  .bind_plain (judge_numberOf v) fun _ => .bind_plain (judge_numberOf w) fun _ =>
    .bind_plain (.known _) fun _ => .pure trivial

theorem judge_add (hv : L.Fine s v) (hw : L.Fine s w) :
    L.Judge s (add v w) (add (lower v) (lower w)) := by
  refine .bind (judge_addend hv) fun _ x hle _ => ?_
  refine .bind (judge_addend (hw.mono hle)) fun _ y _ _ => ?_
  cases x with
  | string s => exact .bind_plain (judge_textOf y) fun t => .pure trivial
  | _ =>
    cases y with
    | string t => exact .bind_plain (judge_textOf _) fun s => .pure trivial
    | _ => exact judge_arithmetic _ _ _

theorem judge_ordered (orders : List Ordering) (v w : Value) :
    L.Judge s (ordered orders v w) (ordered orders (lower v) (lower w)) := by
  have numbers (v w : Value) : L.Judge s
      (do
        let x ← numberOf v
        let y ← numberOf w
        if ← known x.isNaN then return .boolean false
        if ← known y.isNaN then return .boolean false
        return .boolean ((Number.compare? x y).any orders.contains))
      (do
        let x ← numberOf (lower v)
        let y ← numberOf (lower w)
        if ← known x.isNaN then return Value.boolean false
        if ← known y.isNaN then return .boolean false
        return .boolean ((Number.compare? x y).any orders.contains)) := by
    refine .bind_plain (judge_numberOf v) fun x => .bind_plain (judge_numberOf w) fun y => ?_
    refine .bind_plain (.known _) fun p => .ite (.pure trivial) ?_
    exact .bind_plain (.known _) fun q => .ite (.pure trivial) (.pure trivial)
  cases v with
  | string s =>
    cases w with
    | string t => exact .pure trivial
    | _ => exact numbers _ _
  | _ => exact numbers _ _

theorem judge_binary (op : BinaryOp) (hv : L.Fine s v) (hw : L.Fine s w) :
    L.Judge s (binary op v w) (binary op (lower v) (lower w)) := by
  cases op with
  | add => exact judge_add hv hw
  | sub | mul | div | mod => exact judge_arithmetic _ v w
  | strictEqual | strictNotEqual =>
    simp only [binary, same_lower]
    exact .pure trivial
  | equal | notEqual =>
    refine .get_bind fun _ m _ _ => ?_
    rw [alike_lower]
    exact .bind_plain (.known _) fun p => .pure trivial
  | less | greater | lessEqual | greaterEqual => exact judge_ordered _ v w
  | or | nullish | and | other => exact .fail nofun

theorem judge_unary (op : UnaryOp) (v : Value) : L.Judge s (unary op v) (unary op (lower v)) := by
  cases op with
  | typeof =>
    simp only [unary, typeName_lower]
    exact .pure trivial
  | not => exact .bind_plain (judge_holds v) fun p => .pure trivial
  | negate | plus => exact .bind_plain (judge_numberOf v) fun n => .pure trivial
  | void | other => exact .pure trivial

end Operators

section Properties

theorem elementAt_lower (vs : Array Value) (i : Int) :
    elementAt (lower vs) i = lower (elementAt vs i) := by
  unfold elementAt
  split
  · rfl
  · have h : (lower vs)[i.toNat]? = lower vs[i.toNat]? := Array.getElem?_map
    rw [Array.getD_eq_getD_getElem?, Array.getD_eq_getD_getElem?, h]
    cases vs[i.toNat]? <;> rfl

theorem judge_readArray (a : Nat) (key : Value) :
    L.Judge s (readArray a key) (readArray a (lower key)) := by
  cases key with
  | number n =>
    change L.Judge s _ (readArray a (.number n))
    unfold readArray
    dsimp only
    cases n.integer? with
    | none => exact .pure trivial
    | some i =>
      refine .get_bind fun _ m _ hm => ?_
      rw [arrayOf_lower, elementAt_lower]
      exact .pure (every_elementAt (every_arrayOf hm a) i)
  | _ =>
    refine .bind_plain (judge_textOf _) fun name => .ite ?_ ?_
    · refine .get_bind fun _ m _ _ => ?_
      rw [arrayOf_lower, size_lower]
      exact .pure trivial
    · cases ArrayMethod.ofName? name with
      | none => exact .pure trivial
      | some method => exact judge_newFunction trivial

theorem judge_readString (s' : String) (key : Value) :
    L.Judge s (readString s' key) (readString s' (lower key)) := by
  cases key with
  | number n =>
    refine .bind_plain (.known _) fun i => ?_
    have h : letterAt s' i = lower (letterAt s' i) ∧ ∀ P, Every P (letterAt s' i) := by
      unfold letterAt
      split
      · exact ⟨rfl, fun _ => trivial⟩
      · cases (s'.drop i.toNat).front? <;> exact ⟨rfl, fun _ => trivial⟩
    have hjudge : L.Judge s (pure (letterAt s' i) : Run Value) (pure (lower (letterAt s' i))) :=
      .pure (h.2 _)
    rwa [← h.1] at hjudge
  | _ =>
    refine .bind_plain (judge_textOf _) fun name => .ite (.pure trivial) ?_
    cases StringMethod.ofName? name with
    | none => exact .pure trivial
    | some method => exact judge_newFunction trivial

theorem judge_readFunction (hf : L.Fine s f) (name : String) :
    L.Judge s (readFunction f name) (readFunction (lower f) name) := by
  refine .ite (judge_newFunction (f := .callOf f) hf) ?_
  refine .ite (judge_newFunction (f := .applyOf f) hf) (.ite ?_ (.pure trivial))
  rw [name_lower]
  exact .pure trivial

theorem judge_readNumber (n : Number) (name : String) :
    L.Judge s (readNumber n name) (readNumber n name) :=
  .ite (judge_newFunction (f := .toFixed n) trivial)
    (.ite (judge_newFunction (f := .toText n) trivial) (.pure trivial))

theorem judge_readProperty (hv : L.Fine s v) (key : Value) :
    L.Judge s (readProperty v key) (readProperty (lower v) (lower key)) := by
  cases v with
  | undefined | null =>
    exact .bind_plain (judge_textOf _) fun _ => .bind_plain (judge_textOf key) fun _ => .fail nofun
  | array r => exact judge_readArray r key
  | string s => exact judge_readString s key
  | object r =>
    refine .bind_plain (judge_textOf key) fun name => .get_bind fun _ m _ hm => ?_
    rw [fields_lower, get?_lower]
    have h := every_get? (every_fields hm r) name
    cases hv : (m.fields r).get? name with
    | none => exact .pure trivial
    | some v => exact .pure (h v hv)
  | function id f => exact .bind_plain (judge_textOf key) fun name => judge_readFunction hv name
  | number n => exact .bind_plain (judge_textOf key) fun name => judge_readNumber n name
  | boolean p => exact .pure trivial

theorem writeAt_lower (i : Nat) (v : Value) (vs : Array Value) :
    writeAt i (lower v) (lower vs) = lower (writeAt i v vs) := by
  have hsize : (lower vs).size = vs.size := Array.size_map
  unfold writeAt
  rw [hsize]
  split
  · exact Array.map_setIfInBounds.symm
  · apply Array.toList_inj.mp
    change ((vs.map lower ++ List.replicate _ Value.undefined).push (lower v)).toList =
      (Array.map lower _).toList
    simp only [Array.toList_push, Array.toList_appendList, Array.toList_map, map_append,
      map_replicate]
    rfl

theorem judge_writeElement {a : Nat} {i : Int} (hv : L.Fine s v) :
    L.Judge s (writeElement a i v) (writeElement a i (lower v)) := by
  refine .get_bind fun t m hle _ => ?_
  have change (i : Nat) :
      L.Judge t (changeArray a (writeAt i v)) (changeArray a (writeAt i (lower v))) :=
    judge_changeArray (writeAt_lower i v) fun _ _ hle' => every_writeAt ((hv.mono hle).mono hle')
  rw [arrayOf_lower, size_lower]
  exact .ite (change _) (.ite (.throw trivial) (change _))

omit [Holder α] in
theorem take_lower (as : List α) (n : Nat) : (lower as).take n = lower (as.take n) :=
  map_take.symm

omit [Holder α] in
theorem drop_lower (as : List α) (n : Nat) : (lower as).drop n = lower (as.drop n) :=
  map_drop.symm

theorem judge_cutArray (a : Nat) (length : Int) :
    L.Judge s (cutArray a length) (cutArray a length) := by
  refine .get_bind fun _ m _ hm => ?_
  dsimp only
  rw [elements_lower, length_lower, take_lower]
  exact judge_setElements (every_sublist (every_elements hm a) (take_sublist _ _))

theorem judge_writeProperty (target key : Value) (hv : L.Fine s v) :
    L.Judge s (writeProperty target key v)
      (writeProperty (lower target) (lower key) (lower v)) := by
  cases target with
  | object r => exact .bind_plain (judge_textOf key) fun name => judge_setField hv
  | array r =>
    cases key with
    | number n => exact .bind_plain (.known _) fun i => judge_writeElement hv
    | _ =>
      refine .bind_plain (judge_textOf _) fun name => .ite ?_ ?_
      · exact .bind_plain (judge_numberOf v) fun n => .bind_plain (.known _) fun i =>
          judge_cutArray r i
      · exact .bind_plain (judge_displayOf (.array r)) fun _ => .fail nofun
  | _ =>
    exact .bind_plain (judge_displayOf _) fun _ => .bind_plain (judge_textOf key) fun _ =>
      .fail nofun

end Properties

section Functions

theorem arg_lower (vs : List Value) (i : Nat) : arg (lower vs) i = lower (arg vs i) := by
  have h : (lower vs)[i]? = lower vs[i]? := getElem?_map
  unfold arg
  rw [getD_eq_getElem?_getD, getD_eq_getElem?_getD, h]
  cases vs[i]? <;> rfl

theorem judge_intArg (v : Value) : L.Judge s (intArg v) (intArg (lower v)) := by
  refine .bind_plain (judge_numberOf v) fun n => ?_
  cases n.truncate <;> exact .plain _

theorem judge_clamp (length missing : Nat) (v : Value) :
    L.Judge s (clamp length missing v) (clamp length missing (lower v)) := by
  cases v with
  | undefined => exact .plain _
  | _ => exact .bind_plain (judge_intArg _) fun n => .plain _

theorem judge_sliceOf {as : List α} (has : L.Fine s as) (vs : List Value) :
    L.Judge s (sliceOf as vs) (sliceOf (lower as) (lower vs)) := by
  unfold sliceOf
  simp only [arg_lower, length_lower, take_lower, drop_lower]
  refine .bind_plain (judge_clamp _ _ _) fun i => .bind_plain (judge_clamp _ _ _) fun j => ?_
  exact .pure (every_sublist has ((drop_sublist _ _).trans (take_sublist _ _)))

theorem judge_newError (f : Builtin) (v : Value) :
    L.Judge s (newError f v) (newError f (lower v)) := by
  have object (text : String) : L.Judge s
      (newObject [("name", .string f.name), ("message", .string text)])
      (newObject [("name", .string f.name), ("message", .string text)]) :=
    judge_newObject (every_cons.mpr ⟨⟨trivial, trivial⟩,
      every_cons.mpr ⟨⟨trivial, trivial⟩, every_nil⟩⟩)
  cases v with
  | undefined => exact object ""
  | _ => exact .bind_plain (judge_textOf _) object

theorem judge_logValues (vs : List Value) : L.Judge s (logValues vs) (logValues (lower vs)) :=
  .bind_plain (.mapM fun _ v _ => judge_displayOf v) fun _ =>
    .bind_plain (judge_logLine _) fun _ => .pure trivial

theorem judge_power (v w : Value) : L.Judge s (power v w) (power (lower v) (lower w)) :=
  .bind_plain (judge_numberOf v) fun _ => .bind_plain (.known _) fun _ =>
    .bind_plain (judge_numberOf w) fun _ => .bind_plain (.known _) fun _ => .pure trivial

/-- Texts are values without code. -/
theorem lower_texts (f : γ → String) (as : List γ) :
    lower (as.map fun a => Value.string (f a)) = as.map fun a => .string (f a) := by
  change (as.map _).map lower = _
  rw [map_map]
  rfl

theorem every_texts {P : Closure → Prop} (f : γ → String) (as : List γ) :
    Every P (as.map fun a => Value.string (f a)) := by
  intro v hv
  obtain ⟨a, -, rfl⟩ := mem_map.mp hv
  trivial

theorem judge_newTexts (f : γ → String) (as : List γ) :
    L.Judge s (newArray (as.map fun a => .string (f a)))
      (newArray (as.map fun a => .string (f a))) := by
  have hjudge := judge_newArray (s := s) (every_texts f as)
  rwa [lower_texts] at hjudge

theorem judge_keysOf (v : Value) : L.Judge s (keysOf v) (keysOf (lower v)) := by
  cases v with
  | object r =>
    refine .get_bind fun _ m _ _ => ?_
    have h : ((lower m).fields r).map (fun f => Value.string f.1) =
        (m.fields r).map fun f => .string f.1 := by
      rw [fields_lower]
      exact map_map
    rw [h]
    exact judge_newTexts _ _
  | _ => exact judge_newArray every_nil

theorem judge_builtin (f : Builtin) (vs : List Value) :
    L.Judge s (builtin f vs) (builtin f (lower vs)) := by
  have hempty : (lower vs).isEmpty = vs.isEmpty := by cases vs <;> rfl
  unfold builtin
  simp only [arg_lower]
  cases f with
  | log => exact judge_logValues vs
  | max | min => exact .bind_plain (.mapM fun _ v _ => judge_numberOf v) fun _ => .pure trivial
  | floor | ceil | abs => exact .bind_plain (judge_numberOf _) fun _ => .pure trivial
  | round | sqrt | isNaN =>
    exact .bind_plain (judge_numberOf _) fun _ => .bind_plain (.known _) fun _ => .pure trivial
  | pow => exact judge_power _ _
  | stringify =>
    refine .get_bind fun _ m _ _ => ?_
    rw [json?_lower]
    refine .bind_plain (.known _) fun text => ?_
    cases text <;> exact .pure trivial
  | keys => exact judge_keysOf _
  | isArray => cases arg vs 0 <;> exact .pure trivial
  | string =>
    dsimp only
    rw [hempty]
    exact .ite (.pure trivial) (.bind_plain (judge_textOf _) fun _ => .pure trivial)
  | number =>
    dsimp only
    rw [hempty]
    exact .ite (.pure trivial) (.bind_plain (judge_numberOf _) fun _ => .pure trivial)
  | boolean => exact .bind_plain (judge_holds _) fun _ => .pure trivial
  | parseInt =>
    exact .bind_plain (judge_textOf _) fun _ => .bind_plain (.known _) fun _ => .pure trivial
  | error | typeError | rangeError => exact judge_newError _ _

theorem judge_splitString (text : String) (v : Value) :
    L.Judge s (splitString text v) (splitString text (lower v)) := by
  cases v with
  | undefined => exact judge_newArray (every_cons.mpr ⟨trivial, every_nil⟩)
  | _ =>
    exact .bind_plain (judge_textOf _) fun separator =>
      .ite (judge_newTexts _ text.toList) (judge_newTexts _ _)

theorem judge_repeated (text : String) (count : Nat) :
    L.Judge s (repeated text count) (repeated text count) :=
  .ite (.throw trivial) (.pure trivial)

theorem judge_stringMethod (text : String) (method : StringMethod) (vs : List Value) :
    L.Judge s (stringMethod text method vs) (stringMethod text method (lower vs)) := by
  have hslice (ws : List Value) :
      L.Judge s (sliceOf text.toList ws) (sliceOf text.toList (lower ws)) := by
    have h := judge_sliceOf (s := s) (Plain.every _ text.toList) ws
    rwa [Plain.lower_eq] at h
  unfold stringMethod
  simp only [arg_lower]
  cases method with
  | toUpperCase | toLowerCase | trim => exact .pure trivial
  | split => exact judge_splitString text _
  | slice => exact .bind_plain (hslice vs) fun _ => .pure trivial
  | includes | indexOf | startsWith | endsWith =>
    exact .bind_plain (.bind_plain (judge_textOf _) fun _ => .plain _) fun _ => .pure trivial
  | charAt =>
    exact .bind_plain (judge_intArg _) fun i =>
      .bind_plain (hslice [.int i, .int (i + 1)]) fun _ => .pure trivial
  | repeated => exact .bind_plain (judge_intArg _) fun n => judge_repeated text n.toNat

theorem argumentList_lower (m : Machine) (v : Value) :
    (lower m).argumentList (lower v) = lower (m.argumentList v) := by
  cases v with
  | boolean p => cases p <;> rfl
  | number n =>
    simp only [argumentList, lower]
    split <;> rfl
  | string s => exact congrArg some (lower_texts _ s.toList).symm
  | array r => exact congrArg some (elements_lower r)
  | _ => rfl

end Functions

section Callbacks

/-- Functions that are called back keep what is to be kept. -/
def Logic.Calls (L : Logic) (s : L.Stage) (call call' : Caller) : Prop :=
  ∀ t f this args, L.Leads s t → L.Fine t f → L.Fine t this → L.Fine t args →
    L.Judge t (call f this args) (call' (lower f) (lower this) (lower args))

variable {call call' : Caller}

theorem Logic.Calls.mono (h : L.Calls s call call') (hle : L.Leads s t) : L.Calls t call call' :=
  fun t' f this args hle' => h t' f this args (L.trans hle hle')

theorem judge_callback (hvs : L.Fine s vs) : L.Judge s (callback vs) (callback (lower vs)) := by
  have h := every_arg hvs 0
  unfold callback
  rw [arg_lower]
  cases hv : arg vs 0 with
  | function id f =>
    rw [hv] at h
    exact .pure h
  | _ => exact .bind_plain (judge_displayOf _) fun _ => .fail nofun

theorem judge_each {f g : Nat → Value → Run α} (hvs : L.Fine s vs)
    (h : ∀ t i v, L.Leads s t → L.Fine t v → L.Judge t (f i v) (g i (lower v))) (i : Nat) :
    L.Judge s (each f i vs) (each g i (lower vs)) := by
  induction vs generalizing s i with
  | nil => exact .pure every_nil
  | cons v vs ih =>
    obtain ⟨hv, hvs⟩ := L.fine_cons.mp hvs
    refine .bind (h s i v (L.refl s) hv) fun t a hle ha => ?_
    refine .bind (ih (hvs.mono hle) (fun t' i v hle' => h t' i v (L.trans hle hle')) (i + 1))
      fun t' as hle' has => ?_
    exact .pure (every_cons.mpr ⟨ha.mono hle', has⟩)

theorem judge_firstWhere {p q : Nat → Value → Run Bool} (hvs : L.Fine s vs)
    (h : ∀ t i v, L.Leads s t → L.Fine t v → L.Judge t (p i v) (q i (lower v))) (i : Nat) :
    L.Judge s (firstWhere p i vs) (firstWhere q i (lower vs)) := by
  induction vs generalizing i with
  | nil => exact .pure (a := none) nofun
  | cons v vs ih =>
    obtain ⟨hv, hvs⟩ := L.fine_cons.mp hvs
    refine .bind_plain (h s i v (L.refl s) hv) fun c => .ite ?_ (ih hvs (i + 1))
    exact .pure (a := some (i, v)) fun _ ha => by cases ha; exact ⟨trivial, hv⟩

theorem judge_foldWith {f g : Value → Nat → Value → Run Value} (hv : L.Fine s v) (hvs : L.Fine s vs)
    (h : ∀ t a i v, L.Leads s t → L.Fine t a → L.Fine t v →
      L.Judge t (f a i v) (g (lower a) i (lower v))) (i : Nat) :
    L.Judge s (foldWith f v i vs) (foldWith g (lower v) i (lower vs)) := by
  induction vs generalizing s v i with
  | nil => exact .pure hv
  | cons w vs ih =>
    obtain ⟨hw, hvs⟩ := L.fine_cons.mp hvs
    refine .bind (h s v i w (L.refl s) hv hw) fun t a hle ha => ?_
    exact ih ha (hvs.mono hle) (fun t' a i v hle' => h t' a i v (L.trans hle hle')) (i + 1)

theorem judge_mergeBy (hvs : L.Fine s vs) (hws : L.Fine s ws)
    (h : ∀ t v w, L.Leads s t → L.Fine t v → L.Fine t w → L.Judge t (p v w) (q (lower v) (lower w))) :
    L.Judge s (mergeBy p vs ws) (mergeBy q (lower vs) (lower ws)) := by
  fun_induction mergeBy p vs ws with
  | case1 ws =>
    rw [lower_nil, mergeBy]
    exact .pure hws
  | case2 vs hne =>
    cases vs with
    | nil => exact absurd rfl hne
    | cons v vs =>
      rw [lower_nil, lower_cons, mergeBy]
      · exact .pure hvs
      · rintro ⟨⟩
  | case3 v vs w ws ih1 ih2 =>
    obtain ⟨hv, hvs'⟩ := L.fine_cons.mp hvs
    obtain ⟨hw, hws'⟩ := L.fine_cons.mp hws
    rw [lower_cons, lower_cons, mergeBy]
    refine .bind_plain (h s w v (L.refl s) hw hv) fun c => .ite ?_ ?_
    · exact .bind (ih1 hvs hws') fun _ us hle hus => .pure (every_cons.mpr ⟨hw.mono hle, hus⟩)
    · exact .bind (ih2 hvs' hws) fun _ us hle hus => .pure (every_cons.mpr ⟨hv.mono hle, hus⟩)

theorem judge_sortBy (hvs : L.Fine s vs)
    (h : ∀ t v w, L.Leads s t → L.Fine t v → L.Fine t w → L.Judge t (p v w) (q (lower v) (lower w))) :
    L.Judge s (sortBy p vs) (sortBy q (lower vs)) := by
  fun_induction sortBy p vs generalizing s with
  | case1 vs hlt =>
    rw [sortBy, length_lower, if_pos hlt]
    exact .pure hvs
  | case2 vs hlt ih1 ih2 =>
    rw [sortBy.eq_def q, length_lower, if_neg hlt, take_lower, drop_lower]
    refine .bind (ih1 (every_sublist hvs (take_sublist _ _)) h) fun t left hle hleft => ?_
    have ht := fun t' v w hle' => h t' v w (L.trans hle hle')
    refine .bind (ih2 (every_sublist (hvs.mono hle) (drop_sublist _ _)) ht)
      fun t' right hle' hright => ?_
    refine judge_mergeBy (hleft.mono hle') hright fun t'' v w hle'' => ?_
    exact ht t'' v w (L.trans hle' hle'')

theorem judge_textSorted (hvs : L.Fine s vs) :
    L.Judge s (textSorted vs) (textSorted (lower vs)) := by
  refine .bind_plain (.mapM fun _ v _ => judge_textOf v) fun texts => ?_
  have hzip : texts.zip (lower vs) = lower (texts.zip vs) := by
    change texts.zip (vs.map lower) = (texts.zip vs).map lower
    rw [zip_map_right]
    rfl
  have hsort : (lower (texts.zip vs)).mergeSort (fun a b => !decide (b.1 < a.1)) =
      lower ((texts.zip vs).mergeSort fun a b => !decide (b.1 < a.1)) :=
    (map_mergeSort (f := lower) fun _ _ _ _ => rfl).symm
  dsimp only
  rw [hzip, hsort]
  have hmap (ps : List (String × Value)) : (lower ps).map (·.2) = lower (ps.map (·.2)) := by
    change (ps.map lower).map _ = (ps.map _).map lower
    rw [map_map, map_map]
    rfl
  rw [hmap]
  refine .pure fun v hv => ?_
  obtain ⟨p, hp, rfl⟩ := mem_map.mp hv
  exact hvs p.2 (of_mem_zip (mem_mergeSort.mp hp)).2

theorem judge_comparison (hcall : L.Calls s call call') (hu : L.Fine s u) (hv : L.Fine s v)
    (hw : L.Fine s w) :
    L.Judge s (comparison call u v w) (comparison call' (lower u) (lower v) (lower w)) := by
  cases u with
  | function id f =>
    have hargs : L.Fine s [v, w] := every_cons.mpr ⟨hv, every_cons.mpr ⟨hw, every_nil⟩⟩
    refine .bind (hcall s f .undefined [v, w] (L.refl s) hu trivial hargs) fun _ r _ _ => ?_
    exact .bind_plain (judge_numberOf r) fun n => .bind_plain (.known _) fun c =>
      .ite (.plain _) (.plain _)
  | _ => exact .bind_plain (judge_displayOf _) fun _ => .fail nofun

theorem indexIn_lower (vs : List Value) (v : Value) :
    indexIn (lower vs) (lower v) = indexIn vs v := by
  have h : (lower vs).findIdx? (fun w => w.same (lower v)) = vs.findIdx? fun w => w.same v := by
    refine findIdx?_map.trans (congrArg (List.findIdx? · vs) (funext fun w => ?_))
    exact same_lower w v
  unfold indexIn
  rw [h]

theorem judge_joined (separator : String) (vs : List Value) :
    L.Judge s (joined separator vs) (joined separator (lower vs)) := by
  refine .bind_plain (.mapM fun _ v _ => ?_) fun texts => .pure trivial
  rw [isNullish_lower]
  exact .ite (.plain _) (judge_textOf v)

theorem flatMap_spread_lower (m : Machine) (vs : List Value) :
    (lower vs).flatMap (lower m).spread = lower (vs.flatMap m.spread) := by
  induction vs with
  | nil => rfl
  | cons v vs ih =>
    have h : (lower m).spread (lower v) = lower (m.spread v) := by
      cases v with
      | array r => exact elements_lower r
      | _ => rfl
    rw [lower_cons, flatMap_cons, flatMap_cons, lower_append, h, ih]

theorem kept_lower (vs : List Value) (kept : List Bool) :
    ((lower vs).zip kept).filterMap (fun p => if p.2 then some p.1 else none) =
      lower ((vs.zip kept).filterMap fun p => if p.2 then some p.1 else none) := by
  change ((vs.map lower).zip kept).filterMap _ = ((vs.zip kept).filterMap _).map lower
  rw [zip_map_left, filterMap_map, map_filterMap]
  congr 1
  funext p
  obtain ⟨v, kept⟩ := p
  cases kept <;> rfl

theorem judge_callbackMethod (hcall : L.Calls s call call') (array : Nat) (method : ArrayMethod)
    (hvs : L.Fine s vs) :
    L.Judge s (callbackMethod call array method vs)
      (callbackMethod call' array method (lower vs)) := by
  refine .bind (judge_callback hvs) fun s1 f hle1 hf => .get_bind fun t m hle2 hm => ?_
  dsimp only
  rw [elements_lower]
  have hle := L.trans hle1 hle2
  have hes : L.Fine t (m.elements array) := every_elements hm array
  have visit (t' : L.Stage) (i : Nat) (v : Value) (hle' : L.Leads t t') (hv : L.Fine t' v) :
      L.Judge t' (call f .undefined [v, .int i, .array array])
        (call' (lower f) .undefined [lower v, .int i, .array array]) :=
    hcall t' f .undefined [v, .int i, .array array] (L.trans hle hle')
      (hf.mono (L.trans hle2 hle')) trivial (every_cons.mpr ⟨hv, every_cons.mpr ⟨trivial,
        every_cons.mpr ⟨trivial, every_nil⟩⟩⟩)
  have test (t' : L.Stage) (i : Nat) (v : Value) (hle' : L.Leads t t') (hv : L.Fine t' v) :
      L.Judge t' (do holds (← call f .undefined [v, .int i, .array array]))
        (do holds (← call' (lower f) .undefined [lower v, .int i, .array array])) :=
    .bind (visit t' i v hle' hv) fun _ r _ _ => judge_holds r
  cases method with
  | map => exact .bind (judge_each hes visit 0) fun _ vs _ hvs => judge_newArray hvs
  | filter =>
    refine .bind_plain (judge_each hes test 0) fun kept => ?_
    rw [kept_lower]
    refine judge_newArray fun v hv => ?_
    obtain ⟨p, hp, hv⟩ := mem_filterMap.mp hv
    split at hv
    · cases hv; exact hes p.1 (of_mem_zip hp).1
    · cases hv
  | find =>
    refine .bind (judge_firstWhere hes test 0) fun _ found _ hfound => ?_
    cases found with
    | none => exact .pure trivial
    | some p => exact .pure (hfound p rfl).2
  | findIndex | some =>
    refine .bind (judge_firstWhere hes test 0) fun _ found _ _ => ?_
    cases found <;> exact .pure trivial
  | every =>
    refine .bind (judge_firstWhere hes (fun t' i v hle' hv =>
      .bind_plain (test t' i v hle' hv) fun _ => .plain _) 0) fun _ found _ _ => ?_
    cases found <;> exact .pure trivial
  | reduce =>
    have step (t' : L.Stage) (a : Value) (i : Nat) (v : Value) (hle' : L.Leads t t')
        (ha : L.Fine t' a) (hv : L.Fine t' v) :
        L.Judge t' (call f .undefined [a, v, .int i, .array array])
          (call' (lower f) .undefined [lower a, lower v, .int i, .array array]) :=
      hcall t' f .undefined [a, v, .int i, .array array] (L.trans hle hle')
        (hf.mono (L.trans hle2 hle')) trivial (every_cons.mpr ⟨ha, every_cons.mpr ⟨hv,
          every_cons.mpr ⟨trivial, every_cons.mpr ⟨trivial, every_nil⟩⟩⟩⟩)
    have first : L.Judge t
        (match m.elements array with
          | v :: ws => foldWith (fun a i v => call f .undefined [a, v, .int i, .array array]) v 1 ws
          | [] => fail .emptyReduce)
        (match lower (m.elements array) with
          | v :: ws =>
            foldWith (fun a i v => call' (lower f) .undefined [a, v, .int i, .array array]) v 1 ws
          | [] => fail .emptyReduce) := by
      cases hel : m.elements array with
      | nil => exact .fail nofun
      | cons v ws =>
        rw [hel] at hes
        obtain ⟨hv, hws⟩ := L.fine_cons.mp hes
        exact judge_foldWith hv hws step 1
    match vs, hvs with
    | [], _ | [_], _ => cases hel : m.elements array <;> rw [hel] at first <;> exact first
    | _ :: start :: _, hvs =>
      have hstart := (L.fine_cons.mp (L.fine_cons.mp hvs).2).1
      exact judge_foldWith (hstart.mono hle) hes step 0
  | _ => exact .bind (judge_each hes visit 0) fun _ _ _ _ => .pure trivial

theorem judge_sortArray (hcall : L.Calls s call call') (array : Nat) (hv : L.Fine s v) :
    L.Judge s (sortArray call array v) (sortArray call' array (lower v)) := by
  refine .get_bind fun t m hle hm => ?_
  dsimp only
  rw [elements_lower]
  have hes : L.Fine t (m.elements array) := every_elements hm array
  have store (t' : L.Stage) (ws : List Value) (hws : L.Fine t' ws) :
      L.Judge t' (do setElements array ws; return .array array)
        (do setElements array (lower ws); return Value.array array) :=
    .bind_plain (judge_setElements hws) fun _ => .pure trivial
  have sorted (hv : L.Fine t v) := judge_sortBy hes fun t' _ _ hle' =>
    judge_comparison (hcall.mono (L.trans hle hle')) (hv.mono hle')
  cases v with
  | undefined => exact .bind (judge_textSorted hes) fun t' ws _ hws => store t' ws hws
  | _ => exact .bind (sorted (hv.mono hle)) fun t' ws _ hws => store t' ws hws

theorem judge_arrayMethod (hcall : L.Calls s call call') (array : Nat) (method : ArrayMethod)
    (hvs : L.Fine s vs) :
    L.Judge s (arrayMethod call array method vs) (arrayMethod call' array method (lower vs)) := by
  refine .get_bind fun t m hle hm => ?_
  dsimp only
  simp only [arrayOf_lower, size_lower, elementAt_lower, arg_lower, length_lower, elements_lower,
    indexIn_lower, flatMap_spread_lower]
  have hvs := hvs.mono hle
  have hcall := hcall.mono hle
  have has : L.Fine t (m.arrayOf array) := every_arrayOf hm array
  have hes : L.Fine t (m.elements array) := every_elements hm array
  cases method with
  | sort => exact judge_sortArray hcall array (every_arg hvs 0)
  | push =>
    refine .bind_plain (judge_changeArray (fun ws => ?_) fun _ ws hle' hws => ?_) fun _ =>
      .pure trivial
    · exact Array.toList_inj.mp (by simp only [toList_lower, Array.toList_appendList, lower_append])
    · refine every_toList.mp ?_
      rw [Array.toList_appendList]
      exact every_append.mpr ⟨every_toList.mpr hws, hvs.mono hle'⟩
  | pop =>
    refine .bind_plain (judge_changeArray (fun ws => Array.map_pop.symm) fun _ ws _ hws => ?_)
      fun _ => .pure (every_elementAt has _)
    exact every_toList.mp fun v hv =>
      hws v (Array.mem_def.mpr (dropLast_subset _ (Array.toList_pop ▸ hv)))
  | shift =>
    dsimp only
    have htail : (lower (m.elements array)).tail = lower (m.elements array).tail :=
      map_tail.symm
    rw [htail]
    exact .bind_plain (judge_setElements (every_sublist hes (tail_sublist _))) fun _ =>
      .pure (every_elementAt has 0)
  | unshift =>
    dsimp only
    rw [← lower_append]
    exact .bind_plain (judge_setElements (every_append.mpr ⟨hvs, hes⟩)) fun _ => .pure trivial
  | indexOf | includes => exact .pure trivial
  | join =>
    have h := fun separator => judge_joined (s := t) separator (m.elements array)
    cases arg vs 0 with
    | undefined => exact h ","
    | _ => exact .bind_plain (judge_textOf _) h
  | slice => exact .bind (judge_sliceOf hes vs) fun _ ws _ hws => judge_newArray hws
  | concat =>
    dsimp only
    rw [← lower_append]
    refine judge_newArray (every_append.mpr ⟨hes, fun v hv => ?_⟩)
    obtain ⟨w, hw, hv⟩ := mem_flatMap.mp hv
    exact every_spread hm (hvs w hw) v hv
  | reverse =>
    refine .bind_plain (judge_changeArray (fun ws => ?_) fun _ ws _ hws => ?_) fun _ =>
      .pure trivial
    · exact Array.map_reverse.symm
    · exact fun v hv => hws v (Array.mem_reverse.mp hv)
  | map | filter | forEach | reduce | find | findIndex | some | every =>
    exact judge_callbackMethod hcall array _ hvs

end Callbacks

end StepBinding.Machine
