import StepBinding.Machine.Session

/-! Functions in the data of a machine. Values, arrays, objects and environments may hold functions
of the program. What is taken from some data or put together from it holds no others: if all
functions of the program in the data have a property, those in the result have it too. -/

namespace StepBinding.Machine

open List

/-- Data that may hold functions of the program. -/
class Holder (α : Type) where
  /-- All functions of the program in the data have the property. -/
  Every : (Closure → Prop) → α → Prop
  imp : ∀ {P Q : Closure → Prop} {a : α}, (∀ c, P c → Q c) → Every P a → Every Q a
  all : ∀ a : α, Every (fun _ => True) a

export Holder (Every)

section Instances

variable {α β : Type}

/-- Data that holds no functions. -/
abbrev Holder.empty : Holder α := ⟨fun _ _ => True, fun _ _ => trivial, fun _ => trivial⟩

instance : Holder Unit := .empty
instance : Holder Bool := .empty
instance : Holder Nat := .empty
instance : Holder Int := .empty
instance : Holder Char := .empty
instance : Holder String := .empty
instance : Holder Number := .empty
instance : Holder Float := .empty

instance [Holder α] : Holder (List α) :=
  ⟨fun P l => ∀ a ∈ l, Every P a, fun h hl a ha => Holder.imp h (hl a ha), fun _ a _ => Holder.all a⟩

instance [Holder α] : Holder (Array α) :=
  ⟨fun P l => ∀ a ∈ l, Every P a, fun h hl a ha => Holder.imp h (hl a ha), fun _ a _ => Holder.all a⟩

instance [Holder α] : Holder (Option α) :=
  ⟨fun P o => ∀ a ∈ o, Every P a, fun h ho a ha => Holder.imp h (ho a ha), fun _ a _ => Holder.all a⟩

instance [Holder α] [Holder β] : Holder (α × β) :=
  ⟨fun P p => Every P p.1 ∧ Every P p.2, fun h hp => ⟨Holder.imp h hp.1, Holder.imp h hp.2⟩,
    fun p => ⟨Holder.all p.1, Holder.all p.2⟩⟩

end Instances

namespace Callable

def Every (P : Closure → Prop) : Callable → Prop
  | .closure c => P c
  | .callOf f | .applyOf f => Every P f
  | _ => True

theorem Every.imp {P Q : Closure → Prop} (h : ∀ c, P c → Q c) {f : Callable} (hf : Every P f) :
    Every Q f := by
  induction f with
  | closure c => exact h c hf
  | callOf f ih | applyOf f ih => exact ih hf
  | _ => trivial

theorem every_true (f : Callable) : Every (fun _ => True) f := by
  induction f with
  | callOf f ih | applyOf f ih => exact ih
  | _ => trivial

end Callable

instance : Holder Callable := ⟨Callable.Every, fun h hf => hf.imp h, Callable.every_true⟩

instance : Holder Value where
  Every P
    | .function _ f => Every P f
    | _ => True
  imp {P Q v} h hv := by
    cases v with
    | function id f => exact Holder.imp h hv
    | _ => trivial
  all v := by
    cases v with
    | function id f => exact Holder.all f
    | _ => trivial

instance : Holder Items where
  Every P
    | .fixed vs => Every P vs
    | .live _ => True
  imp {P Q items} h hi := by
    cases items with
    | fixed vs => exact Holder.imp h hi
    | live array => trivial
  all items := by
    cases items with
    | fixed vs => exact Holder.all vs
    | live array => trivial

instance : Holder Exit where
  Every P
    | .thrown v _ | .returned v => Every P v
    | _ => True
  imp {P Q e} h he := by
    cases e with
    | thrown v _ | returned v => exact Holder.imp h he
    | _ => trivial
  all e := by
    cases e with
    | thrown v _ | returned v => exact Holder.all v
    | _ => trivial

instance : Holder Environment :=
  ⟨fun P e => Every P e.values, fun h he => Holder.imp h he, fun e => Holder.all e.values⟩

instance : Holder Machine where
  Every P m := Every P m.envs ∧ Every P m.arrays ∧ Every P m.objects
  imp h hm := ⟨Holder.imp h hm.1, Holder.imp h hm.2.1, Holder.imp h hm.2.2⟩
  all m := ⟨Holder.all m.envs, Holder.all m.arrays, Holder.all m.objects⟩

instance {α : Type} [Holder α] : Holder (EStateM.Result Exit Machine α) where
  Every P
    | .ok a m => Every P a ∧ Every P m
    | .error e m => Every P e ∧ Every P m
  imp {P Q r} h hr := by
    cases r with
    | ok a m | error e m => exact ⟨Holder.imp h hr.1, Holder.imp h hr.2⟩
  all r := by
    cases r with
    | ok a m | error e m => exact ⟨Holder.all _, Holder.all m⟩

section Data

variable {α : Type} [Holder α] {P : Closure → Prop} {m : Machine} {v : Value} {vs : List Value}
  {fs : Fields}

theorem every_nil : Every P ([] : List α) := forall_mem_nil _

theorem every_cons {a : α} {as : List α} : Every P (a :: as) ↔ Every P a ∧ Every P as :=
  forall_mem_cons

theorem every_append {as bs : List α} : Every P (as ++ bs) ↔ Every P as ∧ Every P bs :=
  forall_mem_append

theorem every_toList {xs : Array α} : Every P xs.toList ↔ Every P xs :=
  ⟨fun h a ha => h a (Array.mem_def.mp ha), fun h a ha => h a (Array.mem_def.mpr ha)⟩

theorem every_toArray {as : List α} (h : Every P as) : Every P as.toArray :=
  fun a ha => h a (mem_toArray.mp ha)

theorem every_sublist {as bs : List α} (h : Every P bs) (hsub : as.Sublist bs) : Every P as :=
  fun a ha => h a (hsub.subset ha)

theorem every_getD {o : Option α} {a : α} (ho : Every P o) (ha : Every P a) : Every P (o.getD a) := by
  cases o with
  | none => exact ha
  | some b => exact ho b rfl

theorem every_push {xs : Array α} {x : α} (hxs : Every P xs) (hx : Every P x) :
    Every P (xs.push x) := by
  intro a ha
  rcases Array.mem_push.mp ha with ha | rfl
  · exact hxs a ha
  · exact hx

theorem every_modify {xs : Array α} {i : Nat} {f : α → α} (hxs : Every P xs)
    (h : ∀ x, Every P x → Every P (f x)) : Every P (xs.modify i f) := by
  intro a ha
  obtain ⟨j, hj⟩ := Array.mem_iff_getElem?.mp ha
  rw [Array.getElem?_modify] at hj
  split at hj
  · obtain ⟨x, hx, rfl⟩ := Option.map_eq_some_iff.mp hj
    exact h x (hxs x (Array.mem_of_getElem? hx))
  · exact hxs a (Array.mem_of_getElem? hj)

theorem every_get? (h : Every P fs) (name : String) : Every P (fs.get? name) := by
  intro v hv
  induction fs with
  | nil => cases hv
  | cons f fs ih =>
    obtain ⟨hf, hfs⟩ := every_cons.mp h
    change List.lookup name ((f.1, f.2) :: fs) = some v at hv
    rw [lookup_cons] at hv
    split at hv
    · cases hv
      exact hf.2
    · exact ih hfs hv

theorem every_put (h : Every P fs) (name : String) (hv : Every P v) : Every P (fs.put name v) := by
  induction fs with
  | nil => exact every_cons.mpr ⟨⟨trivial, hv⟩, every_nil⟩
  | cons f fs ih =>
    obtain ⟨hf, hfs⟩ := every_cons.mp h
    change Every P (Fields.put ((f.1, f.2) :: fs) name v)
    unfold Fields.put
    split
    · exact every_cons.mpr ⟨⟨trivial, hv⟩, hfs⟩
    · exact every_cons.mpr ⟨hf, ih hfs⟩

theorem every_valuesOf (h : Every P m) (env : Nat) : Every P (m.valuesOf env) := by
  unfold valuesOf
  cases he : m.envs[env]? with
  | none => exact every_nil
  | some e => exact h.1 e (Array.mem_of_getElem? he)

theorem every_lookup? (h : Every P m) (env : Nat) (name : String) : Every P (m.lookup? env name) := by
  unfold lookup?
  cases m.home? env name with
  | none => exact nofun
  | some home => exact every_get? (every_valuesOf h home) name

theorem every_arrayOf (h : Every P m) (a : Nat) : Every P (m.arrayOf a) := by
  unfold arrayOf
  rw [Array.getD_eq_getD_getElem?]
  exact every_getD (fun vs hvs => h.2.1 vs (Array.mem_of_getElem? hvs)) fun v hv => by simp at hv

theorem every_elements (h : Every P m) (a : Nat) : Every P (m.elements a) :=
  every_toList.mpr (every_arrayOf h a)

theorem every_fields (h : Every P m) (o : Nat) : Every P (m.fields o) := by
  unfold fields
  rw [Array.getD_eq_getD_getElem?]
  exact every_getD (fun fs hfs => h.2.2 fs (Array.mem_of_getElem? hfs)) every_nil

theorem every_elementAt {vs : Array Value} (h : Every P vs) (i : Int) : Every P (elementAt vs i) := by
  unfold elementAt
  split
  · trivial
  · rw [Array.getD_eq_getD_getElem?]
    exact every_getD (fun v hv => h v (Array.mem_of_getElem? hv)) trivial

theorem every_arg (h : Every P vs) (i : Nat) : Every P (arg vs i) := by
  unfold arg
  rw [getD_eq_getElem?_getD]
  exact every_getD (fun v hv => h v (mem_of_getElem? hv)) trivial

theorem every_letters (s : String) : Every P (letters s) := by
  intro v hv
  obtain ⟨c, -, rfl⟩ := mem_map.mp hv
  trivial

theorem every_spread (hm : Every P m) (hv : Every P v) : Every P (m.spread v) := by
  cases v with
  | array r => exact every_elements hm r
  | _ => exact every_cons.mpr ⟨hv, every_nil⟩

theorem every_argumentList (hm : Every P m) (v : Value) : Every P (m.argumentList v) := by
  intro args h
  unfold argumentList at h
  split at h
  case h_4 n =>
    split at h
    · cases h
      exact every_nil
    · cases h
  case h_5 s =>
    cases h
    exact every_letters s
  case h_6 r =>
    cases h
    exact every_elements hm r
  case h_7 => cases h
  all_goals
    cases h
    exact every_nil

theorem every_writeAt {i : Nat} {vs : Array Value} (hv : Every P v) (hvs : Every P vs) :
    Every P (writeAt i v vs) := by
  unfold writeAt
  split
  · intro w hw
    rcases Array.mem_or_eq_of_mem_setIfInBounds hw with hw | rfl
    · exact hvs w hw
    · exact hv
  · refine every_push (every_toList.mp ?_) hv
    rw [Array.toList_appendList]
    refine every_append.mpr ⟨every_toList.mpr hvs, fun w hw => ?_⟩
    rw [eq_of_mem_replicate hw]
    trivial

/-- At the start all functions are of the library. -/
theorem every_start : Every P Machine.start := by
  have builtins (bs : List Builtin) : Every P (builtinFields bs) := by
    intro f hf
    obtain ⟨b, -, rfl⟩ := mem_map.mp hf
    exact ⟨trivial, trivial⟩
  refine ⟨fun e he => ?_, fun vs hvs => absurd hvs (Array.not_mem_empty vs), ?_⟩
  · cases Array.mem_singleton.mp he
    refine every_append.mpr ⟨every_append.mpr ⟨?_, fun f hf => ?_⟩, builtins _⟩
    · exact every_cons.mpr ⟨⟨trivial, trivial⟩, every_cons.mpr ⟨⟨trivial, trivial⟩,
        every_cons.mpr ⟨⟨trivial, trivial⟩, every_cons.mpr ⟨⟨trivial, trivial⟩, every_nil⟩⟩⟩⟩
    · obtain ⟨p, -, rfl⟩ := mem_map.mp hf
      exact ⟨trivial, trivial⟩
  · refine every_toArray ?_
    exact every_cons.mpr ⟨builtins _,
      every_cons.mpr ⟨every_cons.mpr ⟨⟨trivial, trivial⟩, builtins _⟩, every_cons.mpr ⟨builtins _,
        every_cons.mpr ⟨builtins _, every_cons.mpr ⟨builtins _, every_nil⟩⟩⟩⟩⟩

end Data

end StepBinding.Machine
