import StepBinding.Lower
import StepBinding.Proofs.Machine.Carried
import StepBinding.Proofs.Tree.All

/-! Machines and their lowered images. A machine that runs step bindings directly stores
functions whose code holds step bindings; its lowered image stores the same functions with
lowered code and is equal to it otherwise. Data that may carry code has a lowered image and
is ready if all the code in it can be lowered without loss. Looking up names and making texts
does not depend on code, so it commutes with lowering. -/

namespace StepBinding

open List

/-- A node that lowering keeps: not rejected, with at least one step, and a loop that starts
with a declaration or an expression. -/
def Node.Ready : Node → Prop
  | .expr (.rejected ..) | .stmt (.rejected ..) => False
  | .expr (.steps _ _ _ es _ _) | .stmt (.steps _ _ _ _ es _ _) => es ≠ []
  | .stmt (.forLoop _ init _ _ _) =>
    match init with
    | none | some (.declare ..) | some (.expr ..) => True
    | _ => False
  | _ => True

namespace Machine

/-- Data that may carry code, with its lowered image. -/
class Carrier (α : Type) where
  lower : α → α
  Ready : α → Prop

export Carrier (lower Ready)

section Instances

variable {α β : Type}

/-- Data without code. -/
abbrev Carrier.plain : Carrier α := ⟨id, fun _ => True⟩

instance : Carrier Unit := .plain
instance : Carrier Bool := .plain
instance : Carrier Nat := .plain
instance : Carrier Int := .plain
instance : Carrier Char := .plain
instance : Carrier String := .plain
instance : Carrier Number := .plain
instance : Carrier Float := .plain

instance [Carrier α] : Carrier (List α) := ⟨List.map lower, fun l => ∀ a ∈ l, Ready a⟩
instance [Carrier α] : Carrier (Array α) := ⟨Array.map lower, fun l => ∀ a ∈ l, Ready a⟩
instance [Carrier α] : Carrier (Option α) := ⟨Option.map lower, fun o => ∀ a ∈ o, Ready a⟩
instance [Carrier α] [Carrier β] : Carrier (α × β) :=
  ⟨Prod.map lower lower, fun p => Ready p.1 ∧ Ready p.2⟩

/-- Data without code is its own image. -/
class Plain (α : Type) [Carrier α] [Holder α] : Prop where
  lower_eq : ∀ a : α, lower a = a
  every : ∀ (P : Closure → Prop) (a : α), Every P a

instance : Plain Unit := ⟨fun _ => rfl, fun _ _ => trivial⟩
instance : Plain Bool := ⟨fun _ => rfl, fun _ _ => trivial⟩
instance : Plain Nat := ⟨fun _ => rfl, fun _ _ => trivial⟩
instance : Plain Int := ⟨fun _ => rfl, fun _ _ => trivial⟩
instance : Plain Char := ⟨fun _ => rfl, fun _ _ => trivial⟩
instance : Plain String := ⟨fun _ => rfl, fun _ _ => trivial⟩
instance : Plain Number := ⟨fun _ => rfl, fun _ _ => trivial⟩
instance : Plain Float := ⟨fun _ => rfl, fun _ _ => trivial⟩

instance [Carrier α] [Holder α] [Plain α] : Plain (List α) :=
  ⟨fun l => (map_congr_left fun a _ => Plain.lower_eq a).trans (map_id l),
    fun P _ a _ => Plain.every P a⟩

instance [Carrier α] [Holder α] [Plain α] : Plain (Option α) :=
  ⟨fun o => by cases o <;> simp only [lower, Option.map, Plain.lower_eq],
    fun P _ a _ => Plain.every P a⟩

section Lists

variable [Carrier α]

@[simp] theorem lower_nil : lower ([] : List α) = [] := rfl

@[simp] theorem lower_cons (a : α) (as : List α) : lower (a :: as) = lower a :: lower as := rfl

@[simp] theorem lower_append (as bs : List α) : lower (as ++ bs) = lower as ++ lower bs :=
  map_append

@[simp] theorem length_lower (as : List α) : (lower as).length = as.length := length_map _

@[simp] theorem size_lower (xs : Array α) : (lower xs).size = xs.size := Array.size_map

theorem toList_lower (xs : Array α) : (lower xs).toList = lower xs.toList := Array.toList_map

theorem lower_modify {xs : Array α} {i : Nat} {f g : α → α} (h : ∀ x, g (lower x) = lower (f x)) :
    (lower xs).modify i g = lower (xs.modify i f) := by
  apply Array.ext_getElem?
  intro j
  change ((xs.map lower).modify i g)[j]? = ((xs.modify i f).map lower)[j]?
  rw [Array.getElem?_modify, Array.getElem?_map, Array.getElem?_map, Array.getElem?_modify]
  split
  · cases xs[j]? with
    | none => rfl
    | some x => exact congrArg some (h x)
  · rfl

theorem lower_toArray (as : List α) : lower as.toArray = (lower as).toArray := map_toArray

end Lists

end Instances

instance : Carrier Body where
  lower
    | .statements ss => .statements (Lower.stmts .es2015 ss)
    | .expression e => .expression (Lower.expr .es2015 e)
  Ready
    | .statements ss => Tree.AllStmts Node.Ready ss
    | .expression e => Tree.AllExpr Node.Ready e

instance : Carrier Closure := ⟨fun c => { c with body := lower c.body }, fun c => Ready c.body⟩

namespace Callable

def lowered : Callable → Callable
  | .closure c => .closure (lower c)
  | .callOf f => .callOf (lowered f)
  | .applyOf f => .applyOf (lowered f)
  | f => f

def IsReady : Callable → Prop
  | .closure c => Ready c
  | .callOf f | .applyOf f => IsReady f
  | _ => True

end Callable

instance : Carrier Callable := ⟨Callable.lowered, Callable.IsReady⟩

instance : Carrier Value where
  lower
    | .function id f => .function id (lower f)
    | v => v
  Ready
    | .function _ f => Ready f
    | _ => True

instance : Carrier Items where
  lower
    | .fixed vs => .fixed (lower vs)
    | .live a => .live a
  Ready
    | .fixed vs => Ready vs
    | .live _ => True

instance : Carrier Exit where
  lower
    | .thrown v shown => .thrown (lower v) shown
    | .returned v => .returned (lower v)
    | e => e
  Ready
    | .thrown v _ | .returned v => Ready v
    | _ => True

instance : Carrier Environment :=
  ⟨fun e => { e with values := lower e.values }, fun e => Ready e.values⟩

instance : Carrier Machine where
  lower m :=
    { m with envs := lower m.envs, arrays := lower m.arrays, objects := lower m.objects }
  Ready m := Ready m.envs ∧ Ready m.arrays ∧ Ready m.objects

instance {α : Type} [Carrier α] : Carrier (EStateM.Result Exit Machine α) where
  lower
    | .ok a m => .ok (lower a) (lower m)
    | .error e m => .error (lower e) (lower m)
  Ready
    | .ok a m => Ready a ∧ Ready m
    | .error e m => Ready e ∧ Ready m

section Lookup

variable {m : Machine}

@[simp] theorem name_lower (f : Callable) : (lower f).name = f.name := by cases f <;> rfl

theorem get?_lower (fs : Fields) (name : String) : (lower fs).get? name = lower (fs.get? name) := by
  induction fs with
  | nil => rfl
  | cons f fs ih =>
    change List.lookup name ((f.1, lower f.2) :: lower fs) = lower (List.lookup name ((f.1, f.2) :: fs))
    rw [lookup_cons, lookup_cons]
    split
    · rfl
    · exact ih

theorem put_lower (fs : Fields) (name : String) (v : Value) :
    (lower fs).put name (lower v) = lower (fs.put name v) := by
  induction fs with
  | nil => rfl
  | cons f fs ih =>
    change Fields.put ((f.1, lower f.2) :: lower fs) name (lower v) =
      lower (Fields.put ((f.1, f.2) :: fs) name v)
    unfold Fields.put
    split
    · rfl
    · rw [ih]; rfl

theorem envs_lower (env : Nat) : (lower m).envs[env]? = lower m.envs[env]? :=
  Array.getElem?_map

@[simp] theorem size_envs_lower : (lower m).envs.size = m.envs.size := Array.size_map

theorem valuesOf_lower (env : Nat) : (lower m).valuesOf env = lower (m.valuesOf env) := by
  unfold valuesOf
  rw [envs_lower]
  cases m.envs[env]? <;> rfl

theorem isSome_get?_lower (e : Environment) (name : String) :
    ((lower e).values.get? name).isSome = (e.values.get? name).isSome := by
  change ((lower e.values).get? name).isSome = _
  rw [get?_lower]
  exact Option.isSome_map

theorem home?_lower (env : Nat) (name : String) : (lower m).home? env name = m.home? env name := by
  rw [home?, home?, envs_lower]
  cases m.envs[env]? with
  | none => rfl
  | some e =>
    rw [show lower (some e) = some (lower e) from rfl]
    dsimp only
    rw [isSome_get?_lower, show (lower e).parent = e.parent from rfl]
    congr 1
    cases e.parent with
    | none => rfl
    | some parent =>
      dsimp only
      split
      · exact home?_lower parent name
      · rfl
termination_by env

theorem lookup?_lower (env : Nat) (name : String) :
    (lower m).lookup? env name = lower (m.lookup? env name) := by
  unfold lookup?
  rw [home?_lower]
  cases m.home? env name with
  | none => rfl
  | some home =>
    change ((lower m).valuesOf home).get? name = lower ((m.valuesOf home).get? name)
    rw [valuesOf_lower, get?_lower]

theorem arrayOf_lower (a : Nat) : (lower m).arrayOf a = lower (m.arrayOf a) := by
  have h : (lower m).arrays[a]? = lower m.arrays[a]? := Array.getElem?_map
  unfold arrayOf
  rw [Array.getD_eq_getD_getElem?, Array.getD_eq_getD_getElem?, h]
  cases m.arrays[a]? with
  | none => exact Array.map_empty.symm
  | some vs => rfl

theorem elements_lower (a : Nat) : (lower m).elements a = lower (m.elements a) := by
  unfold elements
  rw [arrayOf_lower]
  exact Array.toList_map

theorem fields_lower (o : Nat) : (lower m).fields o = lower (m.fields o) := by
  have h : (lower m).objects[o]? = lower m.objects[o]? := Array.getElem?_map
  unfold fields
  rw [Array.getD_eq_getD_getElem?, Array.getD_eq_getD_getElem?, h]
  cases m.objects[o]? <;> rfl

end Lookup

section Text

variable {m : Machine}

@[simp] theorem typeName_lower (v : Value) : (lower v).typeName = v.typeName := by cases v <;> rfl
@[simp] theorem isNullish_lower (v : Value) : (lower v).isNullish = v.isNullish := by
  cases v <;> rfl
@[simp] theorem truthy_lower (v : Value) : (lower v).truthy = v.truthy := by cases v <;> rfl

@[simp] theorem same_lower (v w : Value) : (lower v).same (lower w) = v.same w := by
  cases v <;> cases w <;> rfl

@[simp] theorem plainText_lower (v : Value) : plainText (lower v) = plainText v := by
  cases v with
  | function id f =>
    change Except.ok ("function " ++ (lower f).name ++ _) = _
    rw [name_lower]
    rfl
  | _ => rfl

@[simp] theorem depth_lower : (lower m).depth = m.depth := by
  change (lower m.arrays).size + (lower m.objects).size + 1 = _
  rw [show (lower m.arrays).size = m.arrays.size from Array.size_map,
    show (lower m.objects).size = m.objects.size from Array.size_map]
  rfl

theorem mapM_lower {α β : Type} [Carrier α] {f g : α → Except Number.Fault β}
    (h : ∀ a, g (lower a) = f a) (as : List α) : (lower as).mapM g = as.mapM f := by
  induction as with
  | nil => rfl
  | cons a as ih =>
    change (lower a :: lower as).mapM g = _
    rw [mapM_cons, mapM_cons, h, ih]

theorem textWithin_lower (d : Nat) (v : Value) :
    (lower m).textWithin d (lower v) = m.textWithin d v := by
  induction d generalizing v with
  | zero => cases v <;> exact plainText_lower _
  | succ d ih =>
    cases v with
    | array r =>
      change (lower m).textWithin (d + 1) (.array r) = m.textWithin (d + 1) (.array r)
      rw [textWithin, textWithin, elements_lower, mapM_lower fun v => by rw [isNullish_lower, ih v]]
    | object r =>
      change (lower m).textWithin (d + 1) (.object r) = m.textWithin (d + 1) (.object r)
      rw [textWithin, textWithin, fields_lower, get?_lower, get?_lower]
      cases (m.fields r).get? "message" <;> cases (m.fields r).get? "name"
      case some.some message name =>
        change (do return (← textWithin (lower m) d (lower name)) ++ ": "
          ++ (← textWithin (lower m) d (lower message))) = _
        rw [ih, ih]
      all_goals rfl
    | _ => exact plainText_lower _

theorem text_lower (v : Value) : (lower m).text (lower v) = m.text v := by
  rw [text, depth_lower]
  exact textWithin_lower _ v

theorem displayWithin_lower (d : Nat) (v : Value) :
    (lower m).displayWithin d (lower v) = m.displayWithin d v := by
  induction d generalizing v with
  | zero =>
    cases v with
    | function id f =>
      change Except.ok (functionDisplay (lower f)) = Except.ok (functionDisplay f)
      rw [functionDisplay, name_lower]
      rfl
    | _ => rfl
  | succ d ih =>
    cases v with
    | function id f =>
      change Except.ok (functionDisplay (lower f)) = Except.ok (functionDisplay f)
      rw [functionDisplay, name_lower]
      rfl
    | array r =>
      change displayWithin (lower m) (d + 1) (.array r) = displayWithin m (d + 1) (.array r)
      rw [displayWithin, displayWithin, elements_lower]
      cases m.elements r with
      | nil => rfl
      | cons v vs =>
        change (do
          let shown ← (lower (v :: vs)).mapM (displayWithin (lower m) d)
          return "[ " ++ ", ".intercalate shown ++ " ]") = _
        rw [mapM_lower ih]
    | object r =>
      change displayWithin (lower m) (d + 1) (.object r) = displayWithin m (d + 1) (.object r)
      rw [displayWithin, displayWithin, fields_lower]
      cases m.fields r with
      | nil => rfl
      | cons f fs =>
        change (do
          let shown ← (lower (f :: fs)).mapM fun (f : String × Value) => do
            return f.1 ++ ": " ++ (← displayWithin (lower m) d f.2)
          return "\x7b " ++ ", ".intercalate shown ++ " \x7d") = _
        rw [mapM_lower fun f : String × Value =>
          congrArg (fun x : Except Number.Fault String => do return f.1 ++ ": " ++ (← x)) (ih f.2)]
    | _ => rfl

theorem display_lower (v : Value) : (lower m).display (lower v) = m.display v := by
  cases v with
  | string s => rfl
  | _ => exact (congrArg (displayWithin (lower m) · _) depth_lower).trans (displayWithin_lower _ _)

theorem jsonWithin_lower (d : Nat) (v : Value) :
    (lower m).jsonWithin d (lower v) = m.jsonWithin d v := by
  induction d generalizing v with
  | zero => cases v <;> rfl
  | succ d ih =>
    cases v with
    | array r =>
      change jsonWithin (lower m) (d + 1) (.array r) = jsonWithin m (d + 1) (.array r)
      rw [jsonWithin, jsonWithin, elements_lower, mapM_lower fun v =>
        congrArg (fun x : Except Number.Fault (Option String) => do return (← x).getD "null") (ih v)]
    | object r =>
      change jsonWithin (lower m) (d + 1) (.object r) = jsonWithin m (d + 1) (.object r)
      rw [jsonWithin, jsonWithin, fields_lower, mapM_lower fun f : String × Value =>
        congrArg (fun x : Except Number.Fault (Option String) => do
          return (← x).map fun t => jsonString f.1 ++ ":" ++ t) (ih f.2)]
    | _ => rfl

theorem json?_lower (v : Value) : (lower m).json? (lower v) = m.json? v := by
  rw [json?, depth_lower]
  exact jsonWithin_lower _ v

theorem numeric_lower (v : Value) : (lower m).numeric (lower v) = m.numeric v := by
  cases v with
  | array r => exact congrArg (Number.ofText <$> ·) (text_lower (m := m) (.array r))
  | _ => rfl

theorem alike_lower (v w : Value) : (lower m).alike (lower v) (lower w) = m.alike v w := by
  simp only [alike, isReference, isNullish_lower, typeName_lower, same_lower, text_lower,
    numeric_lower]
  rfl

end Text

end Machine
end StepBinding
