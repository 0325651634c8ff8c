import StepBinding.Proofs.Resolve.Bindings
import StepBinding.Proofs.Resolve.Traces

/-! Early uses of a binding. A reference that nothing binds and that stands in the first step of a
step binding of its name is an early use of that step binding, of the innermost one if there are
several. The errors of a visit are those of the early uses, one for each, and a step binding is
rejected if it has an early use. -/

namespace StepBinding

open List StepBinding.Tree Node Resolve

variable {place : List Nat} {ref ref' : Reference} {n : Node} {i : Nat} {binding : String}
  {span : Span}

/-- What is not bound after some binders either. -/
def Beyond (unbound : String → Prop) (bs : List Binder) (name : String) : Prop :=
  unbound name ∧ ∀ b ∈ bs, b.binds name = false

theorem beyond_nil (unbound : String → Prop) : Beyond unbound [] = unbound :=
  funext fun _ => propext ⟨And.left, fun h => ⟨h, nofun⟩⟩

theorem beyond_append (unbound : String → Prop) (trail bs : List Binder) :
    Beyond unbound (trail ++ bs) = Beyond (Beyond unbound bs) trail := by
  funext name
  simp only [Beyond, mem_append, or_imp, forall_and, eq_iff_iff]
  tauto

section Uses

variable (reach : List Nat → Option Node.Part) (unbound : String → Prop)

/-- A reference stands at a place, and nothing there binds its name. -/
def Loose (place : List Nat) (ref : Reference) : Prop :=
  ∃ trail, reach place = some (trail, .expr (.identifier ref.span ref.name)) ∧
    Beyond unbound trail ref.name

/-- A step binding with the given number and binding stands at the place `way`, and the other place
is in its first step. -/
def InFirst (way place : List Nat) (i : Nat) (name : String) : Prop :=
  ∃ trail c span es, reach way = some (trail, c) ∧ c.Steps span name i es ∧ way ++ [0] <+: place

/-- The reference at a place is an early use of the step binding at the place `way`: it is spelled as
the binding, nothing binds it, and it is in the first step, but not in the first step of another
step binding of the same name that stands there. -/
structure EarlyUse (i : Nat) (way place : List Nat) (ref : Reference) : Prop where
  loose : Loose reach unbound place ref
  inFirst : InFirst reach way place i ref.name
  innermost : ∀ way' j, InFirst reach way' place j ref.name → ¬way ++ [0] <+: way'

/-- A reference that nothing binds and that is no early use. -/
structure Free (place : List Nat) (ref : Reference) : Prop where
  loose : Loose reach unbound place ref
  outside : ∀ way i, ¬InFirst reach way place i ref.name

end Uses

/-- At one place there is one reference. -/
theorem Loose.unique {reach : List Nat → Option Node.Part} {unbound : String → Prop}
    (h : Loose reach unbound place ref) (h' : Loose reach unbound place ref') : ref = ref' := by
  obtain ⟨trail, hreach, -⟩ := h
  obtain ⟨trail', hreach', -⟩ := h'
  have heq := hreach.symm.trans hreach'
  simp only [Option.some.injEq, Prod.mk.injEq, Node.expr.injEq, Expr.identifier.injEq] at heq
  obtain ⟨name, span⟩ := ref
  obtain ⟨name', span'⟩ := ref'
  obtain ⟨-, rfl, rfl⟩ := heq
  rfl

/-- A reference is an early use of one step binding only. -/
theorem EarlyUse.unique {reach : List Nat → Option Node.Part} {unbound : String → Prop} {i' : Nat}
    {way way' : List Nat} (h : EarlyUse reach unbound i way place ref)
    (h' : EarlyUse reach unbound i' way' place ref') : i = i' ∧ way = way' ∧ ref = ref' := by
  have hinner {i j : Nat} {way way' : List Nat} (h : EarlyUse reach unbound i way place ref)
      (h' : InFirst reach way' place j ref.name) (hle : way.length ≤ way'.length) : way = way' := by
    have ⟨_, _, _, _, _, _, hprefix⟩ := h.inFirst
    have ⟨_, _, _, _, _, _, hprefix'⟩ := h'
    have hcomparable := prefix_of_prefix_length_le hprefix hprefix' (by simpa using hle)
    rcases prefix_concat_iff.mp hcomparable with heq | hlt
    · exact (append_inj' heq rfl).1
    · exact absurd hlt (h.innermost way' j h')
  obtain rfl := h.loose.unique h'.loose
  have hway : way = way' := by
    rcases Nat.le_total way.length way'.length with hle | hle
    · exact hinner h h'.inFirst hle
    · exact (hinner h' h.inFirst hle).symm
  subst hway
  obtain ⟨trail, c, span, es, hreach, hc, -⟩ := h.inFirst
  obtain ⟨trail', c', span', es', hreach', hc', -⟩ := h'.inFirst
  cases hreach.symm.trans hreach'
  exact ⟨(hc.unique hc').2.2.1, rfl, rfl⟩

section Parts

variable {unbound : String → Prop} {n part : Node} {bs : List Binder} {i j : Nat}
  {way place rest : List Nat} {ref : Reference} {name : String}

theorem loose_nil : Loose n.reach unbound [] ref ↔
    n = .expr (.identifier ref.span ref.name) ∧ unbound ref.name := by
  constructor
  · rintro ⟨trail, h, hunbound, -⟩
    cases h
    exact ⟨rfl, hunbound⟩
  · rintro ⟨rfl, h⟩
    exact ⟨[], rfl, h, nofun⟩

theorem inFirst_nil : ¬InFirst n.reach way [] i name := by
  rintro ⟨trail, c, span, es, -, -, h⟩
  simpa using prefix_nil.mp h

variable (hpart : n.parts[j]? = some (bs, part))

include hpart

theorem loose_cons : Loose n.reach unbound (j :: rest) ref ↔
    Loose part.reach (Beyond unbound bs) rest ref := by
  unfold Loose
  simp only [reach_cons, hpart, Option.some.injEq, Prod.mk.injEq]
  constructor
  · rintro ⟨_, ⟨_, _, trail, ⟨rfl, rfl⟩, h, rfl⟩, hunbound, hbinds⟩
    exact ⟨trail, h, ⟨hunbound, fun b hb => hbinds b (mem_append_right _ hb)⟩,
      fun b hb => hbinds b (mem_append_left _ hb)⟩
  · rintro ⟨trail, h, ⟨hunbound, hbs⟩, htrail⟩
    refine ⟨_, ⟨_, _, trail, ⟨rfl, rfl⟩, h, rfl⟩, hunbound, fun b hb => ?_⟩
    exact (mem_append.mp hb).elim (htrail b) (hbs b)

theorem inFirst_cons : InFirst n.reach way (j :: rest) i name ↔
    (way = [] ∧ j = 0 ∧ ∃ span es, n.Steps span name i es) ∨
      ∃ way', way = j :: way' ∧ InFirst part.reach way' rest i name := by
  constructor
  · rintro ⟨trail, c, span, es, hreach, hc, hprefix⟩
    cases way with
    | nil =>
      cases hreach
      exact .inl ⟨rfl, (cons_prefix_cons.mp hprefix).1.symm, span, es, hc⟩
    | cons k way =>
      obtain ⟨rfl, hrest⟩ := cons_prefix_cons.mp hprefix
      obtain ⟨_, _, trail', hpart', hreach', -⟩ := reach_cons.mp hreach
      cases hpart.symm.trans hpart'
      exact .inr ⟨way, rfl, trail', c, span, es, hreach', hc, hrest⟩
  · rintro (⟨rfl, rfl, span, es, hn⟩ | ⟨way, rfl, trail, c, span, es, hreach, hc, hprefix⟩)
    · exact ⟨[], n, span, es, rfl, hn, cons_prefix_cons.mpr ⟨rfl, nil_prefix⟩⟩
    · exact ⟨_, c, span, es, reach_cons.mpr ⟨_, _, trail, hpart, hreach, rfl⟩, hc,
        cons_prefix_cons.mpr ⟨rfl, hprefix⟩⟩

theorem free_cons : Free n.reach unbound (j :: rest) ref ↔
    Free part.reach (Beyond unbound bs) rest ref ∧
      ¬(j = 0 ∧ ∃ span i es, n.Steps span ref.name i es) := by
  constructor
  · intro h
    refine ⟨⟨(loose_cons hpart).mp h.loose, fun way i hin => ?_⟩, ?_⟩
    · exact h.outside (j :: way) i ((inFirst_cons hpart).mpr (.inr ⟨way, rfl, hin⟩))
    · rintro ⟨rfl, span, i, es, hn⟩
      exact h.outside [] i ((inFirst_cons hpart).mpr (.inl ⟨rfl, rfl, span, es, hn⟩))
  · rintro ⟨h, hn⟩
    refine ⟨(loose_cons hpart).mpr h.loose, fun way i hin => ?_⟩
    rcases (inFirst_cons hpart).mp hin with ⟨-, hj, span, es, hsteps⟩ | ⟨way, -, hin⟩
    · exact hn ⟨hj, span, i, es, hsteps⟩
    · exact h.outside way i hin

/-- An early use in a part is one of a step binding of the part, or of the node itself. -/
theorem earlyUse_cons : EarlyUse n.reach unbound i way (j :: rest) ref ↔
    (∃ way', way = j :: way' ∧ EarlyUse part.reach (Beyond unbound bs) i way' rest ref) ∨
      (way = [] ∧ j = 0 ∧ (∃ span es, n.Steps span ref.name i es) ∧
        Free part.reach (Beyond unbound bs) rest ref) := by
  have hinside {way' : List Nat} {k : Nat} (h : InFirst part.reach way' rest k ref.name) :
      InFirst n.reach (j :: way') (j :: rest) k ref.name :=
    (inFirst_cons hpart).mpr (.inr ⟨way', rfl, h⟩)
  constructor
  · intro h
    have hloose := (loose_cons hpart).mp h.loose
    rcases (inFirst_cons hpart).mp h.inFirst with ⟨rfl, rfl, hn⟩ | ⟨way', rfl, hin⟩
    · refine .inr ⟨rfl, rfl, hn, hloose, fun way' k hin => ?_⟩
      exact h.innermost _ k (hinside hin) (cons_prefix_cons.mpr ⟨rfl, nil_prefix⟩)
    · refine .inl ⟨way', rfl, hloose, hin, fun way'' k hin' hprefix => ?_⟩
      exact h.innermost _ k (hinside hin') (cons_prefix_cons.mpr ⟨rfl, hprefix⟩)
  · rintro (⟨way', rfl, h⟩ | ⟨rfl, rfl, ⟨span, es, hn⟩, h⟩)
    · refine ⟨(loose_cons hpart).mpr h.loose, hinside h.inFirst, fun way'' k hin hprefix => ?_⟩
      rcases (inFirst_cons hpart).mp hin with ⟨rfl, -⟩ | ⟨way1, rfl, hin1⟩
      · simp at hprefix
      · exact h.innermost way1 k hin1 (cons_prefix_cons.mp hprefix).2
    · refine ⟨(loose_cons hpart).mpr h.loose, (inFirst_cons hpart).mpr (.inl ⟨rfl, rfl, span, es, hn⟩),
        fun way' k hin hprefix => ?_⟩
      rcases (inFirst_cons hpart).mp hin with ⟨rfl, -⟩ | ⟨way1, rfl, hin1⟩
      · simp at hprefix
      · exact h.outside way1 k hin1

omit hpart

/-- The early uses of a step binding below are those that it has by itself. -/
theorem earlyUse_of_reach {x : Node} {trail : List Binder} (h : n.reach way = some (trail, x)) :
    EarlyUse n.reach unbound i way place ref ↔
      ∃ rest, place = way ++ rest ∧ EarlyUse x.reach (Beyond unbound trail) i [] rest ref := by
  induction way generalizing n unbound place trail with
  | nil =>
    cases h
    rw [beyond_nil]
    exact ⟨fun h => ⟨place, rfl, h⟩, fun ⟨rest, hplace, h⟩ => hplace ▸ h⟩
  | cons j way ih =>
    obtain ⟨bs, part, trail', hpart, hreach, rfl⟩ := reach_cons.mp h
    rw [beyond_append]
    constructor
    · intro huse
      obtain ⟨_, _, _, _, -, -, hprefix⟩ := huse.inFirst
      obtain ⟨rest, rfl⟩ := hprefix
      rcases (earlyUse_cons hpart).mp huse with ⟨way', heq, huse⟩ | ⟨heq, -⟩
      · cases heq
        obtain ⟨rest', hrest, huse⟩ := (ih hreach).mp huse
        exact ⟨rest', congrArg (j :: ·) hrest, huse⟩
      · cases heq
    · rintro ⟨rest, rfl, huse⟩
      exact (earlyUse_cons hpart).mpr (.inl ⟨way, rfl, (ih hreach).mpr ⟨rest, rfl, huse⟩⟩)

end Parts

section Visit

variable {ctx : Context} {scope inner : Scope} {bs : List Binder}

/-- What a scope does not bind. -/
def Scope.Unbound (scope : Scope) (name : String) : Prop := scope.lookup name = none

theorem Resolve.Entered.unbound (h : Entered ctx scope bs inner) :
    inner.Unbound = Beyond scope.Unbound bs := by
  funext name
  have h := h name
  unfold Scope.Unbound Beyond
  cases hfind : bs.find? fun b => b.binds name with
  | none =>
    rw [hfind] at h
    have hnone := find?_eq_none.mp hfind
    simp only at h
    simp only [h, eq_iff_iff]
    exact ⟨fun h => ⟨h, fun b hb => by simpa using hnone b hb⟩, And.left⟩
  | some b =>
    rw [hfind] at h
    have hb := find?_some hfind
    have hmem := mem_of_find?_eq_some hfind
    have hsome : inner.lookup name ≠ none := by
      cases b with
      | names | later => obtain ⟨c, hc, -⟩ := h; simp [hc]
    refine propext ⟨fun h => absurd h hsome, fun h => ?_⟩
    rw [h.2 b hmem] at hb
    cases hb

theorem Loose.below {unbound : String → Prop} (h : Loose n.reach unbound place ref)
    (hn : ∀ span name, n ≠ .expr (.identifier span name)) :
    ∃ j rest, j < n.parts.length ∧ place = j :: rest := by
  cases place with
  | nil => exact absurd (loose_nil.mp h).1 (hn _ _)
  | cons j rest =>
    obtain ⟨trail, hreach, -⟩ := h
    obtain ⟨bs, part, -, hpart, -⟩ := reach_cons.mp hreach
    exact ⟨j, rest, (List.getElem?_eq_some_iff.mp hpart).1, rfl⟩

theorem located_identifier (span : Span) (name : String) :
    Located (trace ctx scope (.expr (.identifier span name))).unresolved
      (Free (Node.expr (.identifier span name)).reach scope.Unbound) := by
  have hfree (place : List Nat) (ref : Reference) :
      Free (Node.expr (.identifier span name)).reach scope.Unbound place ref ↔
        (place = [] ∧ ref = ⟨name, span⟩) ∧ scope.Unbound name := by
    constructor
    · intro h
      cases place with
      | nil =>
        obtain ⟨heq, hunbound⟩ := loose_nil.mp h.loose
        cases heq
        exact ⟨⟨rfl, rfl⟩, hunbound⟩
      | cons j rest =>
        obtain ⟨trail, hreach, -⟩ := h.loose
        cases hreach
    · rintro ⟨⟨rfl, rfl⟩, hunbound⟩
      exact ⟨loose_nil.mpr ⟨rfl, hunbound⟩, fun way i => inFirst_nil⟩
  refine Located.congr ?_ fun place ref => (hfree place ref).symm
  rw [trace_identifier]
  unfold Scope.Unbound
  cases hlookup : scope.lookup name with
  | none => exact (Located.single [] (Reference.mk name span)).congr fun _ _ => (and_iff_left rfl).symm
  | some b => exact .nil fun _ _ h => nomatch h.2

/-- The references of a visit that mean nothing are those that are free and no early uses. -/
theorem located_unresolved (n : Node) (scope : Scope) (hn : n.Filled) :
    Located (trace ctx scope n).unresolved (Free n.reach scope.Unbound) := by
  induction n using induction_parts generalizing scope with | step n ih
  have hpart {j : Nat} {q : Node.Part} (hq : n.parts[j]? = some q) (inner : Scope) :
      Located (trace ctx inner q.2).unresolved (Free q.2.reach inner.Unbound) :=
    ih q (mem_of_getElem? hq) inner (hn.part (mem_of_getElem? hq))
  rcases hn.cases with ⟨span, name, rfl⟩ | ⟨hc, hid⟩ | ⟨span, binding, i, first, later, hsteps⟩
  · exact located_identifier span name
  · refine located_trace rfl (fun _ _ => rfl) hc hid (fun j q hq inner hentered => ?_)
      fun place ref h => h.loose.below hid
    refine (hpart hq inner).congr fun rest ref => ?_
    rw [free_cons hq, hentered.unbound]
    refine (and_iff_left ?_).symm
    rintro ⟨-, span, i, es, hsteps⟩
    rw [hsteps.construct?] at hc
    cases hc
  · have hzero : n.parts[0]? = some (free (.expr first)) := by rw [hsteps.parts_eq]; rfl
    have hfirst := ((hpart hzero scope).filter fun ref => ref.name != binding).under 0
    have hlater := located_later ctx scope (f := Trace.unresolved)
      (T := Free n.reach scope.Unbound) hsteps rfl (fun _ _ => rfl) fun j q hq inner hentered => by
        refine (hpart hq inner).congr fun rest ref => ?_
        rw [free_cons hq, hentered.unbound]
        exact (and_iff_left fun h => absurd h.1 (Nat.succ_ne_zero j)).symm
    rw [trace_steps hsteps]
    refine (hfirst.append hlater ?_).congr fun place ref => ?_
    · rintro _ a a' ⟨rest, rfl, -⟩ ⟨j, rest', -, heq, -⟩
      cases heq
    constructor
    · rintro (⟨rest, rfl, hfree, hne⟩ | ⟨j, rest, -, rfl, hfree⟩)
      · refine (free_cons hzero).mpr ⟨by rwa [beyond_nil], ?_⟩
        rintro ⟨-, _, _, _, hsteps'⟩
        simp [(hsteps.unique hsteps').2.1] at hne
      · exact hfree
    · intro hfree
      obtain ⟨j, rest, hj, rfl⟩ := hfree.loose.below hsteps.ne_identifier
      cases j with
      | zero =>
        obtain ⟨hfirst, hne⟩ := (free_cons hzero).mp hfree
        refine .inl ⟨rest, rfl, by rwa [beyond_nil] at hfirst, ?_⟩
        simp only [bne_iff_ne, ne_eq]
        rintro rfl
        exact hne ⟨rfl, _, _, _, hsteps⟩
      | succ j => exact .inr ⟨j, rest, hj, rfl, hfree⟩

/-- The errors that are met. -/
def Resolve.Trace.errors (t : Trace) : List Diagnostic := t.diagnostics.filter Diagnostic.isError

theorem errors_settle {first : Visit Expr} {later : Visit (List Expr)} :
    (settle ctx scope binding span i first later).trace.errors =
      first.trace.errors ++ later.trace.errors ++
        (first.unresolved.filter fun ref => ref.name == binding).map earlyUse := by
  have hwarn : (warn ctx scope binding span i).diagnostics.filter Diagnostic.isError = [] := by
    unfold warn
    split
    · split <;> rfl
    · rfl
  have hown (refs : List Reference) :
      (refs.map earlyUse).filter Diagnostic.isError = refs.map earlyUse :=
    filter_eq_self.mpr fun d hd => by
      obtain ⟨ref, -, rfl⟩ := mem_map.mp hd
      rfl
  change List.filter _ (_ ++ _ ++ _ ++ _) = _
  rw [filter_append, filter_append, filter_append, hwarn, hown]
  rfl

/-- The errors of a visit are those of the early uses. -/
theorem located_errors (n : Node) (scope : Scope) (hn : n.Filled) :
    Located (trace ctx scope n).errors fun place d =>
      ∃ i way ref, EarlyUse n.reach scope.Unbound i way place ref ∧ d = earlyUse ref := by
  induction n using induction_parts generalizing scope with | step n ih
  have hpart {j : Nat} {q : Node.Part} (hq : n.parts[j]? = some q) {inner : Scope}
      (hentered : Entered ctx scope q.1 inner) (hhere : j ≠ 0 ∨ construct? n = none) :
      Located (trace ctx inner q.2).errors fun rest d => ∃ i way ref,
        EarlyUse n.reach scope.Unbound i way (j :: rest) ref ∧ d = earlyUse ref := by
    refine (ih q (mem_of_getElem? hq) inner (hn.part (mem_of_getElem? hq))).congr
      fun rest d => ⟨?_, ?_⟩
    · rintro ⟨i, way, ref, huse, hd⟩
      rw [hentered.unbound] at huse
      exact ⟨i, j :: way, ref, (earlyUse_cons hq).mpr (.inl ⟨way, rfl, huse⟩), hd⟩
    · rintro ⟨i, way, ref, huse, hd⟩
      rcases (earlyUse_cons hq).mp huse with ⟨way', -, huse⟩ | ⟨-, hj, ⟨span, es, hsteps⟩, -⟩
      · rw [← hentered.unbound] at huse
        exact ⟨i, way', ref, huse, hd⟩
      · rcases hhere with hne | hnone
        · exact absurd hj hne
        · rw [hsteps.construct?] at hnone
          cases hnone
  have happend (t t' : Trace) : (t ++ t').errors = t.errors ++ t'.errors := filter_append ..
  rcases hn.cases with ⟨span, name, rfl⟩ | ⟨hc, hid⟩ | ⟨span, binding, i, first, later, hsteps⟩
  · rw [trace_identifier]
    refine .nil ?_
    rintro place d ⟨i, way, ref, huse, -⟩
    cases place with
    | nil => exact inFirst_nil huse.inFirst
    | cons j rest =>
      obtain ⟨trail, hreach, -⟩ := huse.loose
      cases hreach
  · exact located_trace (f := Trace.errors) rfl happend hc hid
      (fun j q hq inner hentered => hpart hq hentered (.inr hc))
      (by rintro place d ⟨_, _, _, huse, -⟩; exact huse.loose.below hid)
  · have hzero : n.parts[0]? = some (free (.expr first)) := by rw [hsteps.parts_eq]; rfl
    have hmem := mem_of_getElem? hzero
    have hfirst := (ih _ hmem scope (hn.part hmem)).under 0
    have hlater := located_later ctx scope (f := Trace.errors)
      (T := fun place d => ∃ i way ref,
        EarlyUse n.reach scope.Unbound i way place ref ∧ d = earlyUse ref) hsteps rfl happend
      fun j q hq inner hentered => hpart hq hentered (.inl (Nat.succ_ne_zero j))
    have hown := (((@located_unresolved ctx _ scope (hn.part hmem)).filter
      fun ref => ref.name == binding).map earlyUse).under 0
    rw [trace_steps hsteps, errors_settle]
    refine ((hfirst.append hlater ?_).append hown ?_).congr fun place d => ?_
    · rintro _ a a' ⟨rest, rfl, -⟩ ⟨j, rest', -, heq, -⟩
      cases heq
    · rintro _ a a' (⟨rest, rfl, i', way, ref, huse, -⟩ | ⟨j, rest', -, rfl, -⟩)
        ⟨rest', heq, ref', ⟨hfree, -⟩, -⟩
      · cases heq
        -- The reference at a place is one, and it cannot be both free and an early use.
        rw [huse.loose.unique hfree.loose] at huse
        exact hfree.outside way i' huse.inFirst
      · cases heq
    constructor
    · rintro ((⟨rest, rfl, i', way, ref, huse, rfl⟩ | ⟨j, rest, -, rfl, h⟩) |
        ⟨rest, rfl, ref, ⟨hfree, hname⟩, rfl⟩)
      · refine ⟨i', 0 :: way, ref, (earlyUse_cons hzero).mpr (.inl ⟨way, rfl, ?_⟩), rfl⟩
        rwa [beyond_nil]
      · exact h
      · refine ⟨i, [], ref, (earlyUse_cons hzero).mpr (.inr ⟨rfl, rfl, ?_, ?_⟩), rfl⟩
        · rw [eq_of_beq hname]
          exact ⟨span, _, hsteps⟩
        · rwa [beyond_nil]
    · rintro ⟨i', way, ref, huse, rfl⟩
      obtain ⟨j, rest, hj, rfl⟩ := huse.loose.below hsteps.ne_identifier
      cases j with
      | zero =>
        rcases (earlyUse_cons hzero).mp huse with ⟨way', -, huse⟩ | ⟨-, -, ⟨_, _, hsteps'⟩, hfree⟩
        · rw [beyond_nil] at huse
          exact .inl (.inl ⟨rest, rfl, i', way', ref, huse, rfl⟩)
        · rw [beyond_nil] at hfree
          exact .inr ⟨rest, rfl, ref, ⟨hfree, beq_iff_eq.mpr (hsteps'.unique hsteps).2.1⟩, rfl⟩
      | succ j => exact .inl (.inr ⟨j, rest, hj, rfl, i', way, ref, huse, rfl⟩)

/-- A step binding is rejected if it has an early use. -/
theorem isRejected_steps {es : List Expr} (h : n.Steps span binding i es) (hn : n.Filled) :
    (node ctx scope n).isRejected ↔
      ∃ place ref, EarlyUse n.reach scope.Unbound i [] place ref := by
  obtain ⟨first, later, rfl⟩ := hn.steps h
  have hzero : n.parts[0]? = some (free (.expr first)) := by rw [h.parts_eq]; rfl
  have hlocated := @located_unresolved ctx (.expr first) scope
    (hn.part (mem_of_getElem? hzero))
  obtain ⟨l, -, hmem, hout⟩ := hlocated
  rw [(node_steps h).2]
  constructor
  · rintro ⟨ref, href, rfl⟩
    change ref ∈ (trace ctx scope (.expr first)).unresolved at href
    rw [hout] at href
    obtain ⟨⟨rest, _⟩, hl, rfl⟩ := mem_map.mp href
    have hfree := (hmem _ _).mp hl
    rw [← beyond_nil scope.Unbound] at hfree
    exact ⟨0 :: rest, _, (earlyUse_cons hzero).mpr (.inr ⟨rfl, rfl, ⟨span, _, h⟩, hfree⟩)⟩
  · rintro ⟨place, ref, huse⟩
    have ⟨_, _, _, _, _, _, hprefix⟩ := huse.inFirst
    obtain ⟨rest, rfl⟩ := hprefix
    rcases (earlyUse_cons hzero).mp huse with ⟨_, heq, -⟩ | ⟨-, -, ⟨_, _, hsteps⟩, hfree⟩
    · cases heq
    rw [beyond_nil] at hfree
    refine ⟨ref, ?_, (hsteps.unique h).2.1⟩
    change ref ∈ (trace ctx scope (.expr first)).unresolved
    rw [hout]
    exact mem_map.mpr ⟨_, (hmem _ _).mpr hfree, rfl⟩

/-- Nothing else is rejected. -/
theorem isRejected_of_none (h : construct? n = none) :
    (node ctx scope n).isRejected = n.isRejected := by
  rcases @node_same ctx scope n with ⟨hsome, -⟩ | ⟨-, -, hsame⟩
  · rw [h] at hsome
    cases hsome
  · exact hsame

end Visit

/-- The step binding at a place has an early use. -/
def UsedEarly (reach : List Nat → Option Node.Part) (unbound : String → Prop) (way : List Nat) : Prop :=
  ∃ i place ref, EarlyUse reach unbound i way place ref

section Rejected

variable {ctx : Context} {scope : Scope} {n c : Node} {way : List Nat} {trail : List Binder}
  {span : Span} {binding : String} {i : Nat} {es : List Expr}

theorem Node.Filled.reach (h : n.Filled) (hreach : n.reach way = some (trail, c)) : c.Filled := by
  induction way generalizing n trail with
  | nil =>
    cases hreach
    exact h
  | cons j way ih =>
    obtain ⟨bs, part, trail', hpart, hreach, -⟩ := reach_cons.mp hreach
    exact ih (h.part (mem_of_getElem? hpart)) hreach

/-- A node that was visited is rejected if it was before, or is a step binding with an early use. -/
theorem isRejected_reach {inner : Scope} (hn : n.Filled) (h : n.reach way = some (trail, c))
    (hentered : Entered ctx scope trail inner) : (node ctx inner c).isRejected ↔
      c.isRejected ∨ UsedEarly n.reach scope.Unbound way := by
  cases hc : construct? c with
  | none =>
    rw [isRejected_of_none hc]
    refine (or_iff_left ?_).symm
    rintro ⟨i, place, ref, huse⟩
    obtain ⟨trail', c', span, es, hreach, hsteps, -⟩ := huse.inFirst
    cases h.symm.trans hreach
    rw [hsteps.construct?] at hc
    cases hc
  | some i =>
    obtain ⟨span, binding, es, hsteps⟩ := construct?_iff_steps.mp hc
    rw [or_iff_right hsteps.not_rejected, isRejected_steps hsteps (hn.reach h), hentered.unbound]
    constructor
    · rintro ⟨rest, ref, huse⟩
      exact ⟨i, _, ref, (earlyUse_of_reach h).mpr ⟨rest, rfl, huse⟩⟩
    · rintro ⟨j, place, ref, huse⟩
      obtain ⟨rest, -, huse⟩ := (earlyUse_of_reach h).mp huse
      obtain ⟨_, _, span', es', hreach, hsteps', -⟩ := huse.inFirst
      cases hreach
      obtain ⟨-, -, rfl, -⟩ := hsteps'.unique hsteps
      exact ⟨rest, ref, huse⟩

/-- A way into what is rejected ends there. -/
theorem eq_nil_of_rejected {p : Node.Part} (hn : n.isRejected) (h : n.reach way = some p) :
    way = [] := by
  cases way with
  | nil => rfl
  | cons j way =>
    obtain ⟨bs, part, -, hpart, -⟩ := reach_cons.mp h
    rw [parts_rejected hn] at hpart
    cases hpart

/-- A step binding stays in its place, unless one around it has an early use. -/
theorem reach_of_not_usedEarly (hn : n.Filled) (h : n.reach way = some (trail, c))
    (hout : ∀ outer, outer <+: way → outer ≠ way → ¬UsedEarly n.reach scope.Unbound outer) :
    ∃ inner trail', Entered ctx scope trail inner ∧
      (node ctx scope n).reach way = some (trail', node ctx inner c) := by
  rcases @reach_node ctx _ _ _ _ h scope with ⟨outer, trail', y, hprefix, hy, hrejected⟩ | hreach
  · obtain ⟨inner, trail1, y1, hy1, hentered, rfl, -⟩ := reach_of_node hy
    by_cases heq : outer = way
    · subst heq
      cases h.symm.trans hy1
      exact ⟨inner, trail', hentered, hy⟩
    exfalso
    rcases (isRejected_reach hn hy1 hentered).mp hrejected with hbefore | hused
    · obtain ⟨rest, rfl⟩ := hprefix
      obtain ⟨outer', y, inner', hy, hx, -⟩ := reach_append.mp h
      cases hy1.symm.trans hy
      exact heq (by rw [eq_nil_of_rejected hbefore hx, append_nil])
    · exact hout outer hprefix heq hused
  · exact hreach

/-- What is in a step binding with an early use is gone. -/
theorem reach_of_usedEarly (hn : n.Filled) {outer : List Nat} (hway : outer <+: way)
    (hne : outer ≠ way) (hused : UsedEarly n.reach scope.Unbound outer) :
    (node ctx scope n).reach way = none := by
  refine Option.eq_none_iff_forall_ne_some.mpr fun ⟨trail, x⟩ h => ?_
  obtain ⟨rest, rfl⟩ := hway
  obtain ⟨trail', y, inner', hy, hx, -⟩ := reach_append.mp h
  obtain ⟨inner, trail1, y1, hy1, hentered, rfl, -⟩ := reach_of_node hy
  have hrejected := (isRejected_reach hn hy1 hentered).mpr (.inr hused)
  exact hne (by rw [eq_nil_of_rejected hrejected hx, append_nil])

/-- The step bindings that are kept are those that have no early use and are in none that has. -/
theorem mem_marks_node (hn : n.Filled) (hnodup : (marks (walk n)).Nodup)
    (h : n.reach way = some (trail, c)) (hc : c.Steps span binding i es) :
    i ∈ marks (walk (node ctx scope n)) ↔
      ∀ outer, outer <+: way → ¬UsedEarly n.reach scope.Unbound outer := by
  constructor
  · intro hmem outer hway hused
    obtain ⟨place, trail', y, hy, hi⟩ := exists_reach_of_marks hmem
    obtain ⟨inner, trail1, y1, hy1, hentered, rfl, -⟩ := reach_of_node hy
    have hkept : ¬(node ctx inner y1).isRejected := fun hr => by
      rw [(declares_rejected hr).2] at hi
      cases hi
    have hi1 : construct? y1 = some i := ((node_same y1).resolve_left fun h => hkept h.2).2.1 ▸ hi
    obtain rfl := reach_unique hnodup h hy1 hc.construct? hi1
    by_cases heq : outer = way
    · subst heq
      exact hkept ((isRejected_reach hn hy1 hentered).mpr (.inr hused))
    · rw [reach_of_usedEarly hn hway heq hused] at hy
      cases hy
  · intro hout
    obtain ⟨inner, trail', hentered, hreach⟩ :=
      @reach_of_not_usedEarly ctx _ _ _ _ _ hn h fun outer hway _ => hout outer hway
    have hkept : ¬(node ctx inner c).isRejected := fun hr => by
      rcases (isRejected_reach hn h hentered).mp hr with hbefore | hused
      · exact hc.not_rejected hbefore
      · exact hout way (prefix_refl _) hused
    refine mem_marks_of_reach hreach ?_
    rw [((node_same c).resolve_left fun h => hkept h.2).2.1, hc.construct?]

end Rejected

section Modules

variable {m : Module} {unbound : String → Prop} {i : Nat} {way place : List Nat} {name : String}
  {ref : Reference}

theorem loose_root : Loose m.root.reach unbound place ref ↔ Loose m.reach unbound place ref := by
  cases place with
  | nil =>
    constructor
    · intro h
      cases (loose_nil.mp h).1
    · rintro ⟨trail, h, -⟩
      cases h
  | cons j place => unfold Loose; rw [Module.reach_root]

theorem inFirst_root : InFirst m.root.reach way place i name ↔ InFirst m.reach way place i name := by
  cases way with
  | nil =>
    constructor
    · rintro ⟨trail, c, span, es, hreach, hsteps, -⟩
      cases hreach
      cases hsteps
    · rintro ⟨trail, c, span, es, hreach, -⟩
      cases hreach
  | cons j way => unfold InFirst; rw [Module.reach_root]

/-- The early uses in a module are those in it as one node. -/
theorem earlyUse_root : EarlyUse m.root.reach unbound i way place ref ↔
    EarlyUse m.reach unbound i way place ref := by
  constructor
  · exact fun h => ⟨loose_root.mp h.loose, inFirst_root.mp h.inFirst,
      fun way' j hin => h.innermost way' j (inFirst_root.mpr hin)⟩
  · exact fun h => ⟨loose_root.mpr h.loose, inFirst_root.mpr h.inFirst,
      fun way' j hin => h.innermost way' j (inFirst_root.mp hin)⟩

theorem usedEarly_root : UsedEarly m.root.reach unbound way ↔ UsedEarly m.reach unbound way := by
  simp only [UsedEarly, earlyUse_root]

end Modules

namespace Resolved

variable {names : FreshNames} {shadowWarnings : Bool} {globals : List String} {m : Module}

/-- Around a module only the declared globals are bound. -/
theorem unbound_outerScope : (outerScope globals).Unbound = fun name => name ∉ globals := by
  funext name
  have hsome := Frame.isSome_lookup_defineAll []
    (globals.map fun name => ({ name, kind := .global } : Binding)) name
  have hnames : (globals.map fun name => ({ name, kind := .global } : Binding)).map Binding.name =
      globals := by simp [Function.comp_def]
  rw [hnames] at hsome
  unfold Scope.Unbound outerScope Scope.lookup
  refine propext ?_
  split
  · rename_i b hb
    rw [hb] at hsome
    simpa [Frame.lookup] using hsome
  · rename_i hb
    rw [hb] at hsome
    simpa [Frame.lookup, Scope.lookup] using hsome

end Resolved

end StepBinding
