import Mathlib.Data.List.Pairwise
import StepBinding.Proofs.Compile.EarlyUses
import StepBinding.Proofs.Resolve.Warnings

/-! Warnings change nothing but themselves. The results with and without warnings of hidden bindings
have the same code, module, errors and records, apart from the warnings. With warnings there is one
for each step binding whose binding is bound already where it stands, and it is noted in the record
of that step binding. -/

namespace StepBinding

open List StepBinding.Tree Node Construct Resolve

variable {e : Edit}

section Sorting

variable {α : Type} {le : α → α → Bool}

/-- The two have no order between them. -/
def level (le : α → α → Bool) (a b : α) : Bool := le a b && le b a

theorem filter_level_cons (total : ∀ a b, (le a b || le b a)) (a : α) (l : List α) :
    (a :: l).filter (level le a) = a :: l.filter (level le a) := by
  refine filter_cons_of_pos ?_
  simpa [level] using total a a

/-- Sorted lists are equal if they have the same elements of each level in the same order. -/
theorem eq_of_pairwise_of_level (total : ∀ a b, (le a b || le b a)) {l k : List α}
    (hl : l.Pairwise fun a b => le a b) (hk : k.Pairwise fun a b => le a b)
    (h : ∀ a, l.filter (level le a) = k.filter (level le a)) : l = k := by
  induction l generalizing k with
  | nil =>
    cases k with
    | nil => rfl
    | cons b k =>
      have hb := h b
      rw [filter_level_cons total] at hb
      cases hb
  | cons a l ih =>
    cases k with
    | nil =>
      have ha := h a
      rw [filter_level_cons total] at ha
      cases ha
    | cons b k =>
      -- Each head is in the other list, so they are of one level.
      have hhead {a b : α} {l k : List α} (hl : (a :: l).Pairwise fun a b => le a b)
          (h : (a :: l).filter (level le b) = (b :: k).filter (level le b)) : le a b := by
        rw [filter_level_cons total] at h
        have hb : b ∈ a :: l := mem_of_mem_filter (h ▸ mem_cons_self)
        rcases mem_cons.mp hb with rfl | hb
        · simpa using total b b
        · exact (pairwise_cons.mp hl).1 b hb
      have hab : level le a b :=
        Bool.and_eq_true_iff.mpr ⟨hhead hl (h b), hhead hk (h a).symm⟩
      have heq := h a
      rw [filter_level_cons total, filter_cons_of_pos hab] at heq
      obtain ⟨rfl, -⟩ := List.cons.inj heq
      refine congrArg (a :: ·) (ih (pairwise_cons.mp hl).2 (pairwise_cons.mp hk).2 fun c => ?_)
      have hc := h c
      rw [filter_cons, filter_cons] at hc
      split at hc
      · exact (List.cons.inj hc).2
      · exact hc

/-- Sorting keeps the order of the elements of each level. -/
theorem filter_level_mergeSort (trans : ∀ a b c, le a b → le b c → le a c)
    (total : ∀ a b, (le a b || le b a)) (l : List α) (a : α) :
    (l.mergeSort le).filter (level le a) = l.filter (level le a) := by
  have hlevel : (l.filter (level le a)).Pairwise fun b c => le b c := by
    refine pairwise_iff_forall_sublist.mpr fun {b c} hsub => ?_
    have hb := (mem_filter.mp (hsub.subset (mem_cons_self (a := b)))).2
    have hc := (mem_filter.mp (hsub.subset (mem_cons_of_mem b (mem_singleton_self c)))).2
    exact trans b a c (Bool.and_eq_true_iff.mp hb).2 (Bool.and_eq_true_iff.mp hc).1
  have hsub := (sublist_mergeSort trans total hlevel filter_sublist).filter (level le a)
  rw [filter_filter] at hsub
  simp only [Bool.and_self] at hsub
  exact (hsub.eq_of_length ((mergeSort_perm l le).filter _).length_eq.symm).symm

/-- A stable sort of some elements is that of all, restricted to them. -/
theorem filter_mergeSort (trans : ∀ a b c, le a b → le b c → le a c)
    (total : ∀ a b, (le a b || le b a)) (l : List α) (p : α → Bool) :
    (l.mergeSort le).filter p = (l.filter p).mergeSort le := by
  refine eq_of_pairwise_of_level total ((pairwise_mergeSort trans total l).filter p)
    (pairwise_mergeSort trans total _) fun a => ?_
  rw [filter_level_mergeSort trans total, filter_comm, filter_level_mergeSort trans total,
    filter_comm]

end Sorting

namespace Compile

theorem filter_inSourceOrder (ds : List Diagnostic) (p : Diagnostic → Bool) :
    (inSourceOrder ds).filter p = inSourceOrder (ds.filter p) := by
  refine filter_mergeSort (fun a b c hab hbc => ?_) (fun a b => ?_) ds p
  · unfold Diagnostic.placedBefore at hab hbc ⊢
    cases ha : a.span? <;> cases hb : b.span? <;> cases hc : c.span? <;> simp_all [Position.before]
    grind
  · unfold Diagnostic.placedBefore
    cases a.span? with
    | none => cases b.span? <;> rfl
    | some p =>
      cases b.span? with
      | none => rfl
      | some q =>
        simp [Position.before]
        omega

end Compile

namespace Construct.Record

variable {i : Nat} {r : Record} {edits : List Edit}

/-- The record without warnings. -/
def quiet (r : Record) : Record := { r with codes := r.codes.filter fun code => code != .shadowing }

theorem Raw.quiet (h : r.Raw i) : r.quiet = r := by
  have hcodes : r.codes.filter (fun code => code != .shadowing) = r.codes :=
    filter_eq_self.mpr fun code hcode => bne_iff_ne.mpr fun heq => h.reasons (heq ▸ hcode)
  unfold Record.quiet
  rw [hcodes]

theorem quiet_reject {code : Code} (h : code ≠ .shadowing) :
    (r.reject code).quiet = r.quiet.reject code := by
  simp [quiet, reject, filter_append, h]

/-- An edit does the same without warnings, unless it notes one. -/
theorem quiet_act (he : e.Fair) :
    (e.act i r).quiet = if e.warned?.isNone then e.act i r.quiet else r.quiet := by
  cases e with
  | note j code =>
    rw [Edit.warned?_note]
    simp only [Edit.act]
    by_cases hcode : code = .shadowing
    · rw [if_pos hcode]
      split <;> simp [quiet, filter_append, hcode]
    · rw [if_neg hcode]
      split <;> simp [quiet, filter_append, hcode]
  | settle j fresh =>
    simp only [Edit.act, Edit.warned?, Option.isNone_none, if_true]
    split <;> rename_i h
    · exact (if_pos h).symm
    · exact (if_neg h).symm
  | reject j code =>
    simp only [Edit.act, Edit.warned?, Option.isNone_none, if_true]
    split
    · exact quiet_reject he
    · rfl
  | rejectAll is code =>
    simp only [Edit.act, Edit.warned?, Option.isNone_none, if_true]
    split <;> rename_i h
    · exact (quiet_reject he).trans (if_pos h).symm
    · exact (if_neg h).symm

theorem quiet_foldl_act (h : ∀ e ∈ edits, e.Fair) :
    (edits.foldl (fun r e => e.act i r) r).quiet =
      (edits.filter fun e => e.warned?.isNone).foldl (fun r e => e.act i r) r.quiet := by
  induction edits generalizing r with
  | nil => rfl
  | cons e edits ih =>
    obtain ⟨he, hedits⟩ := forall_mem_cons.mp h
    rw [foldl_cons, ih hedits, quiet_act he, filter_cons]
    split <;> rfl

/-- The warnings of a record are those that edits note in it. -/
theorem count_act (he : e.Fair) : (e.act i r).codes.count .shadowing =
    r.codes.count .shadowing + e.warned?.toList.count i := by
  have hreject {code : Code} (hcode : code ≠ .shadowing) :
      (r.reject code).codes.count .shadowing = r.codes.count .shadowing := by
    simp [reject, hcode]
  cases e with
  | note j code =>
    rw [Edit.warned?_note]
    simp only [Edit.act]
    by_cases hcode : code = .shadowing
    · rw [if_pos hcode]
      split <;> simp_all
    · rw [if_neg hcode]
      split <;> simp [hcode]
  | settle j fresh =>
    simp only [Edit.act]
    split <;> rfl
  | reject j code | rejectAll is code =>
    simp only [Edit.act]
    split
    · exact hreject he
    · rfl

theorem count_foldl_act (h : ∀ e ∈ edits, e.Fair) :
    (edits.foldl (fun r e => e.act i r) r).codes.count .shadowing =
      r.codes.count .shadowing + (edits.filterMap Edit.warned?).count i := by
  induction edits generalizing r with
  | nil => rfl
  | cons e edits ih =>
    obtain ⟨he, hedits⟩ := forall_mem_cons.mp h
    rw [foldl_cons, ih hedits, count_act he, Nat.add_assoc]
    cases hwarned : e.warned? with
    | none => simp [hwarned]
    | some j => simp [hwarned, count_cons]; omega

end Construct.Record

namespace Compile

variable {settings : LowerSettings} {file text : String} {source : Source} {resolved quiet : Resolved}
  {i : Nat}

/-- Reading does not warn. -/
theorem code_ne_of_read (h : read file text = .ok (.ok source)) :
    ∀ d ∈ source.diagnostics, d.code ≠ .shadowing := by
  unfold read at h
  split at h
  · cases h
  rename_i tokens hstream
  split at h
  · cases h
  rename_i p hp
  split at h
  · cases h
  cases h
  unfold Grammar.Program.ofTokens at hp
  dsimp only at hp
  split at hp
  · cases hp
  rename_i body c hok
  cases hp
  obtain ⟨hassignment, hstatement⟩ := Grammar.rules_keeps (2 * tokens.length + 2)
  intro d hd hcode
  have hleads : (Grammar.Cursor.start tokens).Leads c := Grammar.KeepsTo.of_ok hok
  exact (hleads.reasons ⟨nofun⟩).noWarning (hcode ▸ mem_map_of_mem hd)

/-- The step binding of number `i`, which has the range and the binding, stands at a place of the
source where its binding is bound already: by a binder on the way to the place, or as a declared
global. -/
def Source.Hides (source : Source) (settings : LowerSettings) (i : Nat) (span : Span)
    (binding : String) : Prop :=
  ∃ place trail c es, source.module.reach place = some (trail, c) ∧ c.Steps span binding i es ∧
    ((∃ b ∈ trail, b.binds binding = true) ∨ binding ∈ settings.globals)

theorem visit_quiet (settings : LowerSettings) (source : Source) :
    Resolved.visit { stem := settings.stem } false settings.globals source.module =
      (Resolved.visit { stem := settings.stem } true settings.globals source.module).quiet :=
  @quiet_stmts (Resolved.context { stem := settings.stem } true source.module) _ _

/-- Resolving without warnings leaves out the warnings. -/
theorem resolve_quiet (hsound : source.Sound)
    (hon : resolve { settings with shadowWarnings := true } source = .ok resolved)
    (hoff : resolve { settings with shadowWarnings := false } source = .ok quiet) :
    quiet.module = resolved.module ∧
      quiet.diagnostics = resolved.diagnostics.filter (fun d => d.code != .shadowing) ∧
      ∀ i, quiet.log.get? i = (resolved.log.get? i).map Record.quiet := by
  have hfair := (accounts_resolve hsound hon).fair
  obtain ⟨hmodule, hdiagnostics, hedits⟩ := Resolved.ofModule_eq_ok hon
  obtain ⟨hmodule', hdiagnostics', hedits'⟩ := Resolved.ofModule_eq_ok hoff
  rw [visit_quiet settings source] at hmodule' hdiagnostics' hedits'
  refine ⟨by rw [hmodule', hmodule]; rfl, by rw [hdiagnostics', hdiagnostics]; rfl, fun i => ?_⟩
  rw [Edit.get?_applyAll hedits' i, Edit.get?_applyAll hedits i, Option.map_map]
  refine Option.map_congr fun r hr => ?_
  refine Eq.symm ((Record.quiet_foldl_act hfair).trans ?_)
  rw [(hsound.raw hr).quiet]
  rfl

theorem hides_iff {source : Source} : (∃ span binding, source.Hides settings i span binding) ↔
    ∃ place, StepBinding.Hides source.module.root.reach (· ∉ settings.globals) place i := by
  constructor
  · rintro ⟨span, binding, place, trail, c, es, hreach, hc, hbound⟩
    refine ⟨place, trail, c, span, binding, es, reach_root_eq hreach, hc, fun hbeyond => ?_⟩
    rcases hbound with ⟨b, hb, hbinds⟩ | hglobal
    · rw [hbeyond.2 b hb] at hbinds
      cases hbinds
    · exact hbeyond.1 hglobal
  · rintro ⟨place, trail, c, span, binding, es, hreach, hc, hbound⟩
    cases place with
    | nil =>
      cases hreach
      cases hc
    | cons j place =>
      rw [Module.reach_root] at hreach
      refine ⟨span, binding, j :: place, trail, c, es, hreach, hc, ?_⟩
      by_contra hnone
      obtain ⟨hbinds, hglobal⟩ := not_or.mp hnone
      exact hbound ⟨hglobal, fun b hb => eq_false_of_ne_true fun h => hbinds ⟨b, hb, h⟩⟩

/-- In a tree whose step bindings have numbers of their own, a number tells the step binding. -/
theorem eq_of_construct? {n x y : Node} (hnodup : (marks (walk n)).Nodup) (hx : x ∈ walk n)
    (hy : y ∈ walk n) (hxi : construct? x = some i) (hyi : construct? y = some i) : x = y := by
  by_contra hne
  have : Std.Symm fun x y : Node => ∀ j, construct? x = some j → ∀ k, construct? y = some k → j ≠ k :=
    ⟨fun _ _ h j hj k hk => (h k hk j hj).symm⟩
  exact (pairwise_filterMap.mp hnodup).forall hx hy hne i hxi i hyi rfl

/-- With warnings, there is one for each step binding that hides a binding, and it is noted in its
record. -/
theorem warned_resolve (hsound : source.Sound)
    (hon : resolve { settings with shadowWarnings := true } source = .ok resolved) :
    ∃ is : List Nat, is.Nodup ∧
      (∀ i, i ∈ is ↔ ∃ span binding, source.Hides settings i span binding) ∧
      List.Forall₂ (fun i d => ∃ span binding hidden, source.Hides settings i span binding ∧
        d = shadowWarning binding span hidden) is
        (resolved.diagnostics.filter fun d => d.code == .shadowing) ∧
      ∀ i r, resolved.log.get? i = some r →
        r.codes.count .shadowing = if i ∈ is then 1 else 0 := by
  have hfair := (accounts_resolve hsound hon).fair
  obtain ⟨-, hdiagnostics, hedits⟩ := Resolved.ofModule_eq_ok hon
  let ctx := Resolved.context { stem := settings.stem } true source.module
  have hlocated := @located_warned ctx rfl _ (Resolved.outerScope settings.globals) hsound.filled
  rw [Resolved.unbound_outerScope] at hlocated
  obtain ⟨l, hnodup, hmem, hout⟩ := hlocated
  have hwarned (i : Nat) : i ∈ (trace ctx (Resolved.outerScope settings.globals)
      source.module.root).warned ↔ ∃ span binding, source.Hides settings i span binding := by
    rw [hides_iff, hout]
    simp [hmem]
  have hinj : (trace ctx (Resolved.outerScope settings.globals) source.module.root).warned.Nodup := by
    rw [hout]
    refine List.Nodup.map_on ?_ (List.Nodup.of_map _ hnodup)
    rintro ⟨place, i⟩ hx ⟨place', i'⟩ hy (rfl : i = i')
    obtain ⟨trail, c, span, binding, es, hreach, hc, -⟩ := (hmem place i).mp hx
    obtain ⟨trail', c', span', binding', es', hreach', hc', -⟩ := (hmem place' i).mp hy
    rw [reach_unique hsound.nodup hreach hreach' hc.construct? hc'.construct?]
  have hforall := @forall₂_warnings ctx source.module.root (Resolved.outerScope settings.globals)
    hsound.filled (fun i d => (∃ span binding, source.Hides settings i span binding) →
      ∃ span binding hidden, source.Hides settings i span binding ∧
        d = shadowWarning binding span hidden) (by
    rintro x hx span binding i es hsteps hidden ⟨span', binding', h⟩
    have ⟨place, trail, c, es', hreach, hc, _⟩ := h
    have hsame := eq_of_construct? hsound.nodup hx (mem_walk_of_reach (reach_root_eq hreach))
      hsteps.construct? hc.construct?
    subst hsame
    obtain ⟨rfl, rfl, -, -⟩ := hsteps.unique hc
    exact ⟨span, binding, hidden, h, rfl⟩)
  rw [Resolved.trace_root] at hforall hwarned hinj
  refine ⟨_, hinj, hwarned, ?_, fun i r hr => ?_⟩
  · rw [hdiagnostics]
    exact ((List.forall₂_and_left _ _).mpr ⟨fun i hi => (hwarned i).mp hi, hforall⟩).imp
      fun i d h => h.2 h.1
  · rw [Edit.get?_applyAll hedits i] at hr
    obtain ⟨r₀, hr₀, rfl⟩ := Option.map_eq_some_iff.mp hr
    refine (Record.count_foldl_act hfair).trans ?_
    rw [count_eq_zero.mpr (hsound.raw hr₀).reasons, Nat.zero_add]
    split
    · exact count_eq_one_of_mem hinj ‹_›
    · exact count_eq_zero.mpr ‹_›

/-- Step bindings are put in their places with and without warnings alike. -/
theorem splice_quiet {log log' qlog qlog' : Log} {is : List Nat}
    (hquiet : ∀ i, qlog.get? i = (log.get? i).map Record.quiet) (h : Splice.splice log is = .ok log')
    (hq : Splice.splice qlog is = .ok qlog') : qlog'.records = log'.records.map Record.quiet := by
  refine ext_getElem? fun i => ?_
  have hget := (Splice.get?_splice h).2 i
  have hgetq := (Splice.get?_splice hq).2 i
  rw [hquiet] at hgetq
  unfold Log.get? at hget hgetq
  rw [getElem?_map, hget, hgetq, Option.map_map, Option.map_map]
  refine congrArg (Option.map · _) (funext fun r => ?_)
  simp only [Function.comp_apply]
  split <;> rfl

/-- The results for a source that was read, with and without warnings, have the same code, module and
errors. Without warnings the result has the same diagnostics but for the warnings, and the same
records but for the warnings noted in them. With warnings there is one for each step binding whose
binding is bound already where it stands, and no other; it is noted once in the record of that step
binding, and nowhere else. Both fail for an unknown target, in the same way. -/
theorem warnings_inert (settings : LowerSettings) (h : read file text = .ok (.ok source)) :
    (Target.ofName? settings.target = none ∧
      transform { settings with shadowWarnings := true } file text =
        .error (.unknownTarget settings.target) ∧
      transform { settings with shadowWarnings := false } file text =
        .error (.unknownTarget settings.target)) ∨
    ∃ result quiet, transform { settings with shadowWarnings := true } file text = .ok result ∧
      transform { settings with shadowWarnings := false } file text = .ok quiet ∧
      quiet.code = result.code ∧ quiet.module = result.module ∧ quiet.errors = result.errors ∧
      quiet.diagnostics = result.diagnostics.filter (fun d => d.code != .shadowing) ∧
      quiet.constructs = result.constructs.map Record.quiet ∧
      ∃ is : List Nat, is.Nodup ∧
        (∀ i, i ∈ is ↔ ∃ span binding, source.Hides settings i span binding) ∧
        (∃ ds, List.Forall₂ (fun i d => ∃ span binding hidden,
            source.Hides settings i span binding ∧ d = shadowWarning binding span hidden) is ds ∧
          (result.diagnostics.filter fun d => d.code == .shadowing).Perm ds) ∧
        ∀ i r, result.constructs[i]? = some r →
          r.codes.count .shadowing = if i ∈ is then 1 else 0 := by
  have hsound := sound_of_read h
  have hrecorded := recorded_of_read h
  obtain ⟨resolved, hon, hstands⟩ :=
    exists_resolve { settings with shadowWarnings := true } hsound hrecorded
  obtain ⟨quiet, hoff, hstandsq⟩ :=
    exists_resolve { settings with shadowWarnings := false } hsound hrecorded
  cases htarget : Target.ofName? settings.target with
  | none =>
    have hfail {settings : LowerSettings} {resolved : Resolved}
        (hresolve : resolve settings source = .ok resolved)
        (htarget : Target.ofName? settings.target = none) :
        transform settings file text = .error (.unknownTarget settings.target) := by
      unfold transform
      rw [h]
      simp only [lower, hresolve, htarget, mapError_ok, bind, Except.bind]
      rfl
    exact .inl ⟨rfl, hfail hon htarget, hfail hoff htarget⟩
  | some target =>
    refine .inr ?_
    have hrun {settings : LowerSettings} : transform settings file text = lower settings source := by
      unfold transform
      rw [h]
      rfl
    obtain ⟨hmodule, hdiagnostics, hlog⟩ := resolve_quiet hsound hon hoff
    obtain ⟨-, -, log, hsplice, hlower⟩ := lower_of_resolve hsound hon hstands htarget
    obtain ⟨-, -, qlog, hspliceq, hlowerq⟩ := lower_of_resolve hsound hoff hstandsq htarget
    obtain ⟨is, hnodup, his, hforall, hcount⟩ := warned_resolve hsound hon
    rw [hmodule] at hspliceq hlowerq
    have hkept : source.diagnostics.filter (fun d => d.code != .shadowing) = source.diagnostics :=
      List.filter_eq_self.mpr fun d hd => bne_iff_ne.mpr (code_ne_of_read h d hd)
    have hnone : source.diagnostics.filter (fun d => d.code == .shadowing) = [] :=
      List.filter_eq_nil_iff.mpr fun d hd => by simpa using code_ne_of_read h d hd
    have hall : inSourceOrder (source.diagnostics ++ quiet.diagnostics) =
        (inSourceOrder (source.diagnostics ++ resolved.diagnostics)).filter
          (fun d => d.code != .shadowing) := by
      rw [filter_inSourceOrder, List.filter_append, hkept, hdiagnostics]
    have hmild : ∀ d ∈ source.diagnostics ++ resolved.diagnostics, d.code = .shadowing →
        d.isError = false := by
      intro d hd hcode
      rcases List.mem_append.mp hd with hd | hd
      · exact absurd hcode (code_ne_of_read h d hd)
      · obtain ⟨i, -, span, binding, hidden, -, rfl⟩ :=
          exists_mem_of_forall₂ hforall.flip (List.mem_filter.mpr ⟨hd, beq_iff_eq.mpr hcode⟩)
        rfl
    refine ⟨_, _, hrun.trans hlower, hrun.trans hlowerq, rfl, rfl, ?_, hall,
      splice_quiet hlog hsplice hspliceq, is, hnodup, his, ⟨_, hforall, ?_⟩, fun i r hr => ?_⟩
    · unfold Result.errors
      dsimp only
      rw [hall, List.filter_filter]
      refine List.filter_congr fun d hd => ?_
      by_cases hcode : d.code = .shadowing
      · rw [hmild d (List.mem_mergeSort.mp hd) hcode]
        rfl
      · rw [bne_iff_ne.mpr hcode, Bool.and_true]
    · dsimp only
      rw [filter_inSourceOrder, List.filter_append, hnone, List.nil_append]
      exact List.mergeSort_perm _ _
    · have hget := (Splice.get?_splice hsplice).2 i
      rw [show log.get? i = some r from hr] at hget
      obtain ⟨r₀, hr₀, rfl⟩ := Option.map_eq_some_iff.mp hget.symm
      rw [← hcount i r₀ hr₀]
      split <;> rfl

/-- Step bindings that hide a variable, a declared global and nothing. -/
def hidingText : String := "let a = 1; let(a) x = 2, a; let(c) y = a, c; let($) z = 3, $;"

theorem hiding_read : (match read "hiding" hidingText with
    | .ok (.ok _) => true
    | _ => false) = true := by
  decide +kernel

theorem hiding_run :
    (match transform { globals := ["c"], shadowWarnings := true } "hiding" hidingText with
    | .ok result => result.constructs.map Record.codes == [[.shadowing], [.shadowing], []]
    | .error _ => false) = true := by
  decide +kernel

/-- The first two are warned about, in their records; without warnings the code is the same. -/
theorem hiding_warned : ∃ source result quiet, read "hiding" hidingText = .ok (.ok source) ∧
    transform { globals := ["c"], shadowWarnings := true } "hiding" hidingText = .ok result ∧
    transform { globals := ["c"], shadowWarnings := false } "hiding" hidingText = .ok quiet ∧
    quiet.code = result.code ∧ (∃ span binding, source.Hides { globals := ["c"] } 1 span binding) ∧
    ¬(∃ span binding, source.Hides { globals := ["c"] } 2 span binding) ∧
    result.constructs.map Record.codes = [[.shadowing], [.shadowing], []] ∧
    quiet.constructs.map Record.codes = [[], [], []] := by
  have hread := hiding_read
  have hrun := hiding_run
  split at hread
  · rename_i source hsource
    rcases warnings_inert { globals := ["c"] } hsource with ⟨htarget, -⟩ |
      ⟨result, quiet, hon, hoff, hcode, -, -, -, hquiet, is, -, his, -, hcount⟩
    · cases htarget
    · rw [hon] at hrun
      have hcodes := eq_of_beq hrun
      have hcount' {i : Nat} {codes : List Code}
          (hi : (result.constructs.map Record.codes)[i]? = some codes) :
          codes.count .shadowing = if i ∈ is then 1 else 0 := by
        rw [List.getElem?_map] at hi
        obtain ⟨r, hr, rfl⟩ := Option.map_eq_some_iff.mp hi
        exact hcount i r hr
      rw [hcodes] at hcount'
      have hone := @hcount' 1 _ rfl
      have htwo := @hcount' 2 _ rfl
      refine ⟨source, result, quiet, hsource, hon, hoff, hcode, (his 1).mp ?_, fun h => ?_, hcodes, ?_⟩
      · by_contra hnot
        rw [if_neg hnot] at hone
        exact absurd hone (by decide)
      · rw [if_pos ((his 2).mpr h)] at htwo
        exact absurd htwo (by decide)
      · rw [hquiet, List.map_map]
        change result.constructs.map ((List.filter fun code => code != .shadowing) ∘ Record.codes) = _
        rw [← List.map_map, hcodes]
        decide
  · cases hread

end Compile

end StepBinding
