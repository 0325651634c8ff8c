import StepBinding.Proofs.Compile.Total
import StepBinding.Proofs.Resolve.EarlyUses

/-! The errors of resolving. There is one for each early use of a binding and no other. A step binding
with an early use is rejected in its place, those inside of it are rejected in the log, and all
others are resolved. -/

namespace StepBinding.Compile

open StepBinding.Tree Node Construct Resolve

variable {settings : LowerSettings} {file text : String} {source : Source} {resolved : Resolved}
  {way place : List Nat} {trail : List Binder} {c x : Node} {i : Nat}

/-- The reference at a place of a source is an early use of the step binding at the place `way`, given
the declared globals. -/
def Source.EarlyUse (source : Source) (settings : LowerSettings) (i : Nat) (way place : List Nat)
    (ref : Reference) : Prop :=
  StepBinding.EarlyUse source.module.reach (· ∉ settings.globals) i way place ref

/-- The step binding at a place of a source has an early use. -/
def Source.UsedEarly (source : Source) (settings : LowerSettings) (way : List Nat) : Prop :=
  ∃ i place ref, source.EarlyUse settings i way place ref

theorem Source.Sound.nodup (h : source.Sound) : (marks (walk source.module.root)).Nodup :=
  h.sorted.imp Nat.ne_of_lt

/-- The early uses of a source are those that its visit meets. -/
theorem usedEarly_iff : source.UsedEarly settings way ↔
    StepBinding.UsedEarly source.module.root.reach
      (Resolved.outerScope settings.globals).Unbound way := by
  rw [usedEarly_root, Resolved.unbound_outerScope]
  rfl

/-- There is one error for each early use, and no other. -/
theorem errors_resolve (hsound : source.Sound) (hresolve : resolve settings source = .ok resolved) :
    ∃ uses : List (List Nat × Nat × Reference), (uses.map Prod.fst).Nodup ∧
      (∀ place i ref, (place, i, ref) ∈ uses ↔ ∃ way, source.EarlyUse settings i way place ref) ∧
      resolved.diagnostics.filter Diagnostic.isError = uses.map fun use => earlyUse use.2.2 := by
  obtain ⟨-, hdiagnostics, -⟩ := Resolved.ofModule_eq_ok hresolve
  have herrors := @located_errors (Resolved.context { stem := settings.stem }
    settings.shadowWarnings source.module) _ (Resolved.outerScope settings.globals) hsound.filled
  rw [Resolved.trace_root, Resolved.unbound_outerScope] at herrors
  have hlocated : Located (resolved.diagnostics.filter Diagnostic.isError) fun place d =>
      ∃ use : Nat × Reference, (∃ way, source.EarlyUse settings use.1 way place use.2) ∧
        d = earlyUse use.2 := by
    rw [hdiagnostics]
    refine herrors.congr fun place d => ⟨?_, ?_⟩
    · rintro ⟨i, way, ref, huse, rfl⟩
      exact ⟨(i, ref), ⟨way, earlyUse_root.mp huse⟩, rfl⟩
    · rintro ⟨⟨i, ref⟩, ⟨way, huse⟩, rfl⟩
      exact ⟨i, way, ref, earlyUse_root.mpr huse, rfl⟩
  obtain ⟨uses, ⟨l, hnodup, hmem, rfl⟩, heq⟩ := hlocated.lift fun place use use' => by
    rintro ⟨way, huse⟩ ⟨way', huse'⟩
    obtain ⟨hi, -, href⟩ := StepBinding.EarlyUse.unique huse huse'
    exact Prod.ext hi href
  exact ⟨l, hnodup, fun place i ref => hmem place (i, ref), by rw [heq, List.map_map]; rfl⟩

theorem reach_root_eq {m : Module} (h : m.reach way = some (trail, x)) :
    m.root.reach way = some (trail, x) := by
  cases way with
  | nil => cases h
  | cons j way => rwa [Module.reach_root]

/-- A step binding is rejected in its place if it has an early use, and what is inside of it is gone. -/
theorem reach_resolve {span : Span} {binding : String} {es : List Expr} (hsound : source.Sound)
    (hresolve : resolve settings source = .ok resolved)
    (hreach : source.module.reach way = some (trail, c)) (hc : c.Steps span binding i es) :
    ((∀ outer, outer <+: way → outer ≠ way → ¬source.UsedEarly settings outer) →
      ∃ trail' c', resolved.module.reach way = some (trail', c') ∧ number? c' = some i ∧
        (c'.isRejected ↔ source.UsedEarly settings way)) ∧
    ((∃ outer, outer <+: way ∧ outer ≠ way ∧ source.UsedEarly settings outer) →
      resolved.module.reach way = none) := by
  obtain ⟨hmodule, -, -⟩ := Resolved.ofModule_eq_ok hresolve
  have hroot := reach_root_eq hreach
  have hcons : ∃ j rest, way = j :: rest := by
    cases way with
    | nil => cases hreach
    | cons j rest => exact ⟨j, rest, rfl⟩
  have hresolved : resolved.module.reach way =
      (node (Resolved.context { stem := settings.stem } settings.shadowWarnings source.module)
        (Resolved.outerScope settings.globals) source.module.root).reach way := by
    obtain ⟨j, rest, rfl⟩ := hcons
    rw [Resolved.node_root, Module.reach_root, hmodule]
    rfl
  rw [hresolved]
  simp only [usedEarly_iff]
  constructor
  · intro hout
    obtain ⟨inner, trail', hentered, hnode⟩ := reach_of_not_usedEarly hsound.filled hroot hout
    obtain ⟨first, later, rfl⟩ := (hsound.filled.reach hroot).steps hc
    refine ⟨trail', _, hnode, (node_steps hc).1, ?_⟩
    rw [isRejected_reach hsound.filled hroot hentered, or_iff_right hc.not_rejected]
  · rintro ⟨outer, hprefix, hne, hused⟩
    exact reach_of_usedEarly hsound.filled hprefix hne hused

/-- What has a number is a step binding or rejected. -/
theorem number?_cases (h : number? x = some i) :
    (∃ span binding es, x.Steps span binding i es) ∨ x.isRejected := by
  unfold number? at h
  split at h
  · cases h
    exact .inl ⟨_, _, _, .expression⟩
  · cases h
    exact .inl ⟨_, _, _, .declaration⟩
  · exact .inr rfl
  · exact .inr rfl
  · cases h

theorem exists_record {log : Log} {span : Span} {binding : String} {es : List Expr}
    (h : x.Steps span binding i es) (hrecorded : Recorded log x) : ∃ r, log.get? i = some r := by
  cases h <;> exact hrecorded.2.imp fun _ hr => hr.1

theorem refused_of_isRejected {log : Log} (h : x.isRejected) (hx : number? x = some i)
    (hrecorded : Recorded log x) : ∃ r, log.get? i = some r ∧ r.Refused := by
  unfold Node.isRejected at h
  split at h
  · cases hx
    exact hrecorded
  · cases hx
    exact hrecorded
  · cases h

/-- In the log, a step binding is rejected if it was before, has an early use, or is in one that has;
otherwise it is resolved. -/
theorem state_resolve (hread : read file text = .ok (.ok source)) (hsound : source.Sound)
    (hresolve : resolve settings source = .ok resolved)
    (hstands : ∀ i ∈ marks (walkStmts resolved.module.body), resolved.log.Stands i .resolved)
    (hreach : source.module.reach place = some (trail, x)) (hx : number? x = some i) :
    ∃ r, resolved.log.get? i = some r ∧
      ((x.isRejected ∨ ∃ outer, outer <+: place ∧ source.UsedEarly settings outer) →
        r.state = .rejected) ∧
      (x.isRejected = false → (∀ outer, outer <+: place → ¬source.UsedEarly settings outer) →
        r.state = .resolved) := by
  have hroot := reach_root_eq hreach
  have hrecorded := recorded_of_read hread x (Module.mem_walk_of_reach hreach)
  obtain ⟨hmodule, -, hedits⟩ := Resolved.ofModule_eq_ok hresolve
  -- The record after all edits, which are not refused.
  have hget {r0 : Record} (hr0 : source.log.get? i = some r0) :
      ∃ r, resolved.log.get? i = some r ∧ Entry settings source resolved i r := by
    have hr := Edit.get?_applyAll hedits i
    rw [hr0] at hr
    exact ⟨_, hr, entry_of_resolve hsound hresolve hr⟩
  rcases number?_cases hx with ⟨span, binding, es, hc⟩ | hrejected
  · have hmarks := @mem_marks_node (Resolved.context { stem := settings.stem }
      settings.shadowWarnings source.module) (Resolved.outerScope settings.globals) _ _ _ _ _ _ _ _
      hsound.filled hsound.nodup hroot hc
    rw [Resolved.node_root, Module.marks_root,
      show Resolved.visited _ _ _ _ = resolved.module from hmodule.symm] at hmarks
    simp only [← usedEarly_iff] at hmarks
    obtain ⟨r0, hr0⟩ := exists_record hc hrecorded
    obtain ⟨r, hr, hentry⟩ := hget hr0
    refine ⟨r, hr, fun h => ?_, fun _ hout => ?_⟩
    · obtain ⟨outer, hprefix, hused⟩ := h.resolve_left hc.not_rejected
      exact hentry.rejected (mem_marks_of_reach hroot hc.construct?)
        fun hmem => hmarks.mp hmem outer hprefix hused
    · obtain ⟨r', hr', hstate⟩ := hstands i (hmarks.mpr hout)
      cases hr.symm.trans hr'
      exact hstate
  · obtain ⟨r0, hr0, hrefused⟩ := refused_of_isRejected hrejected hx hrecorded
    obtain ⟨r, hr, hentry⟩ := hget hr0
    obtain ⟨r1, hr1, -, -, hfinal, -⟩ := hentry.raw
    cases hr0.symm.trans hr1
    refine ⟨r, hr, fun _ => hfinal (by rw [hrefused.state]; rfl), fun hkept => ?_⟩
    rw [hrejected] at hkept
    cases hkept

/-- In a source that was read, resolving reports one error for each early use of a binding, and no
other error. A step binding that is in none with an early use stays in its place, where it is
rejected exactly if it has an early use. Those in one with an early use are gone. In the log, a
step binding is rejected if it was rejected before or if it has an early use or is in one that
has; all others are resolved. -/
theorem early_uses_exact (settings : LowerSettings) (h : read file text = .ok (.ok source)) :
    ∃ resolved, resolve settings source = .ok resolved ∧
      (∃ uses : List (List Nat × Nat × Reference), (uses.map Prod.fst).Nodup ∧
        (∀ place i ref, (place, i, ref) ∈ uses ↔ ∃ way, source.EarlyUse settings i way place ref) ∧
        resolved.diagnostics.filter Diagnostic.isError = uses.map fun use => earlyUse use.2.2) ∧
      (∀ way trail c span binding i es, source.module.reach way = some (trail, c) →
        c.Steps span binding i es →
        ((∀ outer, outer <+: way → outer ≠ way → ¬source.UsedEarly settings outer) →
          ∃ trail' c', resolved.module.reach way = some (trail', c') ∧ number? c' = some i ∧
            (c'.isRejected = true ↔ source.UsedEarly settings way)) ∧
        ((∃ outer, outer <+: way ∧ outer ≠ way ∧ source.UsedEarly settings outer) →
          resolved.module.reach way = none)) ∧
      ∀ place trail x i, source.module.reach place = some (trail, x) → number? x = some i →
        ∃ r, resolved.log.get? i = some r ∧
          ((x.isRejected = true ∨ ∃ outer, outer <+: place ∧ source.UsedEarly settings outer) →
            r.state = .rejected) ∧
          (x.isRejected = false → (∀ outer, outer <+: place → ¬source.UsedEarly settings outer) →
            r.state = .resolved) := by
  have hsound := sound_of_read h
  obtain ⟨resolved, hresolve, hstands⟩ := exists_resolve settings hsound (recorded_of_read h)
  exact ⟨resolved, hresolve, errors_resolve hsound hresolve,
    fun way trail c span binding i es hreach hc => reach_resolve hsound hresolve hreach hc,
    fun place trail x i hreach hx => state_resolve h hsound hresolve hstands hreach hx⟩

/-- A step binding that is used in a closure of its first step, with one inside and one after it. -/
def closureUseText : String := "let($) x = () => $ + (let(_) = 1, _), $; let(a) y = 1, a;"

theorem closure_use_run : (match read "closure" closureUseText with
    | .ok (.ok source) =>
      match resolve {} source with
      | .ok resolved => (resolved.diagnostics.filter Diagnostic.isError).length == 1 &&
        resolved.log.records.map Record.state == [.rejected, .rejected, .resolved]
      | .error _ => false
    | _ => false) = true := by
  decide +kernel

/-- It is rejected for the use, together with the one inside; the one after it is resolved. -/
theorem closure_use_rejected : ∃ source resolved,
    read "closure" closureUseText = .ok (.ok source) ∧ resolve {} source = .ok resolved ∧
    (∃ i way place ref, source.EarlyUse {} i way place ref) ∧
    resolved.log.records.map Record.state = [.rejected, .rejected, .resolved] := by
  have hrun := closure_use_run
  split at hrun
  · rename_i source hread
    obtain ⟨resolved, hresolve, ⟨uses, -, hmem, herrors⟩, -⟩ := early_uses_exact {} hread
    rw [hresolve] at hrun
    simp only [herrors, List.length_map, Bool.and_eq_true, beq_iff_eq] at hrun
    obtain ⟨⟨place, i, ref⟩, huses⟩ := List.length_eq_one_iff.mp hrun.1
    obtain ⟨way, huse⟩ := (hmem place i ref).mp (by rw [huses]; exact List.mem_singleton_self _)
    exact ⟨source, resolved, hread, hresolve, ⟨i, way, place, ref, huse⟩, hrun.2⟩
  · cases hrun

end StepBinding.Compile
