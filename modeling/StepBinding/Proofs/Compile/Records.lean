import StepBinding.Proofs.Lower.Spliced
import StepBinding.Proofs.Resolve.Edits

/-! The records of a result. Every step binding of the module that is lowered is in its place, every
other one of the module that was read is rejected, and of those that were not kept while reading
only the ones inside a step that is no expression are left behind, at most read. Fresh names are
told apart by their numbers, which increase with those of the step bindings. -/

namespace StepBinding

open StepBinding.Tree Construct

variable {name : String}

/-- The node itself spells an identifier: it refers to it, declares it, or binds it. -/
inductive Node.Spells (name : String) : Node → Prop
  | reference {span} : Spells name (.expr (.identifier span name))
  | variable {span init} : Spells name (.declarator (.mk span name init))
  | declaredFunction {span params body} : Spells name (.stmt (.function span name params body))
  | namedFunction {span params body} : Spells name (.expr (.function span (some name) params body))
  | declaredParameter {span function params body} (h : name ∈ params) :
    Spells name (.stmt (.function span function params body))
  | parameter {span function params body} (h : name ∈ params) :
    Spells name (.expr (.function span function params body))
  | arrowParameter {span params body} (h : name ∈ params) :
    Spells name (.expr (.arrow span params body))
  | arrowBlockParameter {span params blockSpan body} (h : name ∈ params) :
    Spells name (.expr (.arrowBlock span params blockSpan body))
  | loopVariable {span qualifier iterable body} :
    Spells name (.stmt (.forOf span qualifier name iterable body))
  | binding {span qualifier steps index fresh} :
    Spells name (.expr (.steps span qualifier name steps index fresh))
  | declarationBinding {span qualifier result steps index fresh} :
    Spells name (.stmt (.steps span qualifier name result steps index fresh))
  | result {span qualifier binding steps index fresh} :
    Spells name (.stmt (.steps span qualifier binding name steps index fresh))

/-- Whatever is spelled at a place of a module is reserved. -/
theorem mem_names_of_spells {m : Module} {place : List Nat} {trail : List Binder} {n : Node}
    (hn : m.reach place = some (trail, n)) (h : n.Spells name) : name ∈ Tree.names m := by
  have hspelled : name ∈ Tree.spelled n := by cases h <;> simp_all [Tree.spelled]
  exact List.mem_flatMap.mpr ⟨n, Module.mem_walk_of_reach hn, hspelled⟩

namespace Compile

variable {settings : LowerSettings} {file text : String} {source : Source} {result : Result}
  {target : Target} {resolved : Resolved} {log : Log} {i : Nat} {r : Record}

/-- The parts of the result for a source. -/
structure Lowers (settings : LowerSettings) (source : Source) (target : Target)
    (resolved : Resolved) (log : Construct.Log) (result : Result) : Prop where
  target_eq : Target.ofName? settings.target = some target
  resolved_eq : resolve settings source = .ok resolved
  log_eq : Splice.splice resolved.log (marks (walkStmts resolved.module.body)) = .ok log
  module_eq : result.module = some (Lower.module target resolved.module)
  mem_diagnostics : ∀ d, d ∈ result.diagnostics ↔ d ∈ source.diagnostics ∨ d ∈ resolved.diagnostics
  constructs_eq : result.constructs = log.records

/-- A resolved module is well-formed, and its step bindings have fresh names. -/
theorem formed_resolve (hsound : source.Sound) (h : resolve settings source = .ok resolved) :
    AllStmts (fun n => n.Formed (fun _ => True) ∧
      ∀ i, construct? n = some i → n.fresh?.isSome = true) resolved.module.body := by
  rw [(Resolved.ofModule_eq_ok h).1]
  refine (Resolved.ordered_visited (hsound.written.imp fun _ hn => hn.1)).imp fun n hn => ?_
  exact ⟨hn.2, fun i hi => Option.isSome_of_eq_some (hn.1.fresh i hi).1⟩

theorem nodup_resolve (hsound : source.Sound) (h : resolve settings source = .ok resolved) :
    (marks (walkStmts resolved.module.body)).Nodup := by
  rw [(Resolved.ofModule_eq_ok h).1]
  exact (hsound.sorted.imp Nat.ne_of_lt).sublist Resolved.marks_visited

theorem mapError_ok {ε ε' α : Type} (f : ε → ε') (a : α) : (Except.ok a).mapError f = .ok a := rfl

theorem lowers_of_ok (hsound : source.Sound) (h : lower settings source = .ok result) :
    ∃ target resolved log, Lowers settings source target resolved log result := by
  unfold lower at h
  cases hresolved : resolve settings source with
  | error why => rw [hresolved] at h; cases h
  | ok resolved =>
    simp only [hresolved, mapError_ok, bind, Except.bind] at h
    cases htarget : Target.ofName? settings.target with
    | none => simp only [htarget] at h; cases h
    | some target =>
      simp only [htarget] at h
      cases hsplice : Splice.module target resolved.module resolved.log with
      | error why => simp only [hsplice] at h; cases h
      | ok x =>
        obtain ⟨m, log⟩ := x
        obtain ⟨hlog, rfl⟩ := (Splice.module_eq_ok_iff target
          ((formed_resolve hsound hresolved).imp fun _ hn => hn.1)
          (nodup_resolve hsound hresolved)).mp hsplice
        simp only [hsplice, mapError_ok] at h
        cases hcode : Print.module? "  " (Lower.module target resolved.module) with
        | error why => simp only [hcode] at h; cases h
        | ok code =>
          simp only [hcode] at h
          cases h
          refine ⟨target, resolved, log, htarget, hresolved, hlog, rfl, ?_, rfl⟩
          intro d
          exact List.mem_mergeSort.trans List.mem_append

/-- The result for a source by its parts. -/
theorem lower_eq_ok {code : String} (hsound : source.Sound)
    (htarget : Target.ofName? settings.target = some target)
    (hresolve : resolve settings source = .ok resolved)
    (hsplice : Splice.splice resolved.log (marks (walkStmts resolved.module.body)) = .ok log)
    (hprint : Tree.Print.module? "  " (Lower.module target resolved.module) = .ok code) :
    lower settings source = .ok
      { code := some code
        module := some (Lower.module target resolved.module)
        diagnostics := inSourceOrder (source.diagnostics ++ resolved.diagnostics)
        constructs := log.records } := by
  have hmodule := (Splice.module_eq_ok_iff target (x := (Lower.module target resolved.module, log))
    ((formed_resolve hsound hresolve).imp fun _ hn => hn.1) (nodup_resolve hsound hresolve)).mpr
    ⟨hsplice, rfl⟩
  simp only [lower, hresolve, htarget, hmodule, hprint, mapError_ok, bind, Except.bind]
  rfl

/-- The edits by which a source is resolved. -/
def edits (settings : LowerSettings) (source : Source) : List Resolve.Edit :=
  (Resolved.visit { stem := settings.stem } settings.shadowWarnings settings.globals
    source.module).edits

/-- The fresh name of the step binding of number `i` of a source. -/
def freshOf (settings : LowerSettings) (source : Source) (i : Nat) : String :=
  (Resolved.context { stem := settings.stem } settings.shadowWarnings source.module).freshOf i

/-- What is known of a record once its step binding is resolved or rejected. -/
structure Entry (settings : LowerSettings) (source : Source) (resolved : Resolved) (i : Nat)
    (r : Record) : Prop where
  index : r.index = i
  raw : ∃ r₀, source.log.get? i = some r₀ ∧ r₀.Raw i ∧ r₀.codes ⊆ r.codes ∧
    (r₀.state.isFinal = true → r.state = .rejected) ∧
    (i ∉ marks (walkStmts source.module.body) → r = r₀)
  rejected : i ∈ marks (walkStmts source.module.body) →
    i ∉ marks (walkStmts resolved.module.body) → r.state = .rejected
  fair : r.Fair
  named : r.state = .resolved → r.fresh.isSome = true
  fresh : ∀ name ∈ r.fresh,
    i ∈ marks (walkStmts source.module.body) ∧ name = freshOf settings source i

/-- Only what is in the resolved module gets into its place. -/
theorem Entry.state_ne (h : Entry settings source resolved i r)
    (hi : i ∉ marks (walkStmts resolved.module.body)) : r.state ≠ .spliced := by
  by_cases hmem : i ∈ marks (walkStmts source.module.body)
  · rw [h.rejected hmem hi]
    decide
  · obtain ⟨r₀, -, hraw, -, -, hsame⟩ := h.raw
    rw [hsame hmem]
    rcases hraw.state with hs | hs | hs <;> rw [hs] <;> decide

theorem filled_of_formed {N : String → Prop} {m : Module} (h : AllStmts (Node.Formed N) m.body) :
    m.root.Filled := by
  refine .of_formed (N := N) fun x hx => ?_
  rcases List.mem_cons.mp hx with rfl | hx
  · exact ⟨nofun, nofun⟩
  · exact (allStmts_iff_walk _).mp h x hx

theorem Source.Sound.filled (h : source.Sound) : source.module.root.Filled :=
  filled_of_formed (h.written.imp fun _ hn => hn.1)

/-- The edits for the step bindings of a source. -/
theorem accounts_resolve (hsound : source.Sound) (h : resolve settings source = .ok resolved) :
    Resolve.Accounts (Resolved.context { stem := settings.stem } settings.shadowWarnings source.module)
      (marks (walkStmts source.module.body)) (marks (walkStmts resolved.module.body))
      (edits settings source) resolved.diagnostics := by
  obtain ⟨hmodule, hdiagnostics, -⟩ := Resolved.ofModule_eq_ok h
  rw [hdiagnostics, hmodule]
  exact Resolved.accounts_visit hsound.filled

theorem entry_of_resolve (hsound : source.Sound) (h : resolve settings source = .ok resolved)
    (hr : resolved.log.get? i = some r) : Entry settings source resolved i r := by
  obtain ⟨-, -, hedits⟩ := Resolved.ofModule_eq_ok h
  have hacc := accounts_resolve hsound h
  rw [Resolve.Edit.get?_applyAll hedits] at hr
  obtain ⟨r₀, hr₀, rfl⟩ := Option.map_eq_some_iff.mp hr
  change Entry settings source resolved i ((edits settings source).foldl (fun r e => e.act i r) r₀)
  have hraw := hsound.raw hr₀
  have hopen : r₀.state ≠ .spliced ∧ r₀.state ≠ .resolved := by
    rcases hraw.state with h | h | h <;> rw [h] <;> decide
  have hrejected (h : ((edits settings source).foldl (fun r e => e.act i r) r₀).state.isFinal) :
      ((edits settings source).foldl (fun r e => e.act i r) r₀).state = .rejected := by
    have hne := @Resolve.Edit.foldl_act i r₀ (edits settings source) (·.state ≠ .spliced) hopen.1
      fun e _ r hr => (Resolve.Edit.state_act e).2 hr
    generalize ((edits settings source).foldl (fun r e => e.act i r) r₀).state = s at h hne
    cases s <;> first | rfl | exact absurd rfl hne | cases h
  refine ⟨?_, ⟨r₀, hr₀, hraw, ?_, fun hfinal => hrejected ?_, fun hi => ?_⟩,
    fun hi hi' => hrejected ?_, ?_, ?_, ?_⟩
  · exact Resolve.Edit.foldl_act (P := (·.index = i)) hraw.index fun e _ r hr =>
      (Resolve.Edit.index_act e).trans hr
  · exact Resolve.Edit.foldl_act (P := fun r => r₀.codes ⊆ r.codes) (List.Subset.refl _)
      fun e _ r hr => List.Subset.trans hr (Resolve.Edit.codes_act e)
  · exact Resolve.Edit.foldl_act (P := (·.state.isFinal)) hfinal
      fun e _ r hr => (Resolve.Edit.state_act e).1 hr
  · refine Resolve.Edit.foldl_act (P := (· = r₀)) rfl fun e he r hr => ?_
    rw [Resolve.Edit.act_of_notMem fun hmem => hi (hacc.within e he i hmem), hr]
  · obtain ⟨e, he, hrejects⟩ := (hacc.kept i hi).resolve_left hi'
    exact Resolve.Edit.isFinal_foldl he hrejects
  · exact Resolve.Edit.foldl_act hraw.fair fun e he r hr => Resolve.Edit.fair_act (hacc.fair e he) hr
  · exact Resolve.Edit.foldl_act (P := fun r => r.state = .resolved → r.fresh.isSome)
      (fun h => absurd h hopen.2) fun e _ r hr => Resolve.Edit.named_act e hr
  · refine Resolve.Edit.foldl_act (P := fun r => ∀ name ∈ r.fresh,
      i ∈ marks (walkStmts source.module.body) ∧ name = freshOf settings source i) ?_
      fun e he r hr name hname => ?_
    · rw [hraw.fresh]
      exact nofun
    · rcases Resolve.Edit.fresh_act hname with h | rfl
      · exact hr name h
      · exact ⟨hacc.within _ he i (List.mem_singleton_self i), hacc.fresh i name he⟩

/-- A record of a result is one of the resolved source, or in its place. -/
theorem entry_of_get? (hsound : source.Sound)
    (hparts : Lowers settings source target resolved log result) (hr : log.get? i = some r) :
    ∃ r₁, Entry settings source resolved i r₁ ∧
      ((i ∈ marks (walkStmts resolved.module.body) ∧ r₁.state = .resolved ∧
          r = { r₁ with state := .spliced }) ∨
        (i ∉ marks (walkStmts resolved.module.body) ∧ r = r₁)) := by
  obtain ⟨hresolved, hget⟩ := Splice.get?_splice hparts.log_eq
  rw [hget] at hr
  obtain ⟨r₁, hr₁, rfl⟩ := Option.map_eq_some_iff.mp hr
  refine ⟨r₁, entry_of_resolve hsound hparts.resolved_eq hr₁, ?_⟩
  by_cases hi : i ∈ marks (walkStmts resolved.module.body)
  · obtain ⟨r₂, hr₂, hstate⟩ := hresolved i hi
    cases hr₁.symm.trans hr₂
    exact .inl ⟨hi, hstate, if_pos hi⟩
  · exact .inr ⟨hi, if_neg hi⟩

theorem exists_get? (hparts : Lowers settings source target resolved log result)
    (hr : r ∈ result.constructs) : ∃ i, log.get? i = some r := by
  rw [hparts.constructs_eq] at hr
  exact List.mem_iff_getElem?.mp hr

theorem mem_constructs (hparts : Lowers settings source target resolved log result)
    (hr : log.get? i = some r) : r ∈ result.constructs := by
  rw [hparts.constructs_eq]
  exact List.mem_iff_getElem?.mpr ⟨i, hr⟩

/-- All records of a source are in the result. -/
theorem isSome_get? (hparts : Lowers settings source target resolved log result)
    (hi : ∃ r₀, source.log.get? i = some r₀) : ∃ r, log.get? i = some r := by
  obtain ⟨-, -, hedits⟩ := Resolved.ofModule_eq_ok hparts.resolved_eq
  obtain ⟨r₀, hr₀⟩ := hi
  exact ⟨_, by rw [(Splice.get?_splice hparts.log_eq).2, Resolve.Edit.get?_applyAll hedits, hr₀]; rfl⟩

/-- A step binding that was rejected while reading stays so, with the codes it had. -/
theorem rejected_of_isFinal {r₀ : Record} (hsound : source.Sound)
    (hparts : Lowers settings source target resolved log result) (hr₀ : source.log.get? i = some r₀)
    (hfinal : r₀.state.isFinal) :
    ∃ r ∈ result.constructs, r.index = i ∧ r.state = .rejected ∧ r₀.codes ⊆ r.codes := by
  obtain ⟨r, hr⟩ := isSome_get? hparts ⟨r₀, hr₀⟩
  obtain ⟨r₁, hentry, hcase⟩ := entry_of_get? hsound hparts hr
  obtain ⟨r₀', hr₀', -, hcodes, hrejected, -⟩ := hentry.raw
  cases hr₀.symm.trans hr₀'
  refine ⟨r, mem_constructs hparts hr, ?_⟩
  rcases hcase with ⟨-, hresolved, -⟩ | ⟨-, rfl⟩
  · rw [hrejected hfinal] at hresolved
    cases hresolved
  · exact ⟨hentry.index, hrejected hfinal, hcodes⟩

/-- In a source without errors all step bindings are kept when it is resolved without errors. -/
theorem mem_marks_of_calm (hsound : source.Sound) (hcalm : source.Calm)
    (h : resolve settings source = .ok resolved)
    (hsilent : ∀ d ∈ resolved.diagnostics, d.isError = false) (hi : i < source.log.size) :
    i ∈ marks (walkStmts resolved.module.body) := by
  have hacc := accounts_resolve hsound h
  have hmem : i ∈ marks (walkStmts source.module.body) := by
    rw [hsound.whole hcalm]
    exact List.mem_range.mpr hi
  rcases hacc.kept i hmem with hi | ⟨e, he, hrejects⟩
  · exact hi
  · obtain ⟨d, hd, herror⟩ := hacc.loud i e he hrejects
    rw [hsilent d hd] at herror
    cases herror

/-- A step binding ends in its place or rejected, with an error as the reason, or it is left as it
was read. Then a step binding that was begun before it is rejected, because one of its steps is no
expression. A program without errors has all of them in place. -/
theorem constructs_end (h : transform settings file text = .ok result)
    (hcode : result.code.isSome = true) :
    (∀ r ∈ result.constructs,
      (r.state = .spliced ∨ r.state = .rejected ∨
        ((r.state = .matched ∨ r.state = .parsed) ∧ ∃ q ∈ result.constructs,
          q.index < r.index ∧ q.state = .rejected ∧ .grammar ∈ q.codes)) ∧
      (r.state = .rejected → ∃ code ∈ r.codes, code ≠ .shadowing)) ∧
    (result.isOk = true → ∀ r ∈ result.constructs, r.state = .spliced) := by
  obtain ⟨source, -, hlower, hsound⟩ := source_of_code h hcode
  obtain ⟨target, resolved, log, hparts⟩ := lowers_of_ok hsound hlower
  refine ⟨fun r hr => ?_, fun hok r hr => ?_⟩
  · obtain ⟨i, hi⟩ := exists_get? hparts hr
    obtain ⟨r₁, hentry, ⟨-, -, rfl⟩ | ⟨hnot, rfl⟩⟩ := entry_of_get? hsound hparts hi
    · exact ⟨.inl rfl, nofun⟩
    refine ⟨.inr ?_, hentry.fair⟩
    by_cases hmem : i ∈ marks (walkStmts source.module.body)
    · exact .inl (hentry.rejected hmem hnot)
    -- What is not in the module is as it was read.
    obtain ⟨r₀, hr₀, hraw, -, hrejected, hsame⟩ := hentry.raw
    rcases (hsound.settled i (Log.lt_size_iff.mpr ⟨r₀, hr₀⟩)).resolve_left hmem with
      ⟨r', hr', hfinal⟩ | ⟨j, hj, q₀, hq₀, hfinal, hgrammar⟩
    · cases hr₀.symm.trans hr'
      exact .inl (hrejected hfinal)
    · obtain ⟨q, hq, hindex, hstate, hcodes⟩ := rejected_of_isFinal hsound hparts hq₀ hfinal
      rcases hraw.state with hs | hs | hs
      · exact .inr ⟨.inl (hsame hmem ▸ hs), q, hq, by rw [hindex, hentry.index]; exact hj, hstate,
          hcodes hgrammar⟩
      · exact .inr ⟨.inr (hsame hmem ▸ hs), q, hq, by rw [hindex, hentry.index]; exact hj, hstate,
          hcodes hgrammar⟩
      · exact .inl (hsame hmem ▸ hs)
  · have hcalm (d : Diagnostic) (hd : d ∈ source.diagnostics ∨ d ∈ resolved.diagnostics) :
        d.isError = false := isOk_iff.mp hok d ((hparts.mem_diagnostics d).mpr hd)
    obtain ⟨i, hi⟩ := exists_get? hparts hr
    obtain ⟨r₁, hentry, ⟨-, -, rfl⟩ | ⟨hnot, -⟩⟩ := entry_of_get? hsound hparts hi
    · rfl
    · obtain ⟨r₀, hr₀, -⟩ := hentry.raw
      exact absurd (mem_marks_of_calm hsound (fun d hd => hcalm d (.inl hd)) hparts.resolved_eq
        (fun d hd => hcalm d (.inr hd)) (Log.lt_size_iff.mpr ⟨r₀, hr₀⟩)) hnot

/-- A step binding in parentheses, in a step that ends too early. -/
def brokenText : String := "let($) x = (let(_) = 1, _) +;"

/-- The step binding inside the broken step is left as it was read, although there is code. -/
theorem broken_left : ∃ result, transform {} "broken" brokenText = .ok result ∧
    result.code = some "" ∧ ∃ r ∈ result.constructs, r.state = .parsed ∧ r.codes = [] := by
  have hrun : (match transform {} "broken" brokenText with
      | .ok result => result.code == some "" &&
        result.constructs.any fun r => r.state == .parsed && r.codes.isEmpty
      | .error _ => false) = true := by decide +kernel
  split at hrun
  · rename_i result htransform
    simp only [Bool.and_eq_true, beq_iff_eq, List.any_eq_true, List.isEmpty_iff] at hrun
    obtain ⟨hcode, r, hr, hstate, hcodes⟩ := hrun
    exact ⟨result, htransform, hcode, r, hr, hstate, hcodes⟩
  · cases hrun

/-- The step binding around the broken step is rejected for it. -/
theorem broken_rejected : ∃ result, transform {} "broken" brokenText = .ok result ∧
    ∃ r ∈ result.constructs, r.state = .parsed ∧
      ∃ q ∈ result.constructs, q.index < r.index ∧ q.state = .rejected ∧ .grammar ∈ q.codes := by
  have hrun : (match transform {} "broken" brokenText with
      | .ok result => result.code.isSome && result.constructs.any fun r => r.state == .parsed
      | .error _ => false) = true := by decide +kernel
  split at hrun
  · rename_i result htransform
    simp only [Bool.and_eq_true, List.any_eq_true, beq_iff_eq] at hrun
    obtain ⟨hcode, r, hr, hstate⟩ := hrun
    obtain ⟨hends, -⟩ := (constructs_end htransform hcode).1 r hr
    refine ⟨result, htransform, r, hr, hstate, ?_⟩
    rw [hstate] at hends
    rcases hends with h | h | ⟨-, h⟩
    · cases h
    · cases h
    · exact h
  · cases hrun

/-- A fresh name that is recorded is that of the step binding of the record. -/
theorem eq_freshOf_of_fresh (hsound : source.Sound)
    (hparts : Lowers settings source target resolved log result) (hr : r ∈ result.constructs)
    (hname : r.fresh = some name) :
    r.index ∈ marks (walkStmts source.module.body) ∧ name = freshOf settings source r.index := by
  obtain ⟨i, hi⟩ := exists_get? hparts hr
  obtain ⟨r₁, hentry, hcase⟩ := entry_of_get? hsound hparts hi
  have hfresh : r.fresh = r₁.fresh ∧ r.index = r₁.index := by
    rcases hcase with ⟨-, -, rfl⟩ | ⟨-, rfl⟩ <;> exact ⟨rfl, rfl⟩
  rw [hfresh.1] at hname
  rw [hfresh.2, hentry.index]
  exact hentry.fresh name hname

theorem lookup_of_fresh (hsound : source.Sound)
    (hparts : Lowers settings source target resolved log result) (hr : r ∈ result.constructs)
    (hname : r.fresh = some name) :
    (Resolved.freshTable { stem := settings.stem } source.module).lookup r.index = some name := by
  obtain ⟨hmem, rfl⟩ := eq_freshOf_of_fresh hsound hparts hr hname
  exact Resolved.freshOf_mem hmem

/-- The fresh names of a result are different from each other and from all that the program spells.
They have increasing numbers, in the order of the log, and no step binding in its place lacks one. -/
theorem fresh_names_in_order (h : transform settings file text = .ok result)
    (hcode : result.code.isSome = true) :
    ∃ source, read file text = .ok (.ok source) ∧
      (∀ r ∈ result.constructs, r.state = .spliced → r.fresh.isSome = true) ∧
      (∀ (i : Nat) (r : Record), result.constructs[i]? = some r → r.index = i) ∧
      (∀ r ∈ result.constructs, ∀ name, r.fresh = some name →
        (∃ n : Nat, name = settings.stem ++ toString n) ∧ name ≠ "undefined" ∧
        ∀ place trail node, source.module.reach place = some (trail, node) → ¬node.Spells name) ∧
      (∀ r ∈ result.constructs, ∀ s ∈ result.constructs, ∀ name, r.fresh = some name →
        s.fresh = some name → r = s) ∧
      (∀ r ∈ result.constructs, ∀ s ∈ result.constructs, r.index < s.index → ∀ n k : Nat,
        r.fresh = some (settings.stem ++ toString n) →
        s.fresh = some (settings.stem ++ toString k) → n < k) := by
  obtain ⟨source, hread, hlower, hsound⟩ := source_of_code h hcode
  obtain ⟨target, resolved, log, hparts⟩ := lowers_of_ok hsound hlower
  have hindex (i : Nat) (r : Record) (hi : log.get? i = some r) : r.index = i := by
    obtain ⟨r₁, hentry, ⟨-, -, rfl⟩ | ⟨-, rfl⟩⟩ := entry_of_get? hsound hparts hi <;>
      exact hentry.index
  refine ⟨source, hread, fun r hr hstate => ?_, fun i r hi => ?_, fun r hr name hname => ⟨?_, ?_, ?_⟩,
    fun r hr s hs name hname hname' => ?_, fun r hr s hs hlt n k hn hk => ?_⟩
  · obtain ⟨i, hi⟩ := exists_get? hparts hr
    obtain ⟨r₁, hentry, ⟨-, hresolved, rfl⟩ | ⟨hnot, rfl⟩⟩ := entry_of_get? hsound hparts hi
    · exact hentry.named hresolved
    · exact absurd hstate (hentry.state_ne hnot)
  · rw [hparts.constructs_eq] at hi
    exact hindex i r hi
  · exact Resolved.fresh_eq_stem (lookup_of_fresh hsound hparts hr hname)
  · rintro rfl
    obtain ⟨c, hc, hdigit⟩ := Resolved.fresh_ends (lookup_of_fresh hsound hparts hr hname)
    cases hc
    cases hdigit
  · intro place trail node hreach hspells
    exact Resolved.fresh_notMem_names (lookup_of_fresh hsound hparts hr hname)
      (mem_names_of_spells hreach hspells)
  · have heq : r.index = s.index := Resolved.fresh_inj (lookup_of_fresh hsound hparts hr hname)
      (lookup_of_fresh hsound hparts hs hname')
    obtain ⟨i, hi⟩ := exists_get? hparts hr
    obtain ⟨j, hj⟩ := exists_get? hparts hs
    rw [hindex i r hi, hindex j s hj] at heq
    subst heq
    exact Option.some.inj (hi.symm.trans hj)
  · exact Resolved.fresh_increasing hsound.sorted (lookup_of_fresh hsound hparts hr hn)
      (lookup_of_fresh hsound hparts hs hk) hlt

/-- A step binding in a step of another one, in a program that spells the first fresh name. -/
def spelledText : String := "let($)x=let(_)=_tb1,_;"

/-- The inner step binding is the later one and has the greater number. -/
theorem spelled_in_order : ∃ result, transform {} "spelled" spelledText = .ok result ∧
    ∃ r ∈ result.constructs, ∃ s ∈ result.constructs, r.fresh = some "_tb2" ∧
      s.fresh = some "_tb3" ∧ r.index < s.index ∧ 2 < 3 := by
  have hrun : (match transform {} "spelled" spelledText with
      | .ok result => result.code.isSome && result.constructs.any fun r => r.fresh == some "_tb2" &&
        result.constructs.any fun s => s.fresh == some "_tb3" && decide (r.index < s.index)
      | .error _ => false) = true := by decide +kernel
  split at hrun
  · rename_i result htransform
    simp only [Bool.and_eq_true, List.any_eq_true, beq_iff_eq, decide_eq_true_eq] at hrun
    obtain ⟨hcode, r, hr, hn, s, hs, hk, hlt⟩ := hrun
    obtain ⟨-, -, -, -, -, -, horder⟩ := fresh_names_in_order htransform hcode
    exact ⟨result, htransform, r, hr, s, hs, hn, hk, hlt, horder r hr s hs hlt 2 3 hn hk⟩
  · cases hrun

end Compile

end StepBinding
