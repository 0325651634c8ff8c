import StepBinding.Proofs.Compile.Total
import StepBinding.Proofs.Grammar.Alike
import StepBinding.Proofs.Lower.Relabeled
import StepBinding.Proofs.Resolve.Relabeled

/-! The same tokens at other places give the same result at other places. Reading, resolving and
lowering carry ranges along, the log notes them, and printing does not look at them. Only the order
of the diagnostics depends on ranges, and it stays if the starts of the ranges keep their order. -/

namespace StepBinding

open List Token StepBinding.Tree Construct

variable {l l' : Log} {resolved : Resolved} {tokens : List Token}

namespace Construct.Change

variable (μ : Change)

theorem agrees_apply (l : Log) (e : Resolve.Edit) :
    μ.Agrees (e.apply l) (e.apply (μ.log l)) := by
  cases e with
  | note i code => exact fun _ => ⟨rfl, μ.note_log⟩
  | settle i fresh =>
    have hmodify := @modify_log μ l i (fun r => { r with fresh := some fresh })
      (fun r => { r with fresh := some fresh }) fun _ => rfl
    change μ.Agrees _ (((μ.log l).modify i _).advance i .resolved)
    rw [hmodify]
    exact μ.agrees_advance
  | reject i code => exact μ.agrees_reject
  | rejectAll is code => exact μ.agrees_rejectAll

theorem applyAll_log {es : List Resolve.Edit} (h : Resolve.Edit.applyAll l es = .ok l') :
    Resolve.Edit.applyAll (μ.log l) es = .ok (μ.log l') := by
  induction es generalizing l with
  | nil =>
    cases h
    rfl
  | cons e es ih =>
    unfold Resolve.Edit.applyAll at h ⊢
    dsimp only at h ⊢
    cases hnone : (e.apply l).refusal with
    | some why => rw [hnone] at h; cases h
    | none =>
      obtain ⟨hnone', hlog⟩ := μ.agrees_apply l e hnone
      rw [hnone] at h
      rw [hnone', hlog]
      exact ih h

theorem done_log {i : Nat} {x : Unit × Log} (h : Splice.done i l = .ok x) :
    Splice.done i (μ.log l) = .ok ((), μ.log x.2) := by
  unfold Splice.done at h ⊢
  dsimp only at h ⊢
  cases hlowered : (l.advance i .lowered).refusal with
  | some why => rw [hlowered] at h; cases h
  | none =>
    cases hspliced : ((l.advance i .lowered).log.advance i .spliced).refusal with
    | some why => rw [hlowered, hspliced] at h; cases h
    | none =>
      obtain ⟨hlowered', hlog⟩ := μ.agrees_advance hlowered
      obtain ⟨hspliced', hlog'⟩ := μ.agrees_advance hspliced
      rw [hlowered, hspliced] at h
      cases h
      rw [hlowered', hlog, hspliced', hlog']

theorem splice_log {is : List Nat} (h : Splice.splice l is = .ok l') :
    Splice.splice (μ.log l) is = .ok (μ.log l') := by
  induction is generalizing l with
  | nil =>
    cases h
    rfl
  | cons i is ih =>
    obtain ⟨x, hdone, hrest⟩ := Splice.splice_cons h
    change (Splice.done i (μ.log l) >>= fun x => Splice.splice x.2 _) = _
    rw [μ.done_log hdone]
    exact ih hrest

end Construct.Change

namespace Relabel

variable (f : Relabel)

theorem spelled_node (n : Node) : spelled (f.node n) = spelled n := by
  cases n with
  | expr e =>
    cases e <;> first | rfl | skip
    simp only [node, expr]
    split <;> rfl
  | stmt s =>
    cases s <;> first | rfl | skip
    rename_i alternate
    cases alternate <;> rfl
  | property p => rfl
  | declarator d => cases d; rfl

theorem names_stmts (span span' : Span) (ss : List Stmt) :
    names ⟨span', f.stmts ss⟩ = names ⟨span, ss⟩ := by
  unfold names
  rw [walkStmts_stmts, flatMap_map]
  exact congrArg (List.flatMap · _) (funext f.spelled_node)

theorem marks_stmts (ss : List Stmt) :
    marks (walkStmts (f.stmts ss)) = marks (walkStmts ss) := by
  unfold marks
  rw [walkStmts_stmts, filterMap_map]
  exact congrArg (List.filterMap · _) (funext f.construct?_node)

theorem moduleScope_stmts (globals : List String) (ss : List Stmt) :
    Resolved.moduleScope globals (f.stmts ss) = f.scope (Resolved.moduleScope globals ss) := by
  have hglobals := f.defineAll_binding [] (globals.map fun name => { name, kind := .global })
  rw [f.binding_names] at hglobals
  rw [Resolved.moduleScope, functionFrame_stmts]
  exact congrArg (fun frame => [_, frame]) hglobals

/-- Resolving a module carries the change along. -/
theorem visit_module {names : FreshNames} {warnings : Bool} {globals : List String} {m m' : Module}
    (hbody : m'.body = f.stmts m.body) : Resolved.visit names warnings globals m' =
      f.visit f.stmts (Resolved.visit names warnings globals m) := by
  have htable : Resolved.freshTable names m' = Resolved.freshTable names m := by
    obtain ⟨span, body⟩ := m
    obtain ⟨span', body'⟩ := m'
    cases hbody
    have hmarks := f.marks_stmts body
    unfold marks at hmarks
    simp only [Resolved.freshTable, Resolved.asked_eq, hmarks, f.names_stmts span]
  rw [Resolved.visit, Resolved.context, htable, hbody, f.moduleScope_stmts]
  exact Relabel.resolve_stmts Relabel.carries_visit _ _

end Relabel

/-- Resolving carries the change along. -/
theorem Construct.Change.ofModule_moved (μ : Change) {names : FreshNames} {warnings : Bool}
    {globals : List String} {m m' : Module} (hbody : m'.body = μ.label.stmts m.body)
    (h : Resolved.ofModule names warnings globals l m = .ok resolved) :
    Resolved.ofModule names warnings globals (μ.log l) m' = .ok
      { module := { m' with body := μ.label.stmts resolved.module.body }
        diagnostics := resolved.diagnostics.map μ.diagnostic
        log := μ.log resolved.log } := by
  obtain ⟨hmodule, hdiagnostics, hedits⟩ := Resolved.ofModule_eq_ok h
  have hvisit := @Relabel.visit_module μ.label names warnings globals _ _ hbody
  have hlog : Resolve.Edit.applyAll (μ.log l) (Resolved.visit names warnings globals m').edits =
      .ok (μ.log resolved.log) := by
    rw [hvisit]
    exact μ.applyAll_log hedits
  have hrun : Resolved.ofModule names warnings globals (μ.log l) m' =
      (Resolve.Edit.applyAll (μ.log l) (Resolved.visit names warnings globals m').edits).map
        fun log => { module := { m' with body := (Resolved.visit names warnings globals m').value }
                     diagnostics := (Resolved.visit names warnings globals m').diagnostics, log } := by
    rfl
  rw [hrun, hlog, hvisit, hmodule, hdiagnostics]
  rfl

/-- A change that keeps the order of the places. -/
structure Construct.Change.Rigid (μ : Change) : Prop where
  default : μ.span default = default
  before : ∀ a b : Span, (μ.span a).start.before (μ.span b).start = a.start.before b.start

/-- The order of diagnostics stays. -/
theorem Construct.Change.Rigid.inSourceOrder_map {μ : Change} (hμ : μ.Rigid) (ds : List Diagnostic) :
    Compile.inSourceOrder (ds.map μ.diagnostic) = (Compile.inSourceOrder ds).map μ.diagnostic := by
  have hplaced (d e : Diagnostic) :
      (μ.diagnostic d).placedBefore (μ.diagnostic e) = d.placedBefore e := by
    have hspan (d : Diagnostic) : (μ.diagnostic d).span? = d.span?.map μ.span := by
      simp only [Diagnostic.span?, Change.diagnostic, Relabel.diagnostic, Change.label, head?_map,
        Option.map_map]
      rfl
    unfold Diagnostic.placedBefore
    rw [hspan, hspan]
    cases d.span? with
    | none => cases e.span? <;> rfl
    | some s =>
      cases e.span? with
      | none => rfl
      | some t => exact hμ.before s t
  refine (map_mergeSort fun d _ e _ => ?_).symm
  rw [hplaced]

/-- The same tokens at other places are the same program at other places. -/
theorem Grammar.Program.ofTokens_moved {μ : Change} {file : String} {tokens : List Token}
    {p : Program} (hne : tokens ≠ []) (h : ofTokens file tokens = .ok p) :
    ∃ p', ofTokens file (tokens.map μ.token) = .ok p' ∧
      p'.module?.map Module.body = p.module?.map (fun m => μ.label.stmts m.body) ∧
      p'.diagnostics = p.diagnostics.map μ.diagnostic ∧ p'.log = μ.log p.log := by
  let start : Cursor := { rest := tokens, last := tokens.headD default }
  have hstart : start.changed μ [] =
      { rest := tokens.map μ.token, last := (tokens.map μ.token).headD default } := by
    obtain ⟨t, ts, rfl⟩ := exists_cons_of_ne_nil hne
    simp [start, Cursor.changed, Change.log]
  unfold ofTokens at h ⊢
  dsimp only at h ⊢
  rw [length_map, ← hstart]
  have halike := (statements_alike μ (Nat.le_refl (2 * tokens.length + 2)) .endMark).run [] start
  split at h
  · cases h
  rename_i body c hread
  cases h
  rw [halike.resolve_left (by rw [hread]; rintro ⟨_, _, h, -⟩; cases h), hread]
  dsimp only [changed]
  refine ⟨_, rfl, ?_, by simp [Cursor.changed], rfl⟩
  cases hfaulty : c.faulty <;> simp [Cursor.changed, hfaulty, move_stmts]

/-- A diagnostic without its ranges. -/
def Diagnostic.unplaced (d : Diagnostic) : Diagnostic :=
  { d with labels := d.labels.map fun l => { l with span := default } }

/-- A record without its range. -/
def Construct.Record.unplaced (r : Record) : Record := { r with span := default }

namespace Compile

variable {settings : LowerSettings} {file text : String} {source source' : Source} {μ : Change}

/-- What a result says, apart from places: its code, its diagnostics and its records. -/
def Result.unplaced (r : Result) : Option String × List Diagnostic × List Record :=
  (r.code, r.diagnostics.map Diagnostic.unplaced, r.constructs.map Record.unplaced)

theorem unplaced_diagnostic (ds : List Diagnostic) :
    (ds.map μ.diagnostic).map Diagnostic.unplaced = ds.map Diagnostic.unplaced := by
  rw [map_map]
  refine map_congr_left fun d _ => ?_
  simp [Diagnostic.unplaced, Change.diagnostic, Relabel.diagnostic]

theorem unplaced_record (rs : List Record) :
    (rs.map μ.record).map Record.unplaced = rs.map Record.unplaced := by
  rw [map_map]
  refine map_congr_left fun r _ => ?_
  simp [Record.unplaced, Change.record]

/-- The lowered module of a well-formed source is printed. -/
theorem print_of_resolve (target : Target) (hsound : source.Sound)
    (h : resolve settings source = .ok resolved) :
    Tree.Print.module? "  " (Lower.module target resolved.module) =
      .ok (Tree.Print.moduleText "  " (Lower.module target resolved.module)) := by
  have hplain : AllStmts (Node.Plain fun _ => True) (Lower.module target resolved.module).body := by
    rw [(Resolved.ofModule_eq_ok h).1]
    exact Resolved.plain_lower (hsound.written.imp fun _ hn => hn.1)
  exact Tree.Print.module?_of_formed "  " (hplain.imp fun _ hn => hn.formed)

/-- A source at other places has the same result at other places. -/
theorem lower_moved (hμ : μ.Rigid) (hsound : source.Sound) (hsound' : source'.Sound)
    (hrecorded : ∀ n ∈ walkStmts source.module.body, Recorded source.log n)
    (hbody : source'.module.body = μ.label.stmts source.module.body)
    (hdiagnostics : source'.diagnostics = source.diagnostics.map μ.diagnostic)
    (hlog : source'.log = μ.log source.log) (settings : LowerSettings) :
    (lower settings source').map Result.unplaced = (lower settings source).map Result.unplaced := by
  obtain ⟨resolved, hresolve, hstands⟩ := exists_resolve settings hsound hrecorded
  have hresolve' := μ.ofModule_moved hbody hresolve
  rw [← hlog] at hresolve'
  cases htarget : Target.ofName? settings.target with
  | none =>
    have hnone (source : Source) (resolved : Resolved) (h : resolve settings source = .ok resolved) :
        lower settings source = .error (.unknownTarget settings.target) := by
      simp only [lower, h, htarget]
      rfl
    rw [hnone source resolved hresolve, hnone source' _ hresolve']
  | some target =>
    obtain ⟨log, hsplice⟩ := Splice.exists_splice (nodup_resolve hsound hresolve) hstands
    have hsplice' : Splice.splice (μ.log resolved.log)
        (marks (walkStmts (μ.label.stmts resolved.module.body))) = .ok (μ.log log) := by
      rw [μ.label.marks_stmts]
      exact μ.splice_log hsplice
    have hcode : Tree.Print.moduleText "  "
          (Lower.module target ⟨source'.module.span, μ.label.stmts resolved.module.body⟩) =
        Tree.Print.moduleText "  " (Lower.module target resolved.module) := by
      have hspan : μ.label.span default = default := hμ.default
      unfold Tree.Print.moduleText
      dsimp only [Lower.module]
      rw [Relabel.lower_stmts hspan, Relabel.stmtsText_stmts hspan]
    rw [lower_eq_ok hsound htarget hresolve hsplice (print_of_resolve target hsound hresolve),
      lower_eq_ok hsound' htarget hresolve' hsplice' (print_of_resolve target hsound' hresolve'), hcode]
    simp only [Except.map, Result.unplaced, hdiagnostics, ← map_append, hμ.inSourceOrder_map,
      unplaced_diagnostic, Change.log, unplaced_record]

/-- The result for a token stream. -/
def resultOf (settings : LowerSettings) (file : String) (tokens : List Token) :
    Except Failure Result :=
  match Grammar.Program.ofTokens file tokens with
  | .error why => .error (.stopped why)
  | .ok p =>
    match p.module? with
    | none =>
      .ok { code := none, module := none, diagnostics := p.diagnostics, constructs := [] }
    | some module => lower settings { module, diagnostics := p.diagnostics, log := p.log }

theorem transform_eq (h : Stream.ofText file text = .ok tokens) :
    transform settings file text = resultOf settings file tokens := by
  unfold transform read resultOf
  rw [h]
  dsimp only
  cases Grammar.Program.ofTokens file tokens with
  | error why => rfl
  | ok p =>
    dsimp only
    cases p.module? <;> rfl

/-- Whether a stream is valid does not depend on places. -/
theorem valid_map (μ : Change) :
    (∃ ts stop, tokens.map μ.token = ts ++ [stop] ∧ stop.kind = .endMark ∧
        ∀ t ∈ ts, Stream.Valid t) ↔
      ∃ ts stop, tokens = ts ++ [stop] ∧ stop.kind = .endMark ∧ ∀ t ∈ ts, Stream.Valid t := by
  constructor
  · rintro ⟨ts, stop, h, hstop, hts⟩
    obtain ⟨us, last, rfl, rfl, hlast⟩ := map_eq_append_iff.mp h
    obtain ⟨u, rfl, rfl⟩ := map_eq_singleton_iff.mp hlast
    exact ⟨us, u, rfl, hstop, fun t ht => hts (μ.token t) (mem_map_of_mem ht)⟩
  · rintro ⟨ts, stop, rfl, hstop, hts⟩
    refine ⟨ts.map μ.token, μ.token stop, map_append, hstop, fun t ht => ?_⟩
    obtain ⟨u, hu, rfl⟩ := mem_map.mp ht
    exact hts u hu

/-- The same tokens at other places have the same result, apart from places. -/
theorem resultOf_moved (hμ : μ.Rigid) {tokens : List Token}
    (hvalid : ∃ ts stop, tokens = ts ++ [stop] ∧ stop.kind = .endMark ∧ ∀ t ∈ ts, Stream.Valid t) :
    (resultOf settings file (tokens.map μ.token)).map Result.unplaced =
      (resultOf settings file tokens).map Result.unplaced := by
  have hvalid' := (valid_map μ).mpr hvalid
  have hne : tokens ≠ [] := by
    obtain ⟨ts, stop, rfl, -⟩ := hvalid
    simp
  have hgood : (Grammar.Cursor.start tokens).Good := hvalid
  obtain ⟨p, hp, hrecorded⟩ := Grammar.Program.exists_ofTokens file hgood.closed
  obtain ⟨p', hp', hmodule, hdiagnostics, hlog⟩ := Grammar.Program.ofTokens_moved hne hp
  unfold resultOf
  rw [hp, hp']
  dsimp only
  cases hm : p.module? with
  | none =>
    have hm' : p'.module? = none := by simpa [hm] using hmodule
    rw [hm']
    simp only [Except.map, Result.unplaced, hdiagnostics, unplaced_diagnostic]
  | some m =>
    obtain ⟨m', hm', hbody⟩ : ∃ m', p'.module? = some m' ∧ m'.body = μ.label.stmts m.body := by
      simpa [hm] using hmodule
    rw [hm']
    exact lower_moved hμ (sound_of_ofTokens hvalid hp hm) (sound_of_ofTokens hvalid' hp' hm')
      (hrecorded m hm).2 hbody hdiagnostics hlog settings

end Compile

end StepBinding
