import StepBinding.Proofs.Compile.Respaced
import StepBinding.Proofs.Grammar.Rows

/-! A marker that is not closed before its semicolon. It takes all tokens behind it, so what is read
is the program before it and one rejected statement. A rejected statement spells no name, declares
nothing and is left out when a module is lowered. So the code is that of the program before the
marker. -/

namespace StepBinding

open List Token StepBinding.Tree Construct

variable {tokens : List Token} {target : Target}

section Trees

variable {ss ts : List Stmt} {span : Span} {form : Form} {i : Nat}

theorem walkStmts_append (ss ts : List Stmt) :
    walkStmts (ss ++ ts) = walkStmts ss ++ walkStmts ts := by
  simp only [Node.walkStmts_eq, flatMap_append]

theorem Lower.stmts_append (target : Target) (ss ts : List Stmt) :
    Lower.stmts target (ss ++ ts) = Lower.stmts target ss ++ Lower.stmts target ts := by
  induction ss with
  | nil => rfl
  | cons s ss ih => simp [Lower.stmts, ih]

namespace Resolve

variable {ctx : Context} {scope : Scope}

theorem stmts_append (ss ts : List Stmt) :
    stmts ctx scope (ss ++ ts) = (do return (← stmts ctx scope ss) ++ (← stmts ctx scope ts)) := by
  induction ss with
  | nil => simp [stmts, bind, pure]
  | cons s ss ih =>
    rw [cons_append, stmts, ih, stmts]
    simp [bind, pure]

/-- A rejected statement is left as it is. -/
theorem stmts_insert (ctx : Context) (scope : Scope) (ss ts : List Stmt) (span : Span) (form : Form)
    (i : Nat) :
    ∃ us vs, (stmts ctx scope (ss ++ ts)).value = us ++ vs ∧
      stmts ctx scope (ss ++ .rejected span form i :: ts) =
        { stmts ctx scope (ss ++ ts) with value := us ++ .rejected span form i :: vs } := by
  refine ⟨(stmts ctx scope ss).value, (stmts ctx scope ts).value, ?_, ?_⟩
  · rw [stmts_append]
    rfl
  · rw [stmts_append, stmts_append]
    simp [stmts, stmt, bind, pure]

/-- Nor does it say anything of names. -/
theorem visit_insert {names : FreshNames} {warnings : Bool} {globals : List String} {m m' : Module}
    (hbody : m.body = ss ++ ts) (hbody' : m'.body = ss ++ .rejected span form i :: ts) :
    ∃ us vs, (Resolved.visit names warnings globals m).value = us ++ vs ∧
      Resolved.visit names warnings globals m' =
        { Resolved.visit names warnings globals m with
          value := us ++ .rejected span form i :: vs } := by
  have htable : Resolved.freshTable names m' = Resolved.freshTable names m := by
    have hwalk : walkStmts m'.body = walkStmts ss ++ .stmt (.rejected span form i) :: walkStmts ts := by
      rw [hbody', walkStmts_append]
      rfl
    simp only [Resolved.freshTable, Resolved.asked_eq, Tree.names, hwalk, hbody, walkStmts_append,
      flatMap_append, flatMap_cons, filterMap_append]
    rfl
  have hcontext : Resolved.context names warnings m' = Resolved.context names warnings m := by
    rw [Resolved.context, htable, Resolved.context]
  have hscope : Resolved.moduleScope globals m'.body = Resolved.moduleScope globals m.body := by
    have hframe : functionFrame [] m'.body = functionFrame [] m.body := by
      simp only [functionFrame, hbody, hbody', Lower.varNamesOf_append, flatMap_append,
        flatMap_cons]
      rfl
    rw [Resolved.moduleScope, hframe, Resolved.moduleScope]
  unfold Resolved.visit
  rw [hcontext, hscope, hbody, hbody']
  exact stmts_insert _ _ ss ts span form i

end Resolve

end Trees

namespace Compile

variable {settings : LowerSettings} {file text text' : String} {source source' : Source}

/-- The parts of the result for a source that is well-formed and recorded. -/
theorem lower_eq (hsound : source.Sound)
    (hrecorded : ∀ n ∈ walkStmts source.module.body, Recorded source.log n)
    (htarget : Target.ofName? settings.target = some target) :
    ∃ result, lower settings source = .ok result ∧
      result.code = some (Print.moduleText "  " (Lower.module target { source.module with
        body := (Resolved.visit { stem := settings.stem } settings.shadowWarnings settings.globals
          source.module).value })) ∧
      result.diagnostics = inSourceOrder (source.diagnostics ++
        (Resolved.visit { stem := settings.stem } settings.shadowWarnings settings.globals
          source.module).diagnostics) := by
  obtain ⟨resolved, hresolve, hstands⟩ := exists_resolve settings hsound hrecorded
  obtain ⟨hmodule, hdiagnostics, -⟩ := Resolved.ofModule_eq_ok hresolve
  obtain ⟨log, hsplice⟩ := Splice.exists_splice (nodup_resolve hsound hresolve) hstands
  refine ⟨_, lower_eq_ok hsound htarget hresolve hsplice
    (print_of_resolve target hsound hresolve), ?_, ?_⟩
  · rw [hmodule]
  · rw [hdiagnostics]

/-- A rejected statement changes neither the code nor what is found when the module is resolved. -/
theorem lower_insert {ss ts : List Stmt} {span : Span} {form : Form} {i : Nat}
    (hbody : source.module.body = ss ++ ts)
    (hbody' : source'.module.body = ss ++ .rejected span form i :: ts)
    (hsound : source.Sound) (hsound' : source'.Sound)
    (hrecorded : ∀ n ∈ walkStmts source.module.body, Recorded source.log n)
    (hrecorded' : ∀ n ∈ walkStmts source'.module.body, Recorded source'.log n)
    (htarget : Target.ofName? settings.target = some target) {added : List Diagnostic}
    (hadded : source'.diagnostics.Perm (source.diagnostics ++ added)) :
    ∃ result result' code, lower settings source = .ok result ∧
      lower settings source' = .ok result' ∧ result.code = some code ∧ result'.code = some code ∧
      result'.diagnostics.Perm (result.diagnostics ++ added) := by
  obtain ⟨result, hlower, hcode, hdiagnostics⟩ := lower_eq hsound hrecorded htarget
  obtain ⟨result', hlower', hcode', hdiagnostics'⟩ := lower_eq hsound' hrecorded' htarget
  obtain ⟨us, vs, hvalue, hvisit⟩ := @Resolve.visit_insert ss ts span form i
    { stem := settings.stem } settings.shadowWarnings settings.globals source.module source'.module
    hbody hbody'
  refine ⟨result, result', _, hlower, hlower', hcode, ?_, ?_⟩
  · have hlowered : Lower.stmts target (us ++ .rejected span form i :: vs) =
        Lower.stmts target (us ++ vs) := by
      rw [Lower.stmts_append, Lower.stmts_append]
      rfl
    rw [hcode', hvisit]
    unfold Print.moduleText
    dsimp only [Lower.module]
    rw [hlowered, hvalue]
  · rw [hdiagnostics, hdiagnostics', hvisit]
    dsimp only
    refine (mergeSort_perm ..).trans ((hadded.append_right _).trans ?_)
    refine List.Perm.trans ?_ (List.Perm.append_right _ (mergeSort_perm ..).symm)
    rw [append_assoc, append_assoc]
    exact List.Perm.append_left _ perm_append_comm

section Programs

open Grammar Program Steps

variable {a s c tokens' : List Token} {t semi stop : Token} {p q r : Program} {m n l : Module}
  {span : Span} {form : Form} {i : Nat}

/-- What is read of valid tokens is a source whose step bindings are recorded. -/
theorem source_of_ofTokens {tokens : List Token} (hg : (Cursor.start tokens).Good)
    (h : ofTokens file tokens = .ok p) (hm : p.module? = some m) :
    Source.Sound { module := m, diagnostics := p.diagnostics, log := p.log } ∧
      (∀ n ∈ walkStmts m.body, Recorded p.log n) ∧
      resultOf settings file tokens =
        lower settings { module := m, diagnostics := p.diagnostics, log := p.log } := by
  obtain ⟨p', hp', hrecorded⟩ := exists_ofTokens file hg.closed
  cases h.symm.trans hp'
  refine ⟨sound_of_ofTokens hg h hm, (hrecorded m hm).2, ?_⟩
  simp only [resultOf, h, hm]

theorem head_ne_else_of_isMarker (hmark : isMarker (t :: s)) (later : List Token) :
    ∀ u ∈ (t :: s ++ later).head?, u.kind ≠ .kwElse := by
  obtain ⟨k, u, us, hus, hdecl, -⟩ := exists_of_isMarker hmark
  cases hus
  intro u hu hk
  cases hu
  rw [hk] at hdecl
  cases hdecl

/-- Tokens of a text, with the end mark behind them, are the tokens of a program. -/
theorem good_of_subset (h : Stream.ofText file text = .ok (tokens ++ [stop])) {part : List Token}
    (hpart : part ⊆ tokens) : (Cursor.start (part ++ [stop])).Good := by
  obtain ⟨ts, u, hts, hu, hvalid⟩ := Stream.ofText_valid h
  obtain ⟨rfl, hstop⟩ := append_inj' hts rfl
  cases hstop
  exact ⟨part, stop, rfl, hu, fun v hv => hvalid v (hpart hv)⟩

theorem target_of_name (h : settings.target = "es2015" ∨ settings.target = "es5") :
    ∃ target, Target.ofName? settings.target = some target := by
  rcases h with h | h <;> rw [h]
  · exact ⟨.es2015, rfl⟩
  · exact ⟨.es5, rfl⟩

/-- Texts with the same symbols have the same result, apart from places. -/
theorem transform_of_symbols {result : Result} (hg : (Cursor.start tokens).Good)
    (hordered : Ordered file tokens) (hresult : resultOf settings file tokens = .ok result)
    (h : Stream.ofText file text = .ok tokens') (hsymbols : tokens'.map symbol = tokens.map symbol) :
    ∃ result', transform settings file text = .ok result' ∧ result'.code = result.code ∧
      result.diagnostics.map Diagnostic.unplaced = result'.diagnostics.map Diagnostic.unplaced := by
  have hsame := @resultOf_symbols file tokens tokens' hg hordered (Stream.ofText_ordered h) hsymbols
    settings
  rw [hresult, ← transform_eq h] at hsame
  cases hrun : transform settings file text with
  | error why =>
    rw [hrun] at hsame
    cases hsame
  | ok result' =>
    rw [hrun] at hsame
    have hunplaced := Except.ok.inj hsame
    exact ⟨result', rfl, congrArg Prod.fst hunplaced, (congrArg (·.2.1) hunplaced).symm⟩

/-- The error of a marker that is not closed. -/
def unclosed (keyword : Token) : Diagnostic :=
  Diagnostic.error .malformedMarker "unclosed binding marker" keyword.span
    "this marker is never closed"

/-- A step binding of which nothing is left to read is given up in front of the end mark. -/
theorem abandon_endMark {head : Head} {index : Nat} {c : Cursor} (hs : stop.kind = .endMark)
    (hform : head.form = .declaration)
    (hnone : (c.log.rejectWith index (head.errors.map Diagnostic.code)).refusal = none) :
    ∃ span c', Rules.abandon head [stop] index c = .ok (.rejected .declaration span index) c' ∧
      c'.rest = [stop] ∧ c'.faulty = c.faulty ∧ c'.diagnostics = c.diagnostics := by
  have hsplit : (split [stop]).rest = [stop] := by
    simp [split, splitFrom, role, hs, outerRole]
  have hat (c : Cursor) (hc : c.rest = [stop]) : isAt .semicolon c = .ok false c := by
    unfold isAt current
    simp [hc, hs, bind, EStateM.bind, pure, EStateM.pure]
  unfold Rules.abandon
  rw [hsplit, Grammar.bind_of_ok (show skipTo [stop] c = .ok () _ from rfl)]
  dsimp only
  rw [if_pos hform, Grammar.bind_of_ok (hat _ rfl), if_neg Bool.false_ne_true,
    Grammar.bind_of_ok (show spanFrom head.keyword.span _ = .ok _ _ from rfl),
    Grammar.bind_of_ok (Rules.edit_of_none hnone), hform]
  exact ⟨_, _, rfl, rfl, rfl, rfl⟩

theorem constructStmt_unclosed {r : Rules} {c : Cursor} (hs : stop.kind = .endMark)
    (hopen : Head.closing? 0 (s ++ [stop]) = none) (hrest : c.rest = t :: s ++ [stop]) :
    ∃ span c', r.constructStmt c = .ok (.rejected span .declaration c.log.size) c' ∧
      c'.rest = [stop] ∧ c'.faulty = c.faulty ∧ c'.diagnostics = c.diagnostics ++ [unclosed t] := by
  let head : Head :=
    { form := .declaration, keyword := t, length := (s ++ [stop]).length,
      span := t.span.through ((s ++ [stop]).getLastD t).span, errors := [unclosed t] }
  have hhead : Head.read false t (s ++ [stop]) = head := by
    unfold Head.read
    rw [hopen]
    rfl
  have hdrop : (t :: s ++ [stop]).drop (s ++ [stop]).length = [stop] := by
    have hlength : (s ++ [stop]).length = (t :: s).length := by simp
    rw [hlength, drop_left]
  let c1 : Cursor := { c with
    rest := t :: s ++ [stop], log := c.log.enter .declaration head.span,
    diagnostics := c.diagnostics ++ [unclosed t] }
  have hconstruct : r.construct false c = Rules.abandon head [stop] c.log.size c1 := by
    rw [Rules.construct_eq]
    dsimp only [Cursor.next]
    rw [hrest]
    dsimp only [cons_append, headD_cons, tail_cons]
    rw [hhead, show head.length = (s ++ [stop]).length from rfl, ← cons_append, hdrop]
    rfl
  obtain ⟨span, c', hrun, hread⟩ := @abandon_endMark stop head c.log.size c1 hs rfl
    (Log.refusal_rejectWith ((Log.get?_enter _).trans (if_pos rfl)) (by simp))
  refine ⟨span, c', ?_, hread⟩
  unfold Rules.constructStmt
  rw [Grammar.bind_of_ok (hconstruct.trans hrun)]
  rfl

/-- A marker that is not closed takes all tokens that are left. -/
theorem statements_unclosed {n : Nat} {c : Cursor} (hs : stop.kind = .endMark)
    (hmark : isMarker (t :: s)) (hopen : Head.closing? 0 (s ++ [stop]) = none)
    (hrest : c.rest = t :: s ++ [stop]) :
    ∃ span c', (rules (n + 1)).statements .endMark c =
        .ok [.rejected span .declaration c.log.size] c' ∧
      c'.faulty = c.faulty ∧ c'.diagnostics = c.diagnostics ++ [unclosed t] := by
  obtain ⟨span, c', hread, hrest', hafter⟩ :=
    @constructStmt_unclosed s t stop (rules n) c hs hopen hrest
  obtain ⟨k, u, us, hus, hdecl, -⟩ := exists_of_isMarker hmark
  cases hus
  have hk : t.kind ≠ .endMark := by
    intro hk
    rw [hk] at hdecl
    cases hdecl
  have hmark' : isMarker c.rest := by rw [hrest]; exact hmark
  have hnext : c'.next = stop := by simp [Cursor.next, hrest']
  refine ⟨span, c', @Rules.statements_cons (rules (n + 1)) .endMark c c' c' (some _) []
    (by simpa [Cursor.next, hrest] using hk) (Rules.statement?_of_ok ?_)
    (by rw [hrest', hrest]; simp) (Rules.statements_nil (by rw [hnext, hs]; rfl)), hafter⟩
  exact (Rules.statementRule_of_marker hmark').trans hread

/-- A marker does not reach over a semicolon. -/
theorem closing?_append {depth : Nat} (h : Head.closing? depth s = none)
    (hsemi : .semicolon ∈ kinds s) (later : List Token) :
    Head.closing? depth (s ++ later) = none := by
  induction s generalizing depth with
  | nil => cases hsemi
  | cons u s ih =>
    have hsemi : u.kind ≠ .semicolon → .semicolon ∈ kinds s := fun hu =>
      (mem_cons.mp hsemi).resolve_left hu.symm
    simp only [cons_append, Head.closing?] at h ⊢
    split at h
    next hu => simpa using ih (by simpa using h) (hsemi (by simp [hu]))
    next hu =>
      split at h
      · cases h
      next hdepth => simpa [hdepth] using ih (by simpa using h) (hsemi (by simp [hu]))
    next => rfl
    next => rfl
    next hu _ => simpa using ih (by simpa using h) (hsemi hu)

/-- The programs of which the second goes on with a marker that is not closed. -/
theorem resultOf_unclosed (hgA : (Cursor.start (a ++ [stop])).Good)
    (hgB : (Cursor.start (t :: s ++ [stop])).Good)
    (hA : ofTokens file (a ++ [stop]) = .ok p) (hm : p.module? = some m)
    (hcalm : p.diagnostics = []) (ha : a = [] ∨ (kinds a).getLast? = some .semicolon)
    (hmark : isMarker (t :: s)) (hopen : Head.closing? 0 (s ++ [stop]) = none)
    {target : Target} (htarget : Target.ofName? settings.target = some target) :
    ∃ result result' code,
      resultOf settings file (a ++ [stop]) = .ok result ∧
      resultOf settings file (a ++ (t :: s ++ [stop])) = .ok result' ∧
      result.code = some code ∧ result'.code = some code ∧
      result'.diagnostics.Perm (result.diagnostics ++ [unclosed t]) := by
  obtain ⟨c, hrest, hfaulty, hreported, hread⟩ := ofTokens_append hgA ha hA hm
    (by rw [hcalm]; exact nofun) hgB (head_ne_else_of_isMarker hmark _)
  obtain ⟨hstop, hgAB⟩ := good_append hgA hgB
  obtain ⟨span, c', hB, hfaulty', hreported'⟩ := statements_unclosed hstop hmark hopen hrest
  have hAB := hread _ _ hB
  obtain ⟨hsound, hrecorded, hresult⟩ := @source_of_ofTokens settings file _ _ _ hgA hA hm
  obtain ⟨hsound', hrecorded', hresult'⟩ := @source_of_ofTokens settings file _ _ _ hgAB hAB (by
    simp only [ofEnd, hfaulty', hfaulty]
    rfl)
  rw [hresult, hresult']
  exact lower_insert (append_nil _).symm rfl hsound hsound' hrecorded hrecorded' htarget
    (by rw [← hreported, ← hreported']; exact .refl _)

/-- A marker that is not closed before its semicolon takes the rest of the program with it. Behind
statements that meet no error it leaves their code and reports the marker, whatever follows. -/
theorem unclosed_marker_takes_rest
    (h : Stream.ofText file text = .ok (a ++ (t :: s ++ (c ++ [stop]))))
    (h' : Stream.ofText file text' = .ok tokens')
    (hsymbols : tokens'.map symbol = (a ++ [stop]).map symbol)
    (hA : ofTokens file (a ++ [stop]) = .ok p) (hm : p.module? = some m)
    (hcalm : p.diagnostics = []) (ha : a = [] ∨ (kinds a).getLast? = some .semicolon)
    (hmark : isMarker (t :: s) = true) (hopen : Head.closing? 0 s = none)
    (hsemi : .semicolon ∈ kinds s)
    (htarget : settings.target = "es2015" ∨ settings.target = "es5") :
    ∃ result result' code, transform settings file text = .ok result ∧
      transform settings file text' = .ok result' ∧
      result.code = some code ∧ result'.code = some code ∧
      ∃ others, result.diagnostics.Perm (others ++ [unclosed t]) ∧
        others.map Diagnostic.unplaced = result'.diagnostics.map Diagnostic.unplaced := by
  obtain ⟨target, htarget⟩ := target_of_name htarget
  have hwhole : Stream.ofText file text = .ok ((a ++ (t :: (s ++ c))) ++ [stop]) := by
    rw [h]
    simp
  have hgA := good_of_subset hwhole (List.subset_append_left a _)
  have hgB := good_of_subset hwhole (List.subset_append_right a _)
  have hmark' : isMarker (t :: (s ++ c)) = true := by
    obtain ⟨k, u, us, hus, hdecl, hopens⟩ := exists_of_isMarker hmark
    cases hus
    simp [isMarker, hdecl, hopens]
  obtain ⟨result, result', code, hresult, hresult', hcode, hcode', hperm⟩ :=
    @resultOf_unclosed settings _ _ _ _ _ _ _ hgA hgB hA hm hcalm ha hmark'
      (by rw [List.append_assoc]; exact closing?_append hopen hsemi _) _ htarget
  have hsub : (a ++ [stop]).Sublist (a ++ (t :: s ++ (c ++ [stop]))) :=
    List.Sublist.append_left ((List.sublist_append_right _ _).trans (List.sublist_append_right _ _)) a
  obtain ⟨result'', htransform, hsame, hunplaced⟩ := transform_of_symbols hgA
    ((Stream.ofText_ordered h).sublist hsub) hresult h' hsymbols
  refine ⟨result', result'', code, ?_, htransform, hcode', hsame.trans hcode, result.diagnostics, hperm,
    hunplaced⟩
  rw [transform_eq hwhole, ← hresult']
  simp

/-- The statement behind the open marker is gone. -/
theorem open_marker_takes_call :
    ∃ result result' code, transform {} "m" "f;let($=1;g();" = .ok result ∧
      transform {} "m" "f;" = .ok result' ∧ result.code = some code ∧
      result'.code = some code ∧ code = "f;\n" := by
  let a : List Token := [⟨.identifier, "f", ⟨"m", ⟨1, 1⟩, ⟨1, 1⟩⟩⟩,
    ⟨.semicolon, ";", ⟨"m", ⟨1, 2⟩, ⟨1, 2⟩⟩⟩]
  let t : Token := ⟨.kwLet, "let", ⟨"m", ⟨1, 3⟩, ⟨1, 5⟩⟩⟩
  let s : List Token := [⟨.lparen, "(", ⟨"m", ⟨1, 6⟩, ⟨1, 6⟩⟩⟩,
    ⟨.identifier, "$", ⟨"m", ⟨1, 7⟩, ⟨1, 7⟩⟩⟩, ⟨.assign, "=", ⟨"m", ⟨1, 8⟩, ⟨1, 8⟩⟩⟩,
    ⟨.number, "1", ⟨"m", ⟨1, 9⟩, ⟨1, 9⟩⟩⟩, ⟨.semicolon, ";", ⟨"m", ⟨1, 10⟩, ⟨1, 10⟩⟩⟩]
  let c : List Token := [⟨.identifier, "g", ⟨"m", ⟨1, 11⟩, ⟨1, 11⟩⟩⟩,
    ⟨.lparen, "(", ⟨"m", ⟨1, 12⟩, ⟨1, 12⟩⟩⟩, ⟨.rparen, ")", ⟨"m", ⟨1, 13⟩, ⟨1, 13⟩⟩⟩,
    ⟨.semicolon, ";", ⟨"m", ⟨1, 14⟩, ⟨1, 14⟩⟩⟩]
  let stop : Token := ⟨.endMark, "", ⟨"m", ⟨1, 15⟩, ⟨1, 14⟩⟩⟩
  have h : Stream.ofText "m" "f;let($=1;g();" = .ok (a ++ (t :: s ++ (c ++ [stop]))) := by
    decide +kernel
  have h' : Stream.ofText "m" "f;" = .ok (a ++ [⟨.endMark, "", ⟨"m", ⟨1, 3⟩, ⟨1, 2⟩⟩⟩]) := by
    decide +kernel
  obtain ⟨p, m, hA, hm, hcalm⟩ : ∃ p m, ofTokens "m" (a ++ [stop]) = .ok p ∧ p.module? = some m ∧
      p.diagnostics = [] := ⟨_, _, rfl, rfl, rfl⟩
  obtain ⟨result, result', code, htransform, htransform', hcode, hcode', -⟩ :=
    @unclosed_marker_takes_rest {} _ _ _ _ _ _ _ _ _ _ _ h h' rfl hA hm hcalm (.inr rfl) rfl rfl
      (by decide) (.inl rfl)
  refine ⟨result, result', code, htransform, htransform', hcode, hcode', ?_⟩
  have hrun : ((transform {} "m" "f;").toOption.bind Result.code) = some "f;\n" := by
    decide +kernel
  rw [htransform'] at hrun
  exact Option.some.inj (hcode'.symm.trans hrun)

/-- So a marker that is not closed drops more than its own statement. -/
theorem open_marker_not_isolated :
    (transform {} "m" "let($=1;g();").toOption.bind Result.code = some "" ∧
      (transform {} "m" "g();").toOption.bind Result.code = some "g();\n" := by
  decide +kernel

end Programs

end Compile

end StepBinding
