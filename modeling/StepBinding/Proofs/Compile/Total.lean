import StepBinding.Proofs.Compile.Agreement
import StepBinding.Proofs.Compile.Records
import StepBinding.Proofs.Compile.Hygiene

/-! Every program text has a result. Whatever is wrong with it, what is looked up while a step binding
is read is there, no edit of the log is refused while the module is resolved and its step bindings
are put in their places, and the lowered module can be printed. Nothing of a step binding is left
in a lowered module, and every one of the resolved module is put in its place once. -/

namespace StepBinding

open List Token StepBinding.Tree Construct

variable {N : String → Prop} {n : Node} {log : Log} {target : Target}

namespace Construct

/-- What is looked up while a step binding is read from a keyword and the tokens after it: the token
behind the marker, the one at which the head ends, the one at which the step list ends and, for
every empty step, a comma. -/
structure InRange (only : Bool) (keyword : Token) (rest : List Token) : Prop where
  behind : ∀ close, Head.closing? 0 rest = some close → close + 1 < rest.length
  head : (Head.read only keyword rest).length < (keyword :: rest).length
  stop : (Steps.split ((keyword :: rest).drop (Head.read only keyword rest).length)).rest ≠ []
  commas : ∀ split : Steps.Split,
    split = Steps.split ((keyword :: rest).drop (Head.read only keyword rest).length) →
    split.isEmpty = false → ∀ place ∈ split.emptySteps,
      ∃ start t, ((split.bounds 0).map Prod.fst)[place]? = some start ∧
        ((keyword :: rest).drop (Head.read only keyword rest).length)[start - 1]? = some t ∧
        t.kind = .comma

theorem inRange {only : Bool} {keyword : Token} {ts : List Token} {stop : Token}
    (hs : stop.kind = .endMark) : InRange only keyword (ts ++ [stop]) where
  behind close hclose := by
    obtain ⟨before, t, later, hts, hlen, ht⟩ := Head.closing?_eq_some hclose
    cases hlater : later with
    | nil =>
      -- The parenthesis would be the end mark.
      rw [hlater] at hts
      obtain ⟨-, hstop⟩ := append_inj' hts rfl
      cases hstop
      rw [hs] at ht
      cases ht
    | cons u us =>
      rw [hts, hlater]
      simp [hlen]
  head := Nat.lt_succ_of_le (Head.length_read_le hs)
  stop := by
    refine Steps.rest_ne_nil (t := stop) ?_ hs
    refine mem_of_getLast? ?_
    have hlength := @Head.length_read_le only keyword ts stop hs
    rw [getLast?_drop, if_neg (by simp only [length_cons]; omega), ← cons_append,
      getLast?_append]
    rfl
  commas split hsplit hne place hplace := by
    subst hsplit
    exact Steps.comma_of_emptySteps hplace hne

end Construct

namespace Tree.Print

/-- A well-formed node can be printed. -/
theorem Problem.ofNode?_of_formed (h : n.Formed N) : Problem.ofNode? n = none := by
  unfold Problem.ofNode?
  split
  · exact h.elim
  · exact h.elim
  · exact h.elim
  · rfl

theorem module?_of_formed {m : Module} (indent : String) (h : AllStmts (Node.Formed N) m.body) :
    module? indent m = .ok (moduleText indent m) := by
  have hnone : (walkStmts m.body).findSome? Problem.ofNode? = none :=
    findSome?_eq_none_iff.mpr fun n hn =>
      Problem.ofNode?_of_formed ((allStmts_iff_walk _).mp h n hn)
  unfold module?
  rw [hnone]

end Tree.Print

namespace Compile

variable {settings : LowerSettings} {file text : String} {source : Source} {resolved : Resolved}

/-- A source whose step bindings are recorded as its nodes tell is resolved. -/
theorem exists_resolve (settings : LowerSettings) (hsound : source.Sound)
    (hrecorded : ∀ n ∈ walkStmts source.module.body, Recorded source.log n) :
    ∃ resolved, resolve settings source = .ok resolved ∧
      ∀ i ∈ marks (walkStmts resolved.module.body), resolved.log.Stands i .resolved := by
  have hparsed (i : Nat) (hi : i ∈ marks (walkStmts source.module.body)) :
      source.log.Stands i .parsed := by
    obtain ⟨n, hn, hi⟩ := mem_filterMap.mp hi
    have hrecord := hrecorded n hn
    unfold construct? at hi
    split at hi
    · cases hi
      obtain ⟨-, r, hr, haccepted⟩ := hrecord
      exact ⟨r, hr, haccepted.state⟩
    · cases hi
      obtain ⟨-, r, hr, haccepted⟩ := hrecord
      exact ⟨r, hr, haccepted.state⟩
    · cases hi
  have hacc := @Resolved.accounts_visit { stem := settings.stem } settings.shadowWarnings
    settings.globals source.module hsound.filled
  obtain ⟨log, hedits, hresolved⟩ :=
    hacc.settles (hsound.sorted.imp Nat.ne_of_lt) source.log hparsed
  let visit := Resolved.visit { stem := settings.stem } settings.shadowWarnings settings.globals
    source.module
  refine ⟨⟨{ source.module with body := visit.value }, visit.diagnostics, log⟩, ?_, hresolved⟩
  change (Resolve.Edit.applyAll source.log visit.edits >>= _) = _
  rw [show Resolve.Edit.applyAll source.log visit.edits = _ from hedits]
  rfl

theorem number?_eq_none (h : construct? n = none) (hkept : n.isRejected = false) :
    number? n = none := by
  cases n with
  | expr e =>
    cases e with
    | steps => cases h
    | rejected => cases hkept
    | _ => rfl
  | stmt s =>
    cases s with
    | steps => cases h
    | rejected => cases hkept
    | _ => rfl
  | _ => rfl

/-- A source that is resolved has a result, by the parts of which it is told. -/
theorem lower_of_resolve {target : Target} (hsound : source.Sound)
    (hresolve : resolve settings source = .ok resolved)
    (hstands : ∀ i ∈ marks (walkStmts resolved.module.body), resolved.log.Stands i .resolved)
    (htarget : Target.ofName? settings.target = some target) :
    (marks (walkStmts resolved.module.body)).Nodup ∧
      AllStmts (Node.Plain fun _ => True) (Lower.module target resolved.module).body ∧
      ∃ log, Splice.splice resolved.log (marks (walkStmts resolved.module.body)) = .ok log ∧
        lower settings source = .ok
          { code := some (Print.moduleText "  " (Lower.module target resolved.module))
            module := some (Lower.module target resolved.module)
            diagnostics := inSourceOrder (source.diagnostics ++ resolved.diagnostics)
            constructs := log.records } := by
  obtain ⟨hmodule, -, -⟩ := Resolved.ofModule_eq_ok hresolve
  have hnodup := nodup_resolve hsound hresolve
  have hplain : AllStmts (Node.Plain fun _ => True) (Lower.module target resolved.module).body := by
    rw [hmodule]
    exact Resolved.plain_lower (hsound.written.imp fun _ hn => hn.1)
  obtain ⟨log, hsplice⟩ := Splice.exists_splice hnodup hstands
  have hprint := Tree.Print.module?_of_formed "  " (hplain.imp fun _ hn => hn.formed)
  exact ⟨hnodup, hplain, log, hsplice, lower_eq_ok hsound htarget hresolve hsplice hprint⟩

/-- What is known of the result for a source, which has one. -/
theorem exists_lower (htarget : Target.ofName? settings.target = some target)
    (hsound : source.Sound) (hrecorded : ∀ n ∈ walkStmts source.module.body, Recorded source.log n) :
    ∃ result resolved log, lower settings source = .ok result ∧
      Lowers settings source target resolved log result ∧
      (∀ n ∈ walkStmts (Lower.module target resolved.module).body, number? n = none) ∧
      (marks (walkStmts resolved.module.body)).Nodup ∧
      ∀ i ∈ marks (walkStmts resolved.module.body),
        resolved.log.Stands i .resolved ∧ log.Stands i .spliced := by
  obtain ⟨resolved, hresolve, hstands⟩ := exists_resolve settings hsound hrecorded
  obtain ⟨hnodup, hplain, log, hsplice, hrun⟩ := lower_of_resolve hsound hresolve hstands htarget
  obtain ⟨target', resolved', log', hparts⟩ := lowers_of_ok hsound hrun
  cases hparts.target_eq.symm.trans htarget
  cases hparts.resolved_eq.symm.trans hresolve
  cases hparts.log_eq.symm.trans hsplice
  refine ⟨_, resolved, log, hrun, hparts, fun n hn => ?_, hnodup, fun i hi => ⟨hstands i hi, ?_⟩⟩
  · have hn := (allStmts_iff_walk _).mp hplain n hn
    exact number?_eq_none hn.construct hn.kept
  · obtain ⟨r, hr, -⟩ := hstands i hi
    exact ⟨_, by rw [(Splice.get?_splice hsplice).2, hr]; rfl, by dsimp only; rw [if_pos hi]⟩

/-- Every program text has a result for a known target. If the result has a module, it is that of a
source that was read and resolved. Every step binding has steps in both, and a fresh name in the
resolved module. The traversal of the resolved module makes, whatever is recorded, the edits for its
step bindings in one order, each once; none is refused, and every step binding ends in its place.
Nothing of a step binding is left in the module. On the way reading never passes the end mark, and
what is looked up for a step binding is there. -/
theorem transform_total (settings : LowerSettings) (file text : String)
    (htarget : settings.target = "es2015" ∨ settings.target = "es5") :
    (∃ result, transform settings file text = .ok result ∧ ∀ m, result.module = some m →
      (∀ n ∈ walkStmts m.body, number? n = none) ∧
      ∃ source resolved target log is, read file text = .ok (.ok source) ∧
        resolve settings source = .ok resolved ∧ Target.ofName? settings.target = some target ∧
        source.module.root.Filled ∧ resolved.module.root.Filled ∧
        (∀ n ∈ walkStmts resolved.module.body, ∀ i, construct? n = some i →
          n.fresh?.isSome = true) ∧
        m = Lower.module target resolved.module ∧ is.Nodup ∧
        is.Perm (marks (walkStmts resolved.module.body)) ∧
        (∀ log, Splice.module target resolved.module log =
          (Splice.splice log is).map fun log => (m, log)) ∧
        Splice.module target resolved.module resolved.log = .ok (m, log) ∧
        result.constructs = log.records ∧
        ∀ i ∈ marks (walkStmts resolved.module.body),
          resolved.log.Stands i .resolved ∧ log.Stands i .spliced) ∧
    (∀ c : Grammar.Cursor, c.Good → ∀ n, 2 * c.rest.length + 1 < n → ∀ stop,
      ∃ ss c', (Grammar.rules n).statements stop c = .ok ss c' ∧ c'.rest ≠ []) ∧
    ∀ only keyword ts (stop : Token), stop.kind = .endMark → InRange only keyword (ts ++ [stop]) := by
  refine ⟨?_, fun c hc n hn stop => ?_, fun only keyword ts stop hs => inRange hs⟩
  · obtain ⟨target, htarget⟩ : ∃ target, Target.ofName? settings.target = some target := by
      rcases htarget with h | h <;> rw [h]
      · exact ⟨.es2015, rfl⟩
      · exact ⟨.es5, rfl⟩
    obtain ⟨outcome, hread, hagrees⟩ := exists_read file text
    rcases read_cases hread with ⟨source, rfl, hsound⟩ | ⟨invalid, rfl, -⟩
    · obtain ⟨result, resolved, log, hlower, hparts, hnone, hnodup, hstands⟩ :=
        exists_lower htarget hsound (hagrees source rfl).2
      refine ⟨result, by unfold transform; rw [hread]; exact hlower, fun m hm => ?_⟩
      rw [hparts.module_eq] at hm
      cases hm
      have hresolve := hparts.resolved_eq
      have hall := formed_resolve hsound hresolve
      have hformed := hall.imp fun _ hn => hn.1
      obtain ⟨is, his, horder⟩ := Splice.exists_order target hformed
      have hmodule := (Splice.module_eq_ok_iff target hformed hnodup (x := (_, log))).mpr
        ⟨hparts.log_eq, rfl⟩
      exact ⟨hnone, source, resolved, target, log, is, hread, hresolve, htarget, hsound.filled,
        filled_of_formed hformed, fun n hn => ((allStmts_iff_walk _).mp hall n hn).2, rfl,
        his.symm.nodup hnodup, his, horder, hmodule, hparts.constructs_eq, hstands⟩
    · exact ⟨_, by unfold transform; rw [hread]; rfl, fun m hm => by cases hm⟩
  · obtain ⟨ss, c', hread, hto⟩ := Grammar.exists_statements hc.closed hn stop
    exact ⟨ss, c', hread, hto.left⟩

/-- The result for a step binding with one in parentheses and a rejected one in a closure has a module
without any of them, and the first two are in their places. -/
theorem closure_in_place : ∃ result m, transform {} "closure" closureText = .ok result ∧
    result.module = some m ∧ (∀ n ∈ walkStmts m.body, number? n = none) ∧
    result.constructs.map Record.state = [.spliced, .spliced, .rejected] := by
  obtain ⟨⟨result, htransform, hmodule⟩, -⟩ := transform_total {} "closure" closureText (.inl rfl)
  have hrun : (match transform {} "closure" closureText with
      | .ok result => result.module.isSome &&
        result.constructs.map Record.state == [.spliced, .spliced, .rejected]
      | .error _ => false) = true := by decide +kernel
  rw [htransform] at hrun
  obtain ⟨hsome, hstates⟩ := Bool.and_eq_true_iff.mp hrun
  obtain ⟨m, hm⟩ := Option.isSome_iff_exists.mp hsome
  exact ⟨result, m, htransform, hm, (hmodule m hm).1, eq_of_beq hstates⟩

end Compile

end StepBinding
