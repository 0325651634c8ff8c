import StepBinding.Proofs.Grammar.Rows

/-! Reading makes progress. A token stream with one end mark is read to that mark. On the way each
pass of the list of statements leaves fewer tokens, also if a statement cannot be read or a step
binding is rejected; a pass of another loop does so, or is the last, or stops at a misplaced token;
and a step is read from fewer tokens than are left where its step binding starts. -/

namespace StepBinding.Grammar

open Token Construct

/-- Something holds of all loops of the grammar, but for the list of statements. -/
def Rules.EachLoop (r : Rules) (Q : ∀ {σ β : Type}, (σ → Parse (Pass σ β)) → Prop) : Prop :=
  Q skipPass ∧
  Q (commaPass .rparen false do return (← expect .identifier "a parameter name").text) ∧
  Q (commaPass .rbrace true r.property) ∧ Q (commaPass .rbracket true r.assignment) ∧
  Q (commaPass .rparen true r.assignment) ∧ Q r.sequencePass ∧ Q r.templatePass ∧
  Q r.memberPass ∧ Q r.callPass ∧ Q operatorPass ∧ Q r.chainPass ∧
  ∀ keyword, Q (r.declaratorPass keyword)

section Loops

variable {c : Cursor} {n : Nat} (hc : c.Closed) (hn : 2 * c.rest.length + 1 < n)

include hc hn

theorem eachLoop_ended : (rules n).EachLoop fun body => ∀ x, Ended Pass.cost c (body x c) := by
  have := (rules_go n (m := c.rest.length)).1 (by omega)
  have := (rules_go n).2 hn
  have run {α : Type} {D : α → Nat} {p : Parse α} [h : Goes c.rest.length false false D p] :
      Ended D c (p c) :=
    h.run hc .refl (by simp)
  exact ⟨fun _ => run, fun _ => run, fun _ => run, fun _ => run, fun _ => run, fun _ => run,
    fun _ => run, fun _ => run, fun _ => run, fun _ => run, fun _ => run, fun _ _ => run⟩

theorem exists_statementPass (stop : Kind) (acc : List Stmt) :
    ∃ pass c', (rules n).statementPass stop acc c = .ok pass c' ∧ c.To c' ∧
      c'.rest.length + pass.cost ≤ c.rest.length := by
  have := (rules_go n).2 hn
  have hrun : Ended Pass.cost c ((rules n).statementPass stop acc c) :=
    Goes.run (m := c.rest.length) (s := false) (k := false) hc .refl (by simp)
  obtain ⟨pass, c', hread, hto, hlen⟩ := hrun.exists_ok
  exact ⟨pass, c', hread, hto, hlen⟩

end Loops

/-- A token stream is read to its end, with a module or as faulty, and wherever reading may be on the
way it makes progress. -/
theorem ofTokens_finishes (file : String) {ts : List Token} {stop : Token}
    (hstop : stop.kind = .endMark) (hts : ∀ t ∈ ts, t.kind ≠ .endMark) :
    (∃ p body c, Program.ofTokens file (ts ++ [stop]) = .ok p ∧
      (rules (2 * (ts ++ [stop]).length + 2)).statements .endMark (Cursor.start (ts ++ [stop])) =
        .ok body c ∧ c.rest = [stop] ∧ p.diagnostics = c.diagnostics ∧
      p.module? = if c.faulty then none else some ⟨⟨file, .start, stop.span.stop⟩, body⟩) ∧
    ∀ (c : Cursor) (n : Nat), c.rest <:+ ts ++ [stop] → c.rest ≠ [] → 2 * c.rest.length + 1 < n →
      (∀ close acc, ∃ pass c', (rules n).statementPass close acc c = .ok pass c' ∧ c.To c' ∧
        c'.rest.length + pass.cost ≤ c.rest.length) ∧
      ((rules n).EachLoop fun body => ∀ x, Ended Pass.cost c (body x c)) ∧
      ∀ only, isMarker c.rest = true → ∀ step ∈ (Steps.split (c.rest.drop
        (Head.read only c.next c.rest.tail).length)).steps, step.length + 1 < c.rest.length := by
  have hclosed : (Cursor.start (ts ++ [stop])).Closed := ⟨ts, stop, rfl, hstop, hts⟩
  refine ⟨?_, fun c n hrest hne hn => ?_⟩
  · obtain ⟨body, c, hread, hto⟩ := exists_statements (n := 2 * (ts ++ [stop]).length + 2) hclosed
      (by simp [Cursor.start]) .endMark
    have hend := rest_of_statements (hto.ends hclosed) hto.rest hread
    obtain ⟨p, hp⟩ := Program.exists_ofTokens file hclosed
    refine ⟨p, body, c, hp.1, hread, hend, ?_⟩
    have hp := hp.1
    unfold Program.ofTokens at hp
    unfold Cursor.start at hread
    dsimp only at hp
    rw [hread] at hp
    cases hp
    rw [hend]
    exact ⟨rfl, rfl⟩
  · have hto : (Cursor.start (ts ++ [stop])).To c := ⟨hrest, hne⟩
    have hc := hto.ends hclosed
    exact ⟨exists_statementPass hc hn, eachLoop_ended hc hn,
      fun only hmark step => Rules.length_step hc hmark rfl⟩

/-- A brace that closes nothing is passed. -/
theorem stray_brace_finishes :
    (∀ t ∈ [Token.mk .rbrace "\x7d" default], t.kind ≠ .endMark) ∧
    ∃ p body c, Program.ofTokens "a" ([Token.mk .rbrace "\x7d" default] ++ [⟨.endMark, "", default⟩]) =
        .ok p ∧
      (rules 6).statements .endMark (Cursor.start
        [⟨.rbrace, "\x7d", default⟩, ⟨.endMark, "", default⟩]) =
        .ok body c ∧ c.rest = [⟨.endMark, "", default⟩] ∧ p.diagnostics = c.diagnostics ∧
      p.module? = if c.faulty then none else some ⟨⟨"a", .start, (default : Span).stop⟩, body⟩ :=
  ⟨by decide, (ofTokens_finishes "a" rfl (by decide)).1⟩

end StepBinding.Grammar
