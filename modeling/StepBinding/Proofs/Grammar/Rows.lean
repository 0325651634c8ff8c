import StepBinding.Proofs.Grammar.Alike
import StepBinding.Proofs.Grammar.Ends
import StepBinding.Proofs.Grammar.Settled

/-! Programs one after another. The statements of a program that meets no error and ends in a semicolon
are read in the same way if other statements follow. -/

namespace StepBinding.Grammar

open List Token Construct Steps

variable {s vs : List Token} {st : Stmt} {m : Module} {stop : Token}

namespace Rules

variable {r : Rules} {stop : Kind} {c c' c1 c2 : Cursor}

section Statements

theorem statementPass_eq (acc : List Stmt) (c : Cursor) :
    r.statementPass stop acc c =
      if [stop, .endMark].contains c.next.kind then .ok (.leave acc.reverse) c
      else (r.statement? stop >>= fun s => pure (.again (s.toList ++ acc))) c := by
  unfold statementPass
  change (if [stop, .endMark].contains c.next.kind then _ else _ : Parse _) c = _
  split
  · rfl
  · refine congrArg (fun f => (r.statement? stop >>= f) c) (funext fun s => ?_)
    cases s <;> rfl

/-- Neither the bound on the passes nor what was read before matters, and the passes end where
statements are to end. -/
theorem passes_statements {limit : List Token} {acc ss : List Stmt}
    (h : passes limit (r.statementPass stop) acc c = .ok ss c') :
    [stop, .endMark].contains c'.next.kind ∧ ∃ more, ss = acc.reverse ++ more ∧
      ∀ (limit' : List Token) (acc' : List Stmt), limit.length ≤ limit'.length →
        passes limit' (r.statementPass stop) acc' c = .ok (acc'.reverse ++ more) c' := by
  induction limit generalizing acc c with
  | nil => cases h
  | cons t limit ih =>
    unfold passes at h
    obtain ⟨pass, c1, hpass, h⟩ := bind_eq_ok h
    rw [statementPass_eq] at hpass
    split at hpass
    · rename_i hstop
      cases hpass
      cases h
      refine ⟨hstop, [], by simp, fun limit' acc' hle => ?_⟩
      obtain ⟨t', limit', rfl⟩ := exists_cons_of_length_pos (Nat.lt_of_lt_of_le (by simp) hle)
      unfold passes
      rw [bind_of_ok (by rw [statementPass_eq, if_pos hstop]), append_nil]
      rfl
    · rename_i hgo
      obtain ⟨s, c2, hs, hpass⟩ := bind_eq_ok hpass
      cases hpass
      obtain ⟨hstop, more, rfl, hmore⟩ := ih h
      refine ⟨hstop, s.toList ++ more, by cases s <;> simp, fun limit' acc' hle => ?_⟩
      obtain ⟨t', limit', rfl⟩ := exists_cons_of_length_pos (Nat.lt_of_lt_of_le (by simp) hle)
      unfold passes
      have hpass : r.statementPass stop acc' c = .ok (.again (s.toList ++ acc')) c1 := by
        rw [statementPass_eq, if_neg hgo, bind_of_ok hs]
        rfl
      rw [bind_of_ok hpass]
      dsimp only
      rw [hmore limit' _ (Nat.le_of_succ_le_succ hle)]
      cases s <;> simp

theorem statements_nil (h : [stop, .endMark].contains c.next.kind) :
    r.statements stop c = .ok [] c := by
  change passes (c.last :: c.rest) _ _ _ = _
  unfold passes
  rw [bind_of_ok (by rw [statementPass_eq, if_pos h])]
  rfl

/-- The first statement and the others. -/
theorem statements_cons {s : Option Stmt} {ss : List Stmt}
    (hgo : [stop, .endMark].contains c.next.kind = false)
    (h : r.statement? stop c = .ok s c1) (hlt : c1.rest.length < c.rest.length)
    (hss : r.statements stop c1 = .ok ss c') : r.statements stop c = .ok (s.toList ++ ss) c' := by
  obtain ⟨-, more, hmore, hpasses⟩ := passes_statements hss
  change passes (c.last :: c.rest) _ _ _ = _
  unfold passes
  have hpass : r.statementPass stop [] c = .ok (.again s.toList) c1 := by
    rw [statementPass_eq, if_neg (by rw [hgo]; exact nofun), bind_of_ok h, append_nil]
    rfl
  rw [bind_of_ok hpass]
  dsimp only
  rw [hpasses c.rest s.toList (by rw [length_cons]; omega), hmore]
  cases s <;> simp

end Statements

end Rules

section Closed

variable {us vs s : List Token}

/-- A parenthesis that is closed by some tokens starts an arrow function or not whatever follows, if
an arrow follows or not where the last of them closes it. -/
theorem arrowAfter_closed {inner outer : List Kind} {ts : List Token}
    (hnest : nest (inner ++ .lparen :: outer) (kinds ts) = some [])
    (hlast : (kinds ts).getLast? = some .rparen →
      (us.head?.any fun u => u.kind = .fatArrow) = vs.head?.any fun v => v.kind = .fatArrow) :
    Rules.arrowAfter (inner.count .lparen + 1) (ts ++ us) =
      Rules.arrowAfter (inner.count .lparen + 1) (ts ++ vs) := by
  induction ts generalizing inner with
  | nil => cases inner <;> cases hnest
  | cons t ts ih =>
    have hlast' := fun h : (kinds ts).getLast? = some .rparen => hlast (by
      change (t.kind :: kinds ts).getLast? = _
      rw [getLast?_cons, h]
      rfl)
    change nest _ (t.kind :: kinds ts) = _ at hnest
    have hskip (d : Nat) (ws : List Token) (hl : t.kind ≠ .lparen) (hr : t.kind ≠ .rparen)
        (he : t.kind ≠ .endMark) :
        Rules.arrowAfter d (t :: ts ++ ws) = Rules.arrowAfter d (ts ++ ws) := by
      rw [cons_append, Rules.arrowAfter]
      split <;> first | contradiction | rfl
    by_cases hl : t.kind = .lparen
    · rw [hl, nest_opener rfl, ← cons_append] at hnest
      have := ih hnest hlast'
      rw [count_cons_self] at this
      simpa [Rules.arrowAfter, hl] using this
    by_cases hr : t.kind = .rparen
    · obtain ⟨stack, hstack, hrest⟩ := exists_of_nest_closer (by rw [hr]; rfl) hnest
      cases inner with
      | nil =>
        -- The parenthesis is closed, perhaps by the last token.
        cases ts with
        | nil => simpa [Rules.arrowAfter, hr] using hlast (congrArg some hr)
        | cons u ts => simp [Rules.arrowAfter, hr]
      | cons k inner =>
        rw [cons_append, List.cons.injEq] at hstack
        obtain ⟨rfl, rfl⟩ := hstack
        have := ih hrest hlast'
        rw [count_cons_self]
        simpa [Rules.arrowAfter, hr] using this
    by_cases he : t.kind = .endMark
    · simp [Rules.arrowAfter, he]
    rw [hskip _ us hl hr he, hskip _ vs hl hr he]
    cases hopener : t.kind.opener? with
    | some o =>
      obtain ⟨stack, hstack, hrest⟩ := exists_of_nest_closer hopener hnest
      have ho : o ≠ .lparen := by
        rintro rfl
        exact hr (by cases hk : t.kind <;> rw [hk] at hopener <;> cases hopener)
      cases inner with
      | nil =>
        cases hstack
        exact absurd rfl ho
      | cons k inner =>
        rw [cons_append, List.cons.injEq] at hstack
        obtain ⟨rfl, rfl⟩ := hstack
        rw [count_cons_of_ne ho]
        exact ih hrest hlast'
    | none =>
      cases hopens : t.kind.isOpener with
      | true =>
        rw [nest_opener hopens, ← cons_append] at hnest
        have := ih hnest hlast'
        rwa [count_cons_of_ne hl] at this
      | false =>
        rw [nest_plain (by simp [isPlain, hopens, hopener, he])] at hnest
        exact ih hnest hlast'

/-- Tokens whose brackets match, the last of them a semicolon. -/
theorem Closed.of_balanced (hs : Balanced (kinds s)) (hlast : (kinds s).getLast? = some .semicolon)
    (hus : us ≠ []) (hvs : vs ≠ []) (hus' : ∀ t ∈ us.head?, t.kind ≠ .kwElse)
    (hvs' : ∀ t ∈ vs.head?, t.kind ≠ .kwElse) : Closed us vs s where
  left := hus
  right := hvs
  marker y hne hy := by
    match y, getLast?_of_suffix hlast hy hne with
    | [t], hk =>
      have hkind : t.kind = .semicolon := Option.some.inj hk
      obtain ⟨u, us, rfl⟩ := exists_cons_of_ne_nil hus
      obtain ⟨v, vs, rfl⟩ := exists_cons_of_ne_nil hvs
      simp [isMarker, hkind, Kind.isDeclarator]
    | t :: u :: y, _ => rfl
  arrow y hne hy := by
    have hk := getLast?_of_suffix hlast hy hne
    obtain ⟨t, y, rfl⟩ := exists_cons_of_ne_nil hne
    by_cases hname : t.kind = .identifier
    · obtain ⟨u, y, rfl⟩ : ∃ u y', y = u :: y' := by
        cases y with
        | nil => exact absurd (hname.symm.trans (Option.some.inj hk)) (by decide)
        | cons u y => exact ⟨u, y, rfl⟩
      simp [Rules.isArrowStart, hname]
    by_cases hparen : t.kind = .lparen
    · obtain ⟨x, rfl⟩ := hy
      have hnest := hs.nest []
      rw [kinds_append, nest_append] at hnest
      obtain ⟨stack, -, hnest⟩ := Option.bind_eq_some_iff.mp hnest
      change nest stack (t.kind :: kinds y) = _ at hnest
      rw [hparen, nest_opener rfl] at hnest
      have hafter := @arrowAfter_closed us vs [] stack y hnest fun h => by
        change (t.kind :: kinds y).getLast? = _ at hk
        rw [getLast?_cons, h] at hk
        cases hk
      simpa [Rules.isArrowStart, Rules.arrowAfter, hname, hparen] using hafter
    · simp [Rules.isArrowStart, hname, hparen]
  last := hlast
  leftElse := hus'
  rightElse := hvs'

end Closed

section Rows

variable {n : Nat} {c c' : Cursor} {ss : List Stmt}

/-- What is left is the end mark, or a statement is read first. -/
theorem statements_cases (hc : c.Good) (hn : 2 * c.rest.length + 1 < n)
    (h : (rules n).statements .endMark c = .ok ss c') :
    (c.next.kind = .endMark ∧ ss = [] ∧ c' = c) ∨
      c.next.kind ≠ .endMark ∧ ∃ s c1 ss', (rules n).statement? .endMark c = .ok s c1 ∧
        c1.Good ∧ c1.rest.length < c.rest.length ∧ ss = s.toList ++ ss' ∧
        (rules n).statements .endMark c1 = .ok ss' c' := by
  by_cases hk : c.next.kind = .endMark
  · rw [Rules.statements_nil (by rw [hk]; rfl)] at h
    cases h
    exact .inl ⟨hk, rfl, rfl⟩
  · right
    have hrun := ended_statement? hc.closed hn .endMark hk
    have hgo : [Kind.endMark, .endMark].contains c.next.kind = false := by simp [hk]
    cases hs : (rules n).statement? .endMark c with
    | error e c1 =>
      change passes (c.last :: c.rest) _ _ _ = _ at h
      unfold passes at h
      have hpass : (rules n).statementPass .endMark [] c = .error e c1 := by
        rw [Rules.statementPass_eq, if_neg (by rw [hgo]; exact nofun), bind_of_error hs]
      rw [bind_of_error hpass] at h
      cases h
    | ok s c1 =>
      rw [hs] at hrun
      obtain ⟨hto, hlt⟩ := hrun
      change c1.rest.length < c.rest.length at hlt
      obtain ⟨ss', c2, hss', -⟩ := exists_statements (hto.ends hc.closed) (n := n) (by omega) .endMark
      have := Rules.statements_cons hgo hs hlt hss'
      rw [h] at this
      cases this
      exact ⟨hk, s, c1, ss', rfl, hto.ends hc, hlt, rfl, hss'⟩

/-- A statement is not read abnormally within the bound. -/
theorem not_abnormal_statement (hc : c.Good) (hn : 2 * c.rest.length + 1 < n) :
    ¬Abnormal ((rules n).statement c) := by
  rintro ⟨e, c1, he, hne⟩
  have hrun := ended_statement hc.closed hn
  rw [he] at hrun
  cases e with
  | misplaced => exact hne rfl
  | _ => exact hrun

/-- A first statement that meets no error. -/
theorem statement_of_clean {us : List Token} {c1 : Cursor} (hs : Closed us vs s)
    (hg : (c.onto (s ++ us)).Good) (hg' : (c.onto (s ++ vs)).Good)
    (hn : 2 * (s ++ vs).length + 1 < n)
    (h : Clean True (rules n).statement (c.onto (s ++ us)) st c1) (hleft : us <:+ c1.rest) :
    ∃ s1, s1 <:+ s ∧ c1 = c1.onto (s1 ++ us) ∧
      (rules n).statement (c.onto (s ++ vs)) = .ok st (c1.onto (s1 ++ vs)) := by
  obtain ⟨s1, hrest, -, hsuffix⟩ :=
    @exists_left _ _ [] _ hleft (Local.shrinks h.ok h.sound)
  refine ⟨s1, hsuffix, Cursor.eq_over hrest, ?_⟩
  have hnormal : ¬Abnormal ((rules n).statement (c.onto (s ++ vs))) := not_abnormal_statement hg' hn
  rw [Cursor.eq_over hrest] at h
  by_cases hne : s1 = []
  · subst hne
    exact (rules_settle n hs hg st c1 h).resolve_right hnormal
  · exact (Local.agrees hs.toBefore hne h.ok h.sound).resolve_right hnormal

/-- Statements that meet no error and end in a semicolon are read in the same way whatever follows
them. -/
theorem statements_append {c : Cursor} (hstop : stop.kind = .endMark)
    (hs : s = [] ∨ Closed [stop] vs s) (hg : (c.onto (s ++ [stop])).Good)
    (hg' : (c.onto (s ++ vs)).Good) (hn : 2 * (s ++ [stop]).length + 1 < n)
    (hn' : 2 * (s ++ vs).length + 1 < n)
    (h : Clean True ((rules n).statements .endMark) (c.onto (s ++ [stop])) ss c') :
    c'.rest = [stop] ∧ ∀ ss' c'', (rules n).statements .endMark (c'.onto vs) = .ok ss' c'' →
      (rules n).statements .endMark (c.onto (s ++ vs)) = .ok (ss ++ ss') c'' := by
  induction hlen : s.length using Nat.strongRecOn generalizing s c ss with
  | _ len ih =>
  rcases statements_cases hg hn h.ok with ⟨hk, rfl, rfl⟩ |
    ⟨hk, first, c1, ss, hfirst, hgood, hlt, rfl, hss⟩
  · have hnil : s = [] := by
      cases s with
      | nil => rfl
      | cons t s =>
        rcases hg.next_cases with ⟨-, hrest⟩ | ⟨hvalid, -⟩
        · cases s <;> cases hrest
        · exact absurd hk hvalid.inside
    subst hnil
    exact ⟨rfl, fun ss' c'' h => h⟩
  · have hclosed : Closed [stop] vs s := hs.resolve_left fun hnil => by
      subst hnil
      exact hk hstop
    have hto : c1.Leads c' := KeepsTo.of_ok hss
    have hclean : Clean True ((rules n).statements .endMark) c1 ss c' := ⟨hss, h.sound, h.silent⟩
    obtain ⟨st, rfl, hst⟩ := Rules.statement?_inv (r := rules n)
      ⟨hfirst, Keeps.sound inferInstance hss h.sound, fun hc => hto.silent (h.silent hc)⟩
    have hleft : [stop] <:+ c1.rest := by
      obtain ⟨ts, hts⟩ := Local.shrinks hst.ok hst.sound
      obtain ⟨us, u, hus⟩ := (eq_nil_or_concat c1.rest).resolve_left hgood.ne_nil
      rw [hus, concat_eq_append, ← append_assoc] at hts
      obtain ⟨-, hlast⟩ := append_inj' hts rfl
      exact ⟨us, by rw [hus, concat_eq_append, hlast]⟩
    obtain ⟨s1, hsuffix, hc1, hst'⟩ := statement_of_clean hclosed hg hg' hn' hst hleft
    have hrest : c1.rest = s1 ++ [stop] := congrArg Cursor.rest hc1
    have hlen1 : s1.length < s.length := by
      rw [hrest] at hlt
      simpa using hlt
    rw [hc1] at hclean hgood
    have hs1 : s1 = [] ∨ Closed [stop] vs s1 := by
      by_cases hne : s1 = []
      · exact .inl hne
      · exact .inr (hclosed.suffix hsuffix hne)
    simp only [length_append] at hn hn'
    obtain ⟨hlast, hmore⟩ := ih s1.length (hlen ▸ hlen1) hs1 hgood
      (good_over hg' hsuffix hclosed.right) (by simp only [length_append]; omega)
      (by simp only [length_append]; omega) hclean rfl
    refine ⟨hlast, fun ss' c'' hss' => ?_⟩
    obtain ⟨t, s, rfl⟩ := exists_cons_of_ne_nil hclosed.ne_nil
    refine Rules.statements_cons (s := some st) ?_ (Rules.statement?_of_ok hst') ?_
      (hmore ss' c'' hss')
    · have hk : t.kind ≠ .endMark := hk
      simpa [Cursor.next] using hk
    · simp only [Cursor.rest_over, length_append]
      omega

/-- Where statements end, only the end mark is left. -/
theorem rest_of_statements (hc : c'.Closed) (hrest : c'.rest <:+ s ++ [stop])
    (h : (rules n).statements .endMark c = .ok ss c') : c'.rest = [stop] := by
  have hend : c'.next.kind = .endMark := by simpa using (Rules.passes_statements h).1
  obtain ⟨ts, hts⟩ := hrest
  rcases hc.next_cases with ⟨-, hnext⟩ | ⟨hne, -⟩
  · rw [hnext] at hts ⊢
    exact (append_inj' hts rfl).2
  · exact absurd hend hne

end Rows

section Behind

variable {m : Nat} {tokens : List Token} {c c' : Cursor} {ss : List Stmt}

/-- A larger bound makes no difference. -/
theorem statements_of_le {n : Nat} {stop : Kind} (hm : n ≤ m)
    (h : (rules n).statements stop c = .ok ss c') : (rules m).statements stop c = .ok ss c' := by
  have hself (c : Cursor) : c.changed Change.still [] = c := by
    simp [Cursor.changed, Change.token_still, Change.diagnostic_still, Change.log_still]
  have hrun := ((statements_alike Change.still hm stop).run [] c).resolve_left
    (by rw [h]; rintro ⟨_, _, ⟨⟩, _⟩)
  rw [h, hself] at hrun
  rw [hrun]
  change EStateM.Result.ok _ _ = _
  rw [hself, move_stmts]
  exact congrArg (EStateM.Result.ok · c') (Relabel.stmts_id ss)

end Behind

namespace Program

variable {file : String} {p q : Program} {stop : Token} {s tokens : List Token}

/-- The program that is read to the end `c` of a stream. -/
def ofEnd (file : String) (body : List Stmt) (c : Cursor) : Program where
  module? := if c.faulty then none else some ⟨⟨file, .start, c.next.span.stop⟩, body⟩
  diagnostics := c.diagnostics
  log := c.log

theorem ofTokens_run (file : String) (tokens : List Token) : ofTokens file tokens =
    match (rules (2 * tokens.length + 2)).statements .endMark (Cursor.start tokens) with
    | .error stop _ => .error stop
    | .ok body c => .ok (ofEnd file body c) := rfl

theorem ofTokens_eq_ok : ofTokens file tokens = .ok p ↔ ∃ body c,
    (rules (2 * tokens.length + 2)).statements .endMark (.start tokens) = .ok body c ∧
      p = ofEnd file body c := by
  rw [ofTokens_run]
  cases (rules (2 * tokens.length + 2)).statements .endMark (Cursor.start tokens) with
  | error e c => exact ⟨by rintro ⟨⟩, by rintro ⟨_, _, ⟨⟩, _⟩⟩
  | ok body c =>
    refine ⟨fun h => ⟨body, c, rfl, (Except.ok.inj h).symm⟩, ?_⟩
    rintro ⟨body', c', hrun, rfl⟩
    cases hrun
    rfl

/-- What is read when the program alone is read. -/
theorem clean_of_ofTokens (hp : ofTokens file tokens = .ok p) (hm : p.module? = some m) :
    ∃ c, Clean (∀ d ∈ p.diagnostics, d.isError = false)
      ((rules (2 * tokens.length + 2)).statements .endMark) (.start tokens) m.body c ∧
      p = ofEnd file m.body c := by
  obtain ⟨body, c, hread, rfl⟩ := ofTokens_eq_ok.mp hp
  have hf : c.faulty = false := by
    cases hf : c.faulty with
    | false => rfl
    | true => simp [ofEnd, hf] at hm
  simp only [ofEnd, hf] at hm
  cases hm
  exact ⟨c, ⟨hread, hf, fun h => h⟩, rfl⟩

theorem good_append (hg : (Cursor.start (s ++ [stop])).Good) (hg' : (Cursor.start tokens).Good) :
    stop.kind = .endMark ∧ (Cursor.start (s ++ tokens)).Good := by
  obtain ⟨ts, u, hts, hu, hvalid⟩ := hg
  obtain ⟨rfl, hstop⟩ := append_inj' (show s ++ [stop] = ts ++ [u] from hts) rfl
  obtain ⟨us, v, hus, hv, hvalid'⟩ := hg'
  refine ⟨(List.cons.inj hstop).1 ▸ hu, s ++ us, v, ?_, hv, fun t ht => ?_⟩
  · rw [append_assoc, ← show tokens = us ++ [v] from hus]
    rfl
  · exact (mem_append.mp ht).elim (hvalid t) (hvalid' t)

/-- A program that meets no error and ends in a semicolon is read, and then what follows it. -/
theorem ofTokens_append (hg : (Cursor.start (s ++ [stop])).Good)
    (hs : s = [] ∨ (kinds s).getLast? = some .semicolon) (hp : ofTokens file (s ++ [stop]) = .ok p)
    (hm : p.module? = some m) (hcalm : ∀ d ∈ p.diagnostics, d.isError = false)
    (hg' : (Cursor.start tokens).Good) (helse : ∀ t ∈ tokens.head?, t.kind ≠ .kwElse) :
    ∃ c : Cursor, c.rest = tokens ∧ c.faulty = false ∧ c.diagnostics = p.diagnostics ∧
      ∀ ss c', (rules (2 * (s ++ tokens).length + 2)).statements .endMark c = .ok ss c' →
        ofTokens file (s ++ tokens) = .ok (ofEnd file (m.body ++ ss) c') := by
  obtain ⟨c, hclean, rfl⟩ := clean_of_ofTokens hp hm
  have hclean : Clean True _ _ m.body c := ⟨hclean.ok, hclean.sound, fun _ => hclean.silent hcalm⟩
  obtain ⟨hstop, hgood⟩ := good_append hg hg'
  rcases hs with rfl | hlast
  · have hread := (statements_cases hg (by simp [Cursor.start]) hclean.ok).resolve_right
      fun h => h.1 hstop
    obtain ⟨-, hbody, rfl⟩ := hread
    exact ⟨.start tokens, rfl, rfl, rfl, fun ss c' h =>
      ofTokens_eq_ok.mpr ⟨ss, c', h, by rw [hbody]; rfl⟩⟩
  -- All tokens are passed, so their brackets match.
  obtain ⟨ks, hmoves, hbalanced, -⟩ := Rules.reads_statements (rules_sound _) hg hclean
  obtain ⟨ts, hts, hks, -⟩ := hmoves.tokens
  rw [rest_of_statements (Cursor.Good.closed hmoves.good) ⟨ts, hts.symm⟩ hclean.ok] at hts
  obtain ⟨rfl, -⟩ := append_inj' (show s ++ [stop] = ts ++ [stop] from hts) rfl
  have hclosed : Closed [stop] tokens s :=
    .of_balanced (hks ▸ hbalanced trivial) hlast (by simp) hg'.ne_nil
      (fun t ht => by cases ht; rw [hstop]; decide) helse
  have hpos := length_pos_iff.mpr (show tokens ≠ [] from hg'.ne_nil)
  obtain ⟨-, hmore⟩ := statements_append (c := .start (s ++ [stop])) hstop (.inr hclosed) hg hgood
    (n := 2 * (s ++ tokens).length + 2) (by simp only [length_append, length_singleton]; omega)
    (by omega) ⟨statements_of_le (by simp only [length_append, length_singleton]; omega) hclean.ok,
      hclean.sound, hclean.silent⟩
  refine ⟨c.onto tokens, rfl, hclean.sound, rfl, fun ss c' h => ofTokens_eq_ok.mpr ⟨_, c', ?_, rfl⟩⟩
  obtain ⟨t, s, rfl⟩ := exists_cons_of_ne_nil hclosed.ne_nil
  exact hmore ss c' h

end Program

end StepBinding.Grammar
