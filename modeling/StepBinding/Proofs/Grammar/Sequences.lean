import StepBinding.Proofs.Construct.Tiling
import StepBinding.Proofs.Grammar.Commas
import StepBinding.Proofs.Grammar.Renewed

/-! Step lists and sequences. If no step binding stands outside of the brackets of a step list, then its
steps are expressions exactly if a sequence of expressions is read from where the list starts up to
where it ends, and these are the expressions of the sequence. So the scan that cuts a list and the
grammar agree on every comma. -/

namespace StepBinding.Grammar

open List Token Construct Steps

variable {first e : Expr} {r : Rules}

section Step

variable {n : Nat} {c c' : Cursor} {e : Expr} {us s : List Token} {ds : List Diagnostic} {log : Log}

/-- Within the bound an expression is not read abnormally. -/
theorem not_abnormal_assignment (hc : c.Closed) (hn : 2 * c.rest.length < n) :
    ¬Abnormal ((rules n).assignment c) := by
  rintro ⟨e, c1, he, hne⟩
  have hrun := ended_assignment hc hn
  rw [he] at hrun
  cases e with
  | misplaced => exact hne rfl
  | _ => exact hrun

theorem length_assignment (hc : c.Closed) (hn : 2 * c.rest.length < n)
    (h : (rules n).assignment c = .ok e c') : c'.rest.length < c.rest.length := by
  have hrun := ended_assignment hc hn
  rw [h] at hrun
  exact hrun.2

/-- What was found before, and the token before, make no difference. -/
theorem assignment_behind_iff (hc : c.Closed) (hn : 2 * c.rest.length < n) (t : Token) :
    (rules n).assignment { c with last := t, diagnostics := ds ++ c.diagnostics } = .ok e c' ↔
      ∃ c1, (rules n).assignment c = .ok e c1 ∧
        c' = { c1 with diagnostics := ds ++ c1.diagnostics } := by
  have hself (c : Cursor) : c.changed Change.still ds =
      { c with diagnostics := ds ++ c.diagnostics } := by
    simp [Cursor.changed, Change.token_still, Change.diagnostic_still, Change.log_still]
  have hmove (e : Expr) : Placed.move Change.still e = e := by
    change Change.still.label.expr e = e
    exact Relabel.expr_id e
  have halike := ((rules_alike Change.still (Nat.le_refl n)).1.run ds c).resolve_left
    (not_abnormal_assignment hc hn)
  have hrenews := (rules_renew n).1 { c with diagnostics := ds ++ c.diagnostics } hc.ne_nil
  rw [hself] at halike
  constructor
  · intro h
    have h := RenewsAt.of_ok ((rules_renew n).1
      { c with last := t, diagnostics := ds ++ c.diagnostics } hc.ne_nil) h c.last
    change (rules n).assignment { c with diagnostics := ds ++ c.diagnostics } = _ at h
    rw [h] at halike
    cases hp : (rules n).assignment c with
    | error e' c1 =>
      rw [hp] at halike
      cases halike
    | ok e' c1 =>
      rw [hp] at halike
      injection halike with hvalue hcursor
      rw [hmove] at hvalue
      exact ⟨c1, by rw [hvalue], hcursor.trans (hself c1)⟩
  · rintro ⟨c1, h, rfl⟩
    rw [h] at halike
    refine RenewsAt.of_ok hrenews ?_ t
    rw [halike, changed, hmove, hself]

theorem Rules.wholeStep_eq_ok :
    r.wholeStep c = .ok e c' ↔ r.assignment c = .ok e c' ∧ c'.next.kind = .endMark := by
  unfold Rules.wholeStep
  constructor
  · intro h
    obtain ⟨e', c1, ha, h⟩ := bind_eq_ok h
    change (if c1.next.kind = .endMark then pure e' else _ : Parse Expr) c1 = _ at h
    split at h
    · cases h
      exact ⟨ha, ‹_›⟩
    · cases h
  · rintro ⟨h, hend⟩
    rw [bind_of_ok h]
    change (if c'.next.kind = .endMark then pure e else _ : Parse Expr) c' = _
    rw [if_pos hend]
    rfl

/-- The end mark behind the tokens of a step. -/
def stepEnd (s : List Token) : Token := ⟨.endMark, "", (s.getLastD (s.headD default)).span⟩

/-- The cursor at the start of a step. -/
def Cursor.atStep (c : Cursor) (s : List Token) : Cursor :=
  { rest := s ++ [stepEnd s], last := s.headD default, log := c.log }

theorem Rules.step_cons (r : Rules) (first : Token) (more : List Token) (c : Cursor) :
    r.step (first :: more) c =
      match r.wholeStep (c.atStep (first :: more)) with
      | .ok e sub => .ok (if sub.faulty then none else some e)
        { c with diagnostics := c.diagnostics ++ sub.diagnostics, log := sub.log }
      | .error .misplaced sub => .ok none
        { c with diagnostics := c.diagnostics ++ sub.diagnostics, log := sub.log }
      | .error other sub => .error other
        { c with diagnostics := c.diagnostics ++ sub.diagnostics, log := sub.log } := rfl

theorem Rules.step_eq_some (hs : s ≠ []) :
    r.step s c = .ok (some e) { c with diagnostics := ds, log } ↔
      ∃ sub, r.wholeStep (c.atStep s) = .ok e sub ∧ sub.faulty = false ∧
        ds = c.diagnostics ++ sub.diagnostics ∧ log = sub.log := by
  obtain ⟨first, more, rfl⟩ := exists_cons_of_ne_nil hs
  rw [step_cons]
  cases hw : r.wholeStep (c.atStep (first :: more)) with
  | error stop sub =>
    refine iff_of_false (fun h => ?_) (by rintro ⟨_, ⟨⟩, _⟩)
    cases stop <;> cases h
  | ok e' sub =>
    dsimp only
    cases hf : sub.faulty with
    | true =>
      refine iff_of_false (fun h => ?_) ?_
      · cases h
      · rintro ⟨_, ⟨⟩, hsound, -⟩
        rw [hf] at hsound
        cases hsound
    | false =>
      constructor
      · intro h
        cases h
        exact ⟨sub, rfl, hf, rfl, rfl⟩
      · rintro ⟨_, h, -, rfl, rfl⟩
        cases h
        rfl

/-- A step is read on its own as it is read before a border. -/
theorem step_iff (hc : c.faulty = false) (hs : s ≠ []) (hnest : nest [] (kinds s) = some [])
    (hu : Border us) (hmark : Unmarked us s)
    (hvalid : ∃ ts stop, s ++ us = ts ++ [stop] ∧ stop.kind = .endMark ∧ ∀ t ∈ ts, t.kind ≠ .endMark)
    (hn : 2 * (s ++ us).length < n) (t : Token) :
    (rules n).step s c = .ok (some e) { c with diagnostics := ds, log } ↔
      ∃ last, (rules n).assignment { c with rest := s ++ us, last := t } =
        .ok e { c with rest := us, last, diagnostics := ds, log } := by
  have hend : Border [stepEnd s] := ⟨rfl, rfl⟩
  have hto : Tidy us [stepEnd s] s := ⟨hu, hend, hnest, hmark, hvalid⟩
  have hstep : ∃ ts stop, s ++ [stepEnd s] = ts ++ [stop] ∧ stop.kind = .endMark ∧
      ∀ t ∈ ts, t.kind ≠ .endMark := by
    obtain ⟨ts, stop, heq, -, hts⟩ := hvalid
    refine ⟨s, stepEnd s, rfl, rfl, fun t ht => hts t ?_⟩
    obtain ⟨us, u, rfl⟩ := (eq_nil_or_concat us).resolve_left hu.stopped.ne_nil
    rw [concat_eq_append, ← append_assoc] at heq
    obtain ⟨rfl, -⟩ := append_inj' heq rfl
    exact mem_append_left us ht
  have hfrom := hto.swap hstep
  have hlength : 0 < us.length := length_pos_iff.mpr hu.stopped.ne_nil
  rw [length_append] at hn
  -- The host cursor is the cursor of the step behind what was found before.
  have hhost : { c with rest := s ++ us, last := t } = { (c.atStep s).onto (s ++ us) with
      last := t, diagnostics := c.diagnostics ++ ((c.atStep s).onto (s ++ us)).diagnostics } := by
    simp [Cursor.atStep, Cursor.onto, hc]
  have hiff (c1 : Cursor) := @assignment_behind_iff n ((c.atStep s).onto (s ++ us)) c1 e c.diagnostics
    hto.good (by rw [Cursor.rest_over, length_append]; exact hn) t
  rw [Rules.step_eq_some hs, hhost]
  constructor
  · rintro ⟨sub, hsub, hsound, rfl, rfl⟩
    obtain ⟨ha, hk⟩ := Rules.wholeStep_eq_ok.mp hsub
    have hrest : sub.rest = [stepEnd s] := by
      obtain ⟨hgood, s', hs', -⟩ := rules_glide n (c.atStep s) _ _ hstep (Clean.of_ok ha hsound)
      rcases hgood.next_cases with ⟨-, hrest⟩ | ⟨hvalid, -⟩
      · have hlast := congrArg List.getLast? hs'
        rw [hrest] at hlast ⊢
        simp only [Cursor.atStep, getLast?_append, getLast?_singleton,
          Option.some_or, Option.some.injEq] at hlast
        rw [hlast]
      · exact absurd hk hvalid
    rw [Cursor.eq_over hrest] at ha
    have hus := ((rules_level n).agrees (c := c.atStep s) hfrom ha hsound).resolve_right
      (not_abnormal_assignment hto.good (by rw [Cursor.rest_over, length_append]; exact hn))
    refine ⟨sub.last, (hiff _).mpr ⟨_, hus, ?_⟩⟩
    simp [Cursor.onto, hc, hsound]
  · rintro ⟨last, h⟩
    obtain ⟨sub, hsub, heq⟩ := (hiff _).mp h
    injection heq with hrest _ hds hfaulty hlog
    have hsound : sub.faulty = false := hfaulty.symm.trans hc
    rw [Cursor.eq_over hrest.symm] at hsub
    have hstop := ((rules_level n).agrees hto hsub hsound).resolve_right
      (not_abnormal_assignment hfrom.good (by
        rw [Cursor.rest_over, length_append, length_singleton]; omega))
    exact ⟨_, Rules.wholeStep_eq_ok.mpr ⟨hstop, rfl⟩, hsound, hds, hlog⟩

end Step

namespace Rules

variable {r : Rules} {c c' c1 : Cursor} {e first : Expr} {s : List Token} {es acc : List Expr}

theorem exists_of_step {o : Option Expr} (h : r.step s c = .ok o c') :
    ∃ ds log, c' = { c with diagnostics := ds, log } := by
  unfold step at h
  cases s with
  | nil =>
    cases h
    exact ⟨_, _, rfl⟩
  | cons t s =>
    dsimp only at h
    split at h <;> cases h <;> exact ⟨_, _, rfl⟩

theorem stepList_cons_eq_ok {later : List (List Token)} (hs : s ≠ []) :
    r.stepList (s :: later) c = .ok (es, []) c' ↔ ∃ e es' c1, es = e :: es' ∧
      r.step s c = .ok (some e) c1 ∧ r.stepList later c1 = .ok (es', []) c' := by
  rw [stepList.eq_3 _ _ _ fun h => hs h]
  constructor
  · intro h
    obtain ⟨o, c1, hstep, h⟩ := bind_eq_ok h
    cases o with
    | none =>
      obtain ⟨p, c2, -, h⟩ := bind_eq_ok h
      cases h
    | some e =>
      obtain ⟨⟨es', codes⟩, c2, hlater, h⟩ := bind_eq_ok h
      cases h
      exact ⟨e, es', c1, rfl, hstep, hlater⟩
  · rintro ⟨e, es', c1, rfl, hstep, hlater⟩
    rw [bind_of_ok hstep]
    dsimp only
    rw [bind_of_ok hlater]
    rfl

theorem sequencePass_comma {t u : Token} {ts : List Token} (hk : u.kind = .comma) (hne : ts ≠ []) :
    r.sequencePass acc { c with rest := u :: ts, last := t } =
      (r.assignment >>= fun e => pure (.again (e :: acc))) { c with rest := ts, last := u } := by
  change (if u.kind == .comma then _ else _ : Parse _) _ = _
  rw [if_pos (by simpa using hk)]
  exact bind_of_ok (advance_over { c with last := t } hne)

theorem sequencePass_other (hk : c.next.kind ≠ .comma) :
    r.sequencePass acc c = .ok (.leave acc) c := by
  change (if c.next.kind == .comma then _ else _ : Parse _) c = _
  rw [if_neg (by simpa using hk)]
  rfl

/-- One expression and a row of others, or nothing, behind it. -/
theorem expression_eq_ok : r.expression c = .ok e c' ↔
    ∃ first c1 more, r.assignment c = .ok first c1 ∧
      passes (c1.last :: c1.rest) r.sequencePass [] c1 = .ok more c' ∧
      e = if c1.next.kind = .comma then
        .sequence (first.span.through (more.headD first).span) (first :: more.reverse) else first := by
  have hexpression {first : Expr} {c1 : Cursor} (h : r.assignment c = .ok first c1) :
      r.expression c = (if !(c1.next.kind == Kind.comma) then pure first else do
        let more ← passes (c1.last :: c1.rest) r.sequencePass []
        return .sequence (first.span.through (more.headD first).span) (first :: more.reverse)) c1 := by
    unfold expression
    rw [bind_of_ok h]
    change (if !(c1.next.kind == Kind.comma) then _ else _ : Parse Expr) c1 = _
    split <;> rfl
  constructor
  · intro h
    obtain ⟨first, c1, hfirst, -⟩ := bind_eq_ok h
    rw [hexpression hfirst] at h
    by_cases hk : c1.next.kind = .comma
    · rw [if_neg (by simp [hk])] at h
      obtain ⟨more, c2, hmore, h⟩ := bind_eq_ok h
      cases h
      exact ⟨first, c1, more, hfirst, hmore, (if_pos hk).symm⟩
    · rw [if_pos (by simp [hk])] at h
      cases h
      exact ⟨_, _, [], hfirst, bind_of_ok (sequencePass_other hk), (if_neg hk).symm⟩
  · rintro ⟨first, c1, more, hfirst, hmore, rfl⟩
    rw [hexpression hfirst]
    by_cases hk : c1.next.kind = .comma
    · rw [if_neg (by simp [hk]), if_pos hk]
      exact bind_of_ok hmore
    · have hleave := (bind_of_ok (sequencePass_other hk)).symm.trans hmore
      cases hleave
      rw [if_pos (by simp [hk]), if_neg hk]
      rfl

end Rules

/-- What expressions with commas between them are as one expression: the only one of them, or the
sequence of all. -/
def joined (first : Expr) : List Expr → Expr
  | [] => first
  | e :: es => .sequence (first.span.through ((e :: es).getLastD first).span) (first :: e :: es)

theorem joined_of_ne_nil {more : List Expr} (h : more ≠ []) : joined first more =
    .sequence (first.span.through (more.reverse.headD first).span) (first :: more) := by
  obtain ⟨e, es, rfl⟩ := exists_cons_of_ne_nil h
  rw [joined, getLastD_eq_getLast?, headD_eq_head?_getD, head?_reverse]

/-- Steps, each behind its comma. -/
def row (later : List (Token × List Token)) : List Token := later.flatMap fun p => p.1 :: p.2

section Row

variable {n : Nat} {c : Cursor} {us ts limit : List Token} {t last : Token} {ds : List Diagnostic}
  {log : Log} {es acc more : List Expr} {later : List (Token × List Token)} {stack : List Kind}

theorem length_le_row : later.length ≤ (row later).length := by
  induction later with
  | nil => exact Nat.le_refl 0
  | cons p later ih =>
    rw [row, flatMap_cons, length_append, length_cons, length_cons]
    exact Nat.le_trans (Nat.succ_le_succ ih) (Nat.le_trans (Nat.le_add_left _ p.2.length) (by
      rw [row]
      omega))

theorem balanced_row (h : ∀ p ∈ later, p.1.kind = .comma ∧ Balanced (kinds p.2)) :
    Balanced (kinds (row later)) := by
  induction later with
  | nil => exact .nil
  | cons p later ih =>
    obtain ⟨⟨hk, hp⟩, hlater⟩ := forall_mem_cons.mp h
    rw [row, flatMap_cons, kinds_append, kinds_cons, hk]
    exact (hp.cons rfl).append (ih hlater)

/-- What follows a step of a row is a border. -/
theorem Border.row (hu : Border us) (hcomma : ∀ p ∈ later, p.1.kind = .comma) :
    Border (row later ++ us) := by
  refine ⟨hu.stopped.append, ?_⟩
  cases later with
  | nil => exact hu.head
  | cons p later =>
    have hk := hcomma p mem_cons_self
    change isBorder p.1.kind
    rw [hk]
    rfl

variable (hc : c.faulty = false) (hu : Border us)
  (hend : (us.head?.any fun u => u.kind = .comma) = false)

include hc in
/-- The tokens of an expression that stops somewhere before `us` are a step. -/
theorem exists_step {c1 : Cursor} (hmark : Unmarked us ts) (hnest : nest [] (kinds ts) = some stack)
    (hgood : (c.onto (ts ++ us)).Closed) (hn : 2 * (ts ++ us).length < n)
    (ha : (rules n).assignment { c with rest := ts ++ us, last := t } = .ok e c1)
    (hsound : c1.faulty = false) (hrest : us <:+ c1.rest) :
    ∃ s ts1 last ds log, ts = s ++ ts1 ∧
      c1 = { c with rest := ts1 ++ us, last, diagnostics := ds, log } ∧
      s ≠ [] ∧ Balanced (kinds s) ∧ Flat (kinds s) ∧ nest [] (kinds ts1) = some stack ∧
      (c.onto (ts1 ++ us)).Closed := by
  have hgood : Cursor.Closed { c with rest := ts ++ us, last := t } := hgood
  obtain ⟨hgood1, s, hs, hplain⟩ := rules_glide n _ _ _ hgood (Clean.of_ok ha hsound)
  obtain ⟨ts1, hts1⟩ := hrest
  obtain ⟨rest1, last1, ds1, faulty1, log1⟩ := c1
  dsimp only at hs hts1 hplain hsound
  subst hts1
  obtain rfl : ts = s ++ ts1 := by
    rw [← append_assoc] at hs
    exact append_cancel_right hs
  obtain rfl : c.faulty = faulty1 := hc.trans hsound.symm
  have hne : s ≠ [] := by
    rintro rfl
    exact absurd (length_assignment hgood hn ha) (Nat.lt_irrefl _)
  obtain ⟨hbalanced, hflat, hnest⟩ := hplain.front hmark.front hnest
  exact ⟨s, ts1, last1, ds1, log1, rfl, rfl, hne, hbalanced, hflat, hnest, hgood1⟩

include hu hend

/-- Whether a comma comes next tells one step from more. -/
theorem joined_of_stepList {c1 c2 : Cursor} (hcomma : ∀ p ∈ later, p.1.kind = .comma)
    (hsteps : ∀ p ∈ later, p.2 ≠ [])
    (h : (rules n).stepList (later.map Prod.snd) c1 = .ok (es, []) c2) :
    (if ((row later ++ us).headD last).kind = .comma then
        Expr.sequence (first.span.through ((es.reverse ++ []).headD first).span)
          (first :: (es.reverse ++ []).reverse)
      else first) = joined first es := by
  cases later with
  | nil =>
    obtain ⟨u, us, rfl⟩ := exists_cons_of_ne_nil hu.stopped.ne_nil
    have hk : u.kind ≠ .comma := by simpa using hend
    injection h with hvalue
    cases hvalue
    exact if_neg hk
  | cons p later =>
    obtain ⟨e, es, -, rfl, -⟩ := (Rules.stepList_cons_eq_ok (hsteps p mem_cons_self)).mp h
    refine (if_pos (hcomma p mem_cons_self)).trans ?_
    rw [joined_of_ne_nil (cons_ne_nil e es), append_nil, reverse_reverse]

include hc

/-- Steps that are expressions are read as the rest of a sequence. -/
theorem passes_of_stepList (hcomma : ∀ p ∈ later, p.1.kind = .comma)
    (hsteps : ∀ p ∈ later, p.2 ≠ [] ∧ nest [] (kinds p.2) = some [])
    (hmark : Unmarked us (row later)) (hgood : (c.onto (row later ++ us)).Closed)
    (hn : 2 * (row later ++ us).length < n) (hlimit : later.length < limit.length)
    (h : (rules n).stepList (later.map Prod.snd) c = .ok (es, []) { c with diagnostics := ds, log }) :
    ∃ last, passes limit (rules n).sequencePass acc { c with rest := row later ++ us, last := t } =
      .ok (es.reverse ++ acc) { c with rest := us, last, diagnostics := ds, log } := by
  induction later generalizing c t limit acc es with
  | nil =>
    obtain ⟨x, limit, rfl⟩ := exists_cons_of_length_pos (Nat.zero_lt_of_lt hlimit)
    obtain ⟨u, us, rfl⟩ := exists_cons_of_ne_nil hu.stopped.ne_nil
    have hk : u.kind ≠ .comma := by simpa using hend
    injection h with hvalue hcursor
    cases hvalue
    obtain rfl : c.diagnostics = ds := congrArg Cursor.diagnostics hcursor
    obtain rfl : c.log = log := congrArg Cursor.log hcursor
    refine ⟨t, ?_⟩
    unfold passes
    exact bind_of_ok (Rules.sequencePass_other (c := { c with rest := u :: us, last := t }) hk)
  | cons p later ih =>
    obtain ⟨x, limit, rfl⟩ := exists_cons_of_length_pos (Nat.zero_lt_of_lt hlimit)
    obtain ⟨hk, hcomma⟩ := forall_mem_cons.mp hcomma
    obtain ⟨⟨hne, hnest⟩, hsteps⟩ := forall_mem_cons.mp hsteps
    have hrow : row (p :: later) ++ us = p.1 :: (p.2 ++ (row later ++ us)) := by
      simp [row]
    have hmark : Unmarked us (p.2 ++ row later) :=
      @Unmarked.suffix us [p.1] _ hmark (nest_plain (by rw [hk]; rfl))
    have hgood1 : (c.onto (p.2 ++ (row later ++ us))).Closed :=
      hgood.of_suffix (show _ = [p.1] ++ _ from hrow) (by simp [hne])
    have hgood2 : (c.onto (row later ++ us)).Closed :=
      hgood1.of_suffix rfl (hu.row hcomma).stopped.ne_nil
    rw [hrow, length_cons, length_append] at hn
    obtain ⟨e, es, c1, rfl, hstep, hlater⟩ := (Rules.stepList_cons_eq_ok hne).mp h
    obtain ⟨ds1, log1, rfl⟩ := Rules.exists_of_step hstep
    obtain ⟨last, ha⟩ := (step_iff hc hne hnest (hu.row hcomma) hmark.front hgood1
      (by rw [length_append]; omega) p.1).mp hstep
    obtain ⟨last', hpasses⟩ := @ih { c with diagnostics := ds1, log := log1 } limit last es (e :: acc)
      hc hcomma hsteps (hmark.suffix hnest) hgood2 (by omega) (Nat.lt_of_succ_lt_succ hlimit) hlater
    refine ⟨last', ?_⟩
    unfold passes
    have hpass : (rules n).sequencePass acc { c with rest := row (p :: later) ++ us, last := t } =
        .ok (.again (e :: acc)) { c with
          rest := row later ++ us, last, diagnostics := ds1, log := log1 } := by
      rw [hrow, Rules.sequencePass_comma hk (by simp [hne])]
      exact bind_of_ok ha
    rw [bind_of_ok hpass, reverse_cons, append_assoc]
    exact hpasses

/-- The rest of a sequence is a row of steps that are expressions. -/
theorem exists_row (hmark : Unmarked us ts) (hnest : nest [] (kinds ts) = some stack)
    (hgood : (c.onto (ts ++ us)).Closed) (hn : 2 * (ts ++ us).length < n)
    (h : passes limit (rules n).sequencePass acc { c with rest := ts ++ us, last := t } =
      .ok more { c with rest := us, last, diagnostics := ds, log }) :
    ∃ later es, ts = row later ∧ more = es.reverse ++ acc ∧
      (∀ p ∈ later, p.1.kind = .comma ∧ p.2 ≠ [] ∧ Balanced (kinds p.2) ∧ Flat (kinds p.2)) ∧
      (rules n).stepList (later.map Prod.snd) c = .ok (es, []) { c with diagnostics := ds, log } := by
  induction limit generalizing c t ts acc with
  | nil => cases h
  | cons x limit ih =>
    unfold passes at h
    obtain ⟨pass, c1, hpass, h⟩ := bind_eq_ok h
    obtain ⟨u, vs, hvs⟩ := exists_cons_of_ne_nil
      (append_ne_nil_of_right_ne_nil ts hu.stopped.ne_nil)
    rw [hvs] at hpass
    by_cases hk : u.kind = .comma
    · obtain ⟨ts, rfl, rfl⟩ : ∃ ts', ts = u :: ts' ∧ vs = ts' ++ us := by
        cases ts with
        | nil =>
          rw [nil_append] at hvs
          rw [hvs] at hend
          exact absurd hk (by simpa using hend)
        | cons t ts =>
          cases hvs
          exact ⟨ts, rfl, rfl⟩
      rw [Rules.sequencePass_comma hk (by simp [hu.stopped.ne_nil])] at hpass
      obtain ⟨e, c2, ha, hpure⟩ := bind_eq_ok hpass
      cases hpure
      have hsound : c1.faulty = false := Keeps.sound inferInstance h hc
      have hmark : Unmarked us ts := @Unmarked.suffix us [u] _ hmark (nest_plain (by rw [hk]; rfl))
      have hgood1 : (c.onto (ts ++ us)).Closed :=
        hgood.of_suffix (show _ = [u] ++ _ from rfl) (by simp [hu.stopped.ne_nil])
      rw [kinds_cons, nest_plain (by rw [hk]; rfl)] at hnest
      rw [cons_append, length_cons] at hn
      obtain ⟨s, ts2, last1, ds1, log1, rfl, rfl, hne, hbalanced, hflat, hnest, hgood2⟩ :=
        exists_step hc hmark hnest hgood1 (by omega) ha hsound (shrinks_passes h hc)
      have hs' := hbalanced.nest []
      rw [append_assoc] at hn hgood1 ha
      rw [length_append] at hn
      obtain ⟨later, es, rfl, rfl, hrow, hlist⟩ := @ih { c with diagnostics := ds1, log := log1 } ts2
        last1 (e :: acc) hc (hmark.suffix hs') hnest hgood2 (by omega) h
      have hcomma : ∀ p ∈ later, p.1.kind = .comma := fun p hp => (hrow p hp).1
      refine ⟨(u, s) :: later, e :: es, rfl, by simp,
        forall_mem_cons.mpr ⟨⟨hk, hne, hbalanced, hflat⟩, hrow⟩, ?_⟩
      refine (Rules.stepList_cons_eq_ok hne).mpr ⟨e, es, _, rfl, ?_, hlist⟩
      exact (step_iff hc hne hs' (hu.row hcomma) hmark.front hgood1
        (by rw [length_append]; omega) u).mpr ⟨last1, ha⟩
    · rw [Rules.sequencePass_other (c := { c with rest := u :: vs, last := t }) hk] at hpass
      cases hpass
      injection h with hvalue hcursor
      injection hcursor with hrest _ hds _ hlog
      subst hvalue hds hlog
      have hnil : ts = [] := by
        rw [← hvs] at hrest
        exact append_cancel_right (hrest.trans (nil_append us).symm)
      subst hnil
      exact ⟨[], [], rfl, rfl, nofun, rfl⟩

/-- Steps that are expressions are read as a sequence. -/
theorem expression_of_stepList {s : List Token} (hs : s ≠ [] ∧ nest [] (kinds s) = some [])
    (hcomma : ∀ p ∈ later, p.1.kind = .comma)
    (hsteps : ∀ p ∈ later, p.2 ≠ [] ∧ nest [] (kinds p.2) = some [])
    (hmark : Unmarked us (s ++ row later)) (hgood : (c.onto (s ++ (row later ++ us))).Closed)
    (hn : 2 * (s ++ (row later ++ us)).length < n)
    (h : (rules n).stepList (s :: later.map Prod.snd) c =
      .ok (es, []) { c with diagnostics := ds, log }) :
    ∃ first more last, es = first :: more ∧
      (rules n).expression { c with rest := s ++ (row later ++ us), last := t } =
        .ok (joined first more) { c with rest := us, last, diagnostics := ds, log } := by
  obtain ⟨first, more, c1, rfl, hstep, hlater⟩ := (Rules.stepList_cons_eq_ok hs.1).mp h
  obtain ⟨ds1, log1, rfl⟩ := Rules.exists_of_step hstep
  obtain ⟨last, ha⟩ := (step_iff hc hs.1 hs.2 (hu.row hcomma) hmark.front hgood hn t).mp hstep
  rw [length_append] at hn
  obtain ⟨last', hpasses⟩ := @passes_of_stepList n { c with diagnostics := ds1, log := log1 } us
    (last :: (row later ++ us)) last ds log more [] later hc hu hend hcomma hsteps
    (hmark.suffix hs.2) (hgood.of_suffix rfl (hu.row hcomma).stopped.ne_nil) (by omega)
    (by
      have hle := @length_le_row later
      rw [length_cons, length_append]
      omega) hlater
  refine ⟨first, more, last', rfl, Rules.expression_eq_ok.mpr ⟨first, _, _, ha, hpasses, ?_⟩⟩
  exact (joined_of_stepList hu hend hcomma (fun p hp => (hsteps p hp).1) hlater).symm

/-- A sequence is read from steps that are expressions. -/
theorem exists_steps (hmark : Unmarked us ts) (hnest : nest [] (kinds ts) = some stack)
    (hgood : (c.onto (ts ++ us)).Closed) (hn : 2 * (ts ++ us).length < n)
    (h : (rules n).expression { c with rest := ts ++ us, last := t } =
      .ok e { c with rest := us, last, diagnostics := ds, log }) :
    ∃ s later first more, ts = s ++ row later ∧ (s ≠ [] ∧ Balanced (kinds s) ∧ Flat (kinds s)) ∧
      (∀ p ∈ later, p.1.kind = .comma ∧ p.2 ≠ [] ∧ Balanced (kinds p.2) ∧ Flat (kinds p.2)) ∧
      (rules n).stepList (s :: later.map Prod.snd) c =
        .ok (first :: more, []) { c with diagnostics := ds, log } ∧ e = joined first more := by
  obtain ⟨first, c1, more, ha, hpasses, rfl⟩ := Rules.expression_eq_ok.mp h
  have hsound : c1.faulty = false := Keeps.sound inferInstance hpasses hc
  obtain ⟨s, ts2, last1, ds1, log1, rfl, rfl, hne, hbalanced, hflat, hnest, hgood1⟩ :=
    exists_step hc hmark hnest hgood hn ha hsound (shrinks_passes hpasses hc)
  have hs' := hbalanced.nest []
  rw [append_assoc] at hn hgood ha
  obtain ⟨later, es, rfl, rfl, hrow, hlist⟩ := @exists_row n { c with diagnostics := ds1, log := log1 }
    us ts2 _ last1 last ds log [] more stack hc hu hend (hmark.suffix hs') hnest hgood1
    (by rw [length_append] at hn; omega) hpasses
  have hcomma : ∀ p ∈ later, p.1.kind = .comma := fun p hp => (hrow p hp).1
  refine ⟨s, later, first, es, rfl, ⟨hne, hbalanced, hflat⟩, hrow, ?_,
    joined_of_stepList hu hend hcomma (fun p hp => (hrow p hp).2.1) hlist⟩
  refine (Rules.stepList_cons_eq_ok hne).mpr ⟨first, es, _, rfl, ?_, hlist⟩
  exact (step_iff hc hne hs' (hu.row hcomma) hmark.front hgood hn t).mpr ⟨last1, ha⟩

end Row

section Lists

variable {tokens ts : List Token} {start n : Nat} {c : Cursor} {e : Expr} {ds : List Diagnostic}
  {log : Log} {last : Token}

/-- Kinds of tokens at which a step list ends that leaves nothing open. -/
def isListEnd : Kind → Bool
  | .semicolon | .colon | .rparen | .rbracket | .rbrace | .templateMiddle | .templateTail
  | .endMark => true
  | _ => false

theorem border_of_listEnd {u : Token} {us : List Token} (hstopped : Stopped (u :: us))
    (h : isListEnd u.kind) : Border (u :: us) where
  stopped := hstopped
  head := by
    change isBorder u.kind
    cases hk : u.kind <;> first | rfl | (rw [hk] at h; cases h)

/-- A list that is not cut off by the end of the tokens ends at a border that is no comma. -/
theorem exists_listEnd (hvalid : ∃ us stop, ts = us ++ [stop] ∧ stop.kind = .endMark ∧
    ∀ t ∈ us, t.kind ≠ .endMark) :
    ∃ u us, (split ts).rest = u :: us ∧ isListEnd u.kind ∧ Border (u :: us) := by
  obtain ⟨init, stop, hts, hstop, -⟩ := hvalid
  have hne : (split ts).rest ≠ [] := rest_ne_nil (t := stop) (by simp [hts]) hstop
  have hstopped : Stopped ts := by
    rw [hts]
    simpa [Stopped] using hstop
  obtain ⟨u, us, hrest⟩ := exists_cons_of_ne_nil hne
  have hends := (@ends_splitFrom [] {} ts (.paired .nil)).1
  have hk : (kinds ts)[(splitFrom {} ts).length]? = some u.kind := by
    have hdrop : ts.drop (splitFrom {} ts).length = u :: us := (rest_splitFrom {} ts).symm.trans hrest
    rw [kinds, getElem?_map, ← head?_drop, hdrop]
    rfl
  rw [hk] at hends
  have hend : isListEnd u.kind := by
    generalize u.kind = k at hends
    cases hends with
    | endMark | semicolon | templateMiddle | colon => rfl
    | closer hc | mismatch hc => cases k <;> first | rfl | cases hc
  refine ⟨u, us, hrest, hend, border_of_listEnd ?_ hend⟩
  rw [← hrest]
  exact hstopped.suffix (rest_suffix {} ts) hne

/-- What the tokens of a list up to some place leave open. -/
theorem nest_take {m : Nat} (hm : m ≤ (split ts).length) :
    ∃ stack, nest [] (kinds (ts.take m)) = some stack ∧
      (Opened (kinds (ts.take m)) ↔ stack ≠ []) := by
  obtain ⟨d, hd⟩ := exists_leaves (.paired .nil) hm
  exact ⟨d.openers, hd.nest, hd.opened_iff⟩

theorem unmarked_take {m : Nat} (hm : m ≤ (split ts).length + 1)
    (h : ∀ i < m, ¬Opened (kinds (ts.take i)) → isMarker (ts.drop i) = false) :
    Unmarked (ts.drop m) (ts.take m) := by
  intro t y hty hne hnest
  have hts : ts = t ++ (y ++ ts.drop m) := by
    rw [← append_assoc, ← hty, take_append_drop]
  have hlt : t.length < m := by
    have hlength := congrArg List.length hty
    rw [length_take, length_append] at hlength
    have hpos := length_pos_iff.mpr hne
    omega
  have htake : ts.take t.length = t := by
    rw [hts]
    exact take_left
  have hdrop : ts.drop t.length = y ++ ts.drop m :=
    (congrArg (List.drop t.length) hts).trans drop_left
  rw [← hdrop]
  obtain ⟨stack, hstack, hopened⟩ := @nest_take ts t.length (by omega)
  refine h t.length hlt fun hopen => hopened.mp hopen ?_
  rw [htake, hnest] at hstack
  exact (Option.some.inj hstack).symm

/-- What is open after some tokens of a list, of which none ends it. -/
def passed (d : Depth) : List Kind → Option Depth
  | [] => some d
  | k :: ks =>
    match role d k with
    | .inside d' => passed d' ks
    | .separator => passed d ks
    | .stop => none

theorem passed_append (d : Depth) (ks ls : List Kind) :
    passed d (ks ++ ls) = (passed d ks).bind fun d' => passed d' ls := by
  induction ks generalizing d with
  | nil => rfl
  | cons k ks ih =>
    simp only [cons_append, passed]
    split
    · exact ih _
    · exact ih _
    · rfl

theorem passed_of_after {d d' : Depth} {ks : List Kind} (h : Steps.after d ks = some d') :
    passed d ks = some d' := by
  induction ks generalizing d with
  | nil => exact h
  | cons k ks ih =>
    unfold Steps.after at h
    unfold passed
    split at h
    · rename_i hrole
      rw [hrole]
      exact ih h
    · cases h

/-- A list goes on over all tokens of which none ends it. -/
theorem le_length_of_passed {d : Depth} {x y : List Token} (h : (passed d (kinds x)).isSome) :
    x.length ≤ (splitFrom d (x ++ y)).length := by
  induction x generalizing d with
  | nil => exact Nat.zero_le _
  | cons t x ih =>
    rw [kinds_cons, passed] at h
    rw [cons_append, splitFrom]
    split at h
    · rename_i hrole
      rw [hrole]
      have := ih h
      simp only [Split.length, length_cons] at this ⊢
      omega
    · rename_i hrole
      rw [hrole]
      have := ih h
      simp only [Split.length, length_cons, length_nil, foldr_cons] at this ⊢
      omega
    · cases h

/-- Tokens that a step list passes over as far as no step binding stands outside of their brackets, if
the brackets match. -/
def Passed (us s : List Token) : Prop :=
  ∀ stack, nest [] (kinds s) = some stack → ∀ x y, s = x ++ y → Unmarked (y ++ us) x →
    (passed {} (kinds x)).isSome

theorem Plain.passed {us t y : List Token} (h : Plain (y ++ us) t) (h' : Passed us y) :
    Passed us (t ++ y) := fun stack hstack x z hsplit hmark => by
  rcases append_eq_append_iff.mp hsplit with ⟨w, rfl, rfl⟩ | ⟨w, rfl, rfl⟩
  · obtain ⟨hbalanced, hflat, hy⟩ := h.front (by simpa using hmark.front) hstack
    rw [kinds_append, passed_append, passed_of_after (hflat 0)]
    exact h' stack hy w z rfl (hmark.suffix (hbalanced.nest []))
  · obtain ⟨stack', ht⟩ := exists_nest_front hstack
    obtain ⟨d, hd⟩ := Option.isSome_iff_exists.mp (h.part stack' ht x w rfl (by simpa using hmark) 0)
    exact Option.isSome_of_eq_some (passed_of_after hd)

theorem Passed.comma {us s : List Token} {u : Token} (hk : u.kind = .comma) (h : Passed us s) :
    Passed us (u :: s) := fun stack hstack x y hsplit hmark => by
  rw [kinds_cons, nest_plain (by rw [hk]; rfl)] at hstack
  cases x with
  | nil => rfl
  | cons u' x =>
    obtain ⟨rfl, rfl⟩ := cons.inj hsplit
    have hmark := @Unmarked.suffix _ [u] _ hmark (nest_plain (by rw [hk]; rfl))
    rw [kinds_cons, hk]
    exact h stack hstack x y rfl hmark

/-- The tokens of the rest of a sequence. -/
theorem passed_passes {c' : Cursor} {limit : List Token} {acc more : List Expr} (hc : c.Closed)
    (hsound : c'.faulty = false) (h : passes limit (rules n).sequencePass acc c = .ok more c') :
    ∃ s, c.rest = s ++ c'.rest ∧ Passed c'.rest s := by
  induction limit generalizing c acc with
  | nil => cases h
  | cons x limit ih =>
    unfold passes at h
    obtain ⟨pass, c1, hpass, h⟩ := bind_eq_ok h
    by_cases hk : c.next.kind = .comma
    · obtain ⟨u, rest, hu, hne⟩ : ∃ u rest, c.rest = u :: rest ∧ rest ≠ [] := by
        rcases hc.next_cases with ⟨hend, -⟩ | ⟨-, rest, hrest, hne⟩
        · rw [hk] at hend
          cases hend
        · exact ⟨_, rest, hrest, hne⟩
      have hnext : c.next = u := by simp [Cursor.next, hu]
      rw [hnext] at hk
      rw [Cursor.eq_over hu] at hpass
      change (rules n).sequencePass acc { c with rest := u :: rest, last := c.last } = _ at hpass
      rw [Rules.sequencePass_comma hk hne] at hpass
      obtain ⟨e, c2, ha, hpure⟩ := bind_eq_ok hpass
      cases hpure
      have hs1 : c1.faulty = false := Keeps.sound inferInstance h hsound
      obtain ⟨hc1, s, hs, hplain⟩ := rules_glide n _ _ _
        (@Cursor.Ends.of_suffix _ c (.onto { c with last := u } rest) [u] hc hu hne)
        (Clean.of_ok ha hs1)
      obtain ⟨s', hs', hpassed⟩ := ih hc1 h
      refine ⟨u :: (s ++ s'), ?_, .comma hk ?_⟩
      · rw [hu, cons_append, append_assoc, ← hs']
        exact congrArg (u :: ·) hs
      · rw [hs'] at hplain
        exact hplain.passed hpassed
    · rw [Rules.sequencePass_other hk] at hpass
      cases hpass
      cases h
      refine ⟨[], rfl, fun _ _ x y hsplit _ => ?_⟩
      obtain ⟨rfl, -⟩ := append_eq_nil_iff.mp hsplit.symm
      rfl

/-- The tokens of an expression. -/
theorem passed_expression {c' : Cursor} (hc : c.Closed) (hsound : c'.faulty = false)
    (h : (rules n).expression c = .ok e c') : ∃ s, c.rest = s ++ c'.rest ∧ Passed c'.rest s := by
  obtain ⟨first, c1, more, ha, hpasses, -⟩ := Rules.expression_eq_ok.mp h
  have hs1 : c1.faulty = false := Keeps.sound inferInstance hpasses hsound
  obtain ⟨hc1, s, hs, hplain⟩ := rules_glide n _ _ _ hc (Clean.of_ok ha hs1)
  obtain ⟨s', hs', hpassed⟩ := passed_passes hc1 hsound hpasses
  rw [hs'] at hs hplain
  exact ⟨s ++ s', by rw [hs, append_assoc], hplain.passed hpassed⟩

/-- The steps of a list that leaves nothing open are read as a sequence, up to the end of the list. -/
theorem expression_of_split {first : Expr} {more : List Expr} (hvalid : ∃ us stop, ts = us ++ [stop] ∧
      stop.kind = .endMark ∧ ∀ t ∈ us, t.kind ≠ .endMark)
    (hn : 2 * ts.length < n) (hrest : c.rest = ts) (hsound : c.faulty = false)
    (hmarkers : ∀ m < (split ts).length, ¬Opened (kinds (ts.take m)) → isMarker (ts.drop m) = false)
    (hne : ∀ step ∈ (split ts).steps, step ≠ []) (hopen : ¬Opened (kinds (ts.take (split ts).length)))
    (h : (rules n).stepList (split ts).steps c =
      .ok (first :: more, []) { c with diagnostics := ds, log }) :
    ∃ u us last, (split ts).rest = u :: us ∧ isListEnd u.kind ∧ (rules n).expression c =
      .ok (joined first more) { c with rest := u :: us, last, diagnostics := ds, log } := by
  obtain ⟨u, us, hu, hend, hborder⟩ := exists_listEnd hvalid
  have hcomma : ((u :: us).head?.any fun u => u.kind = .comma) = false :=
    decide_eq_false fun hk => by rw [hk] at hend; cases hend
  obtain ⟨later, hlater, hcommas, hts⟩ := exists_commas {} ts
  rw [show (splitFrom {} ts).rest = u :: us from hu] at hts
  have hdrop : ts.drop (split ts).length = u :: us := (rest_splitFrom {} ts).symm.trans hu
  have htake : ts.take (split ts).length = (split ts).first ++ row later := by
    refine @append_cancel_right _ _ (u :: us) _ (Eq.trans ?_ hts)
    rw [← hdrop, take_append_drop]
  have hmark := unmarked_take (Nat.le_succ _) hmarkers
  obtain ⟨hfirst, hnest⟩ := @nest_steps [] {} ts (.paired .nil) hopen
  have hsteps (p : Token × List Token) (hp : p ∈ later) : p.2 ∈ (split ts).later :=
    hlater ▸ mem_map_of_mem hp
  rw [hdrop, htake] at hmark
  rw [append_assoc] at hts
  rw [show (split ts).steps = (split ts).first :: later.map Prod.snd from
    congrArg ((split ts).first :: ·) hlater.symm] at h
  obtain ⟨first', more', last, heq, hexpression⟩ := expression_of_stepList (t := c.last) hsound
    hborder hcomma ⟨hne _ mem_cons_self, hfirst⟩ hcommas
    (fun p hp => ⟨hne _ (mem_cons_of_mem _ (hsteps p hp)), hnest _ (hsteps p hp)⟩)
    hmark (hts ▸ hvalid) (hts ▸ hn) h
  cases heq
  refine ⟨u, us, last, hu, hend, ?_⟩
  rw [Cursor.eq_over (hrest.trans hts)]
  exact hexpression

/-- A sequence that is read up to a token with which lists end has the steps of the list as its
expressions. -/
theorem split_of_expression {taken us : List Token} {u : Token} (hts : ts = taken ++ u :: us)
    (hvalid : ∃ us stop, ts = us ++ [stop] ∧ stop.kind = .endMark ∧ ∀ t ∈ us, t.kind ≠ .endMark)
    (hn : 2 * ts.length < n) (hrest : c.rest = ts) (hsound : c.faulty = false)
    (hmark : Unmarked (u :: us) taken) (hend : isListEnd u.kind)
    (hnest : (nest [] (kinds taken)).isSome)
    (h : (rules n).expression c = .ok e { c with rest := u :: us, last, diagnostics := ds, log }) :
    ∃ first more, (split ts).rest = u :: us ∧ (∀ step ∈ (split ts).steps, step ≠ []) ∧
      ¬Opened (kinds taken) ∧ (rules n).stepList (split ts).steps c =
        .ok (first :: more, []) { c with diagnostics := ds, log } ∧ e = joined first more := by
  have hborder : Border (u :: us) := by
    refine border_of_listEnd ?_ hend
    obtain ⟨init, stop, hinit, hstop, -⟩ := hvalid
    rw [Stopped, ← getLast?_append_cons taken, ← hts, hinit]
    simpa using hstop
  have hcomma : ((u :: us).head?.any fun u => u.kind = .comma) = false :=
    decide_eq_false fun hk => by rw [hk] at hend; cases hend
  obtain ⟨stack, hstack⟩ := Option.isSome_iff_exists.mp hnest
  rw [Cursor.eq_over (hrest.trans hts)] at h
  obtain ⟨step, later, first, more, rfl, ⟨hne, hbalanced, hflat⟩, hrow, hlist, rfl⟩ :=
    exists_steps (t := c.last) hsound hborder hcomma hmark hstack (hts ▸ hvalid) (hts ▸ hn) h
  have hrole : role {} u.kind = .stop := by
    cases hk : u.kind <;> first | rfl | (rw [hk] at hend; cases hend)
  have hs : split ts = { first := step, later := later.map Prod.snd, rest := u :: us } := by
    rw [hts]
    exact split_steps hflat (fun p hp => ⟨(hrow p hp).1, (hrow p hp).2.2.2⟩) hrole
  rw [hs]
  refine ⟨first, more, rfl, forall_mem_cons.mpr ⟨hne, fun x hx => ?_⟩, ?_, hlist, rfl⟩
  · obtain ⟨p, hp, rfl⟩ := mem_map.mp hx
    exact (hrow p hp).2.1
  · rw [kinds_append]
    exact (hbalanced.append
      (balanced_row fun p hp => ⟨(hrow p hp).1, (hrow p hp).2.2.1⟩)).not_opened

/-- An expression does not go on behind the end of the list. -/
theorem length_le_of_passed {taken us : List Token} (hts : ts = taken ++ us)
    (hvalid : ∃ us stop, ts = us ++ [stop] ∧ stop.kind = .endMark ∧ ∀ t ∈ us, t.kind ≠ .endMark)
    (hmarkers : ∀ m < (split ts).length, ¬Opened (kinds (ts.take m)) → isMarker (ts.drop m) = false)
    (hnest : (nest [] (kinds taken)).isSome) (h : Passed us taken) :
    taken.length ≤ (split ts).length := by
  obtain ⟨u, rest, hu, -, hborder⟩ := exists_listEnd hvalid
  obtain ⟨stack, hstack⟩ := Option.isSome_iff_exists.mp hnest
  by_contra hlt
  -- The token that ends the list would be one of those that the expression passes over.
  have hmark : Unmarked (ts.drop ((split ts).length + 1)) (ts.take ((split ts).length + 1)) := by
    refine unmarked_take (Nat.le_refl _) fun m hm hopen => ?_
    rcases Nat.lt_or_eq_of_le (Nat.le_of_lt_succ hm) with hm | rfl
    · exact hmarkers m hm hopen
    · rw [show ts.drop (split ts).length = u :: rest from (rest_splitFrom {} ts).symm.trans hu]
      exact hborder.isMarker
  have htake : ts.take ((split ts).length + 1) = taken.take ((split ts).length + 1) := by
    exact (congrArg (List.take _) hts).trans (take_append_of_le_length (by omega))
  have hdrop : ts.drop ((split ts).length + 1) = taken.drop ((split ts).length + 1) ++ us := by
    refine @append_cancel_left _ (taken.take ((split ts).length + 1)) _ _ ?_
    rw [← htake, take_append_drop, htake, ← append_assoc, take_append_drop, hts]
  rw [htake, hdrop] at hmark
  have hpassed := h stack hstack _ _ (take_append_drop ..).symm hmark
  have hle := @le_length_of_passed {} _ (taken.drop ((split ts).length + 1) ++ us) hpassed
  rw [← append_assoc, take_append_drop, ← hts, length_take] at hle
  have : (splitFrom {} ts).length = (split ts).length := rfl
  omega

/-- A step list from `start` on, outside of whose brackets no step binding stands. Its steps are all
expressions, it leaves nothing open and it ends at `k`, exactly if an expression is read from `start`
on, without errors of the host language, a token stands behind it, at `k`, with which lists end, and
no closer before `k` fails to match. The expression is the only step or the sequence of the steps.
What is noted about step bindings inside of the brackets is the same, too. -/
theorem stepList_iff_expression
    (htokens : ∃ ts stop, tokens = ts ++ [stop] ∧ stop.kind = .endMark ∧ ∀ t ∈ ts, t.kind ≠ .endMark)
    (hstart : start < tokens.length) (hn : 2 * tokens.length + 2 ≤ n)
    (hrest : c.rest = tokens.drop start) (hsound : c.faulty = false)
    (hmarkers : ∀ i, start ≤ i → i < start + (split (tokens.drop start)).length →
      ¬Opened (listed tokens start i) → isMarker (tokens.drop i) = false) (k : Nat) :
    let s := split (tokens.drop start)
    (start + s.length = k ∧ (∀ step ∈ s.steps, step ≠ []) ∧ ¬Opened (listed tokens start k) ∧
      ∃ first more, (rules n).stepList s.steps c =
        .ok (first :: more, []) { c with diagnostics := ds, log } ∧ e = joined first more) ↔
    (tokens[k]?.any fun t => isListEnd t.kind) ∧ (nest [] (listed tokens start k)).isSome ∧
      ∃ last, (rules n).expression c =
        .ok e { c with rest := tokens.drop k, last, diagnostics := ds, log } := by
  intro s
  have hlisted (m : Nat) : listed tokens start (start + m) = kinds ((tokens.drop start).take m) := by
    rw [listed, List.drop_take, Nat.add_sub_cancel_left]
  have hdrop (m : Nat) : tokens.drop (start + m) = (tokens.drop start).drop m :=
    (List.drop_drop ..).symm
  have hvalid : ∃ us stop, tokens.drop start = us ++ [stop] ∧ stop.kind = .endMark ∧
      ∀ t ∈ us, t.kind ≠ .endMark :=
    @Cursor.Ends.of_suffix _ (Cursor.onto default tokens) (Cursor.onto default (tokens.drop start))
      (tokens.take start) htokens (List.take_append_drop ..).symm (by simpa using hstart)
  have hbound : 2 * (tokens.drop start).length < n := by
    rw [List.length_drop]
    omega
  have hmarkers (m : Nat) (hm : m < s.length) (hopen : ¬Opened (kinds ((tokens.drop start).take m))) :
      isMarker ((tokens.drop start).drop m) = false := by
    rw [← hdrop]
    exact hmarkers _ (Nat.le_add_right ..) (Nat.add_lt_add_left hm start) (by rwa [hlisted])
  constructor
  · rintro ⟨rfl, hne, hopen, first, more, hlist, rfl⟩
    obtain ⟨u, us, last, hu, hend, hexpression⟩ :=
      expression_of_split hvalid hbound hrest hsound hmarkers hne (hlisted _ ▸ hopen) hlist
    obtain ⟨stack, hstack, -⟩ := @nest_take (tokens.drop start) s.length (Nat.le_refl _)
    have hstop : tokens.drop (start + s.length) = u :: us :=
      (hdrop _).trans ((rest_splitFrom {} (tokens.drop start)).symm.trans hu)
    rw [hlisted, hstop, ← List.head?_drop, hstop]
    exact ⟨hend, Option.isSome_of_eq_some hstack, last, hexpression⟩
  · rintro ⟨hend, hnest, last, hexpression⟩
    obtain ⟨u, us, hus, hlast⟩ : ∃ u us, tokens.drop k = u :: us ∧ isListEnd u.kind := by
      rw [← List.head?_drop] at hend
      cases htokens : tokens.drop k with
      | nil => rw [htokens] at hend; cases hend
      | cons u us => rw [htokens] at hend; exact ⟨u, us, rfl, hend⟩
    obtain ⟨taken, htaken, hpassed⟩ := @passed_expression n c e
      { c with rest := tokens.drop k, last, diagnostics := ds, log }
      (by rw [Cursor.eq_over hrest]; exact hvalid) hsound hexpression
    rw [hrest] at htaken
    obtain rfl : k = start + taken.length := by
      have hlength := congrArg List.length htaken
      have hk := congrArg List.length hus
      simp only [List.length_append, List.length_drop, List.length_cons] at hlength hk
      omega
    have htake : (tokens.drop start).take taken.length = taken := htaken ▸ List.take_left
    rw [hlisted, htake] at hnest ⊢
    have hle := length_le_of_passed htaken hvalid hmarkers hnest hpassed
    have hmark := unmarked_take (Nat.le_succ_of_le hle) fun m hm => hmarkers m (hm.trans_le hle)
    rw [htake, ← hdrop] at hmark
    rw [hus] at htaken hmark hexpression
    obtain ⟨first, more, hsplit, hne, hopen, hlist, rfl⟩ := split_of_expression htaken hvalid hbound
      hrest hsound hmark hlast hnest hexpression
    refine ⟨?_, hne, hopen, first, more, hlist, rfl⟩
    have hlength := congrArg List.length ((rest_splitFrom {} (tokens.drop start)).symm.trans hsplit)
    have htotal := congrArg List.length htaken
    change ((tokens.drop start).drop s.length).length = _ at hlength
    simp only [List.length_append, List.length_drop, List.length_cons] at hlength htotal
    omega

/-- Two texts with a comma between them, before a semicolon. -/
def pair : List Token :=
  [⟨.string, "x", default⟩, ⟨.comma, ",", default⟩, ⟨.string, "y", default⟩,
    ⟨.semicolon, ";", default⟩, ⟨.endMark, "", default⟩]

theorem pair_is_sequence : (split pair).steps = [pair.take 1, (pair.drop 2).take 1] ∧
    ∃ last, (rules 12).expression { rest := pair, last := default } =
      .ok (.sequence default [.string default "x", .string default "y"])
        { rest := pair.drop 3, last } := by
  have hiff := @stepList_iff_expression pair 0 12 { rest := pair, last := default }
    (.sequence default [.string default "x", .string default "y"]) [] {}
    ⟨pair.dropLast, ⟨.endMark, "", default⟩, rfl, rfl, by simp [pair]⟩ (by decide)
    (by decide) rfl rfl (fun i _ hi _ => by
      match i, (hi : i < 3) with
      | 0, _ | 1, _ | 2, _ => rfl) 3
  have hclosed : Balanced (listed pair 0 3) := .cons rfl (.cons rfl (.cons rfl .nil))
  exact ⟨by decide, (hiff.mp ⟨rfl, by decide, hclosed.not_opened, _, _, rfl, rfl⟩).2.2⟩

/-- A step binding in parentheses, with a bracket that nothing closes. -/
def unmatched : List Token :=
  [⟨.lparen, "(", default⟩, ⟨.kwLet, "let", default⟩, ⟨.lparen, "(", default⟩,
    ⟨.rparen, ")", default⟩, ⟨.assign, "=", default⟩, ⟨.lbracket, "[", default⟩,
    ⟨.rparen, ")", default⟩, ⟨.semicolon, ";", default⟩, ⟨.endMark, "", default⟩]

/-- The bracket is part of the rejected step binding, and the expression goes on to the semicolon. The
step list ends at the parenthesis. -/
theorem unmatched_bracket_is_passed : (split unmatched).length = 6 ∧
    (∀ i < 6, isMarker (unmatched.drop i) = true → i = 1 ∧ Opened (listed unmatched 0 i)) ∧
    (unmatched[7]?.any fun t => isListEnd t.kind) ∧ nest [] (listed unmatched 0 7) = none ∧
    ∃ e last ds log, (rules 20).expression { rest := unmatched, last := default } =
      .ok e { rest := unmatched.drop 7, last, diagnostics := ds, log } := by
  refine ⟨by decide, fun i hi h => ?_, rfl, by decide, _, _, _, _, rfl⟩
  match i, hi with
  | 1, _ => exact ⟨rfl, [], .lparen, [], rfl, rfl,
      fun ⟨inner, _, _, h, _⟩ => by cases inner <;> cases h⟩
  | 0, _ | 2, _ | 3, _ | 4, _ | 5, _ => cases h

end Lists

end StepBinding.Grammar
