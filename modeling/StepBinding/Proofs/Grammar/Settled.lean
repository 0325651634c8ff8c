import StepBinding.Proofs.Grammar.Accepted
import StepBinding.Proofs.Grammar.Local

/-! Statements that end in a semicolon. If no error is met then no expression ends in a semicolon, so
the semicolon ends the statement, and the statement is read in the same way whatever follows it,
unless that is an else part. -/

namespace StepBinding.Grammar

open List hiding span
open Token Construct Steps StepBinding.Tree

variable {α β : Type} {calm q : Prop} {c c₁ c₂ c' : Cursor} {us vs s y : List Token}
  {ns : List Node} {k : Kind} {e : Expr} {t : Token} {start : Span}
  {ks : List Kind}

namespace Cursor

/-- Tokens are passed that do not end in a semicolon. -/
def Halts (c c' : Cursor) : Prop := ∃ ts, c.rest = ts ++ c'.rest ∧ Unended (kinds ts)

theorem Halts.refl : c.Halts c := ⟨[], rfl, nofun⟩

theorem Halts.trans (h : c.Halts c₁) (h' : c₁.Halts c₂) : c.Halts c₂ := by
  obtain ⟨ts, hts, hk⟩ := h
  obtain ⟨ts', hts', hk'⟩ := h'
  exact ⟨ts ++ ts', by rw [hts, hts', append_assoc], by rw [kinds_append]; exact hk.append hk'⟩

theorem Halts.moves (h : Moves Stream.Valid calm c ks ns c') (hk : Unended ks) : c.Halts c' := by
  obtain ⟨ts, hts, rfl, -⟩ := h.tokens
  exact ⟨ts, hts, hk⟩

theorem Halts.one (hm : Moves Stream.Valid calm c [k] ns c') (hk : k ≠ .semicolon) : c.Halts c' :=
  .moves hm (by simpa [Unended] using hk)

theorem Halts.ended (h : Passes Stream.Valid True c ns c') (hlast : c'.last.kind ≠ .semicolon) :
    c.Halts c' := by
  obtain ⟨ks, hm, -⟩ := h
  obtain ⟨ts, hts, rfl, htop, -⟩ := hm.tokens
  refine ⟨ts, hts, ?_⟩
  rcases eq_nil_or_concat ts with rfl | ⟨us, t, rfl⟩
  · exact nofun
  · rw [htop] at hlast
    simpa [Unended, kinds] using hlast

theorem Halts.passes (h : PassesFlat Stream.Valid True c ns c') : c.Halts c' := by
  obtain ⟨ks, hm, hflat, -⟩ := h
  exact .moves hm (hflat trivial).2.unended

end Cursor

theorem getLast?_of_suffix (h : (kinds s).getLast? = some k) (hy : y <:+ s) (hne : y ≠ []) :
    (kinds y).getLast? = some k := by
  obtain ⟨x, rfl⟩ := hy
  rw [kinds_append, getLast?_append] at h
  cases hy : (kinds y).getLast? with
  | none => exact absurd (map_eq_nil_iff.mp (getLast?_eq_none_iff.mp hy)) hne
  | some k' =>
    rw [hy] at h
    exact h

/-- Tokens `s` before others, `us` or `vs`: a semicolon stands last in `s`, and no else part
follows. -/
structure Closed (us vs s : List Token) : Prop extends Before us vs s where
  last : (kinds s).getLast? = some .semicolon
  leftElse : ∀ t ∈ us.head?, t.kind ≠ .kwElse
  rightElse : ∀ t ∈ vs.head?, t.kind ≠ .kwElse

namespace Closed

theorem ne_nil (h : Closed us vs s) : s ≠ [] := by
  rintro rfl
  cases h.last

theorem suffix (h : Closed us vs s) (hy : y <:+ s) (hne : y ≠ []) : Closed us vs y where
  toBefore := h.toBefore.suffix hy
  last := getLast?_of_suffix h.last hy hne
  leftElse := h.leftElse
  rightElse := h.rightElse

/-- What halts does not pass all of the tokens. -/
theorem ne_of_halts (h : Closed us vs s) (hc : (c.onto (s ++ us)).Halts c') : c'.rest ≠ us := by
  rintro hrest
  obtain ⟨ts, hts, hk⟩ := hc
  rw [hrest, Cursor.rest_over, append_left_inj] at hts
  rw [← hts] at hk
  exact hk h.last

end Closed

theorem good_over (h : (c.onto (s ++ us)).Good) (hy : y <:+ s) (hne : us ≠ []) :
    (c'.onto (y ++ us)).Good := by
  obtain ⟨x, rfl⟩ := hy
  rw [append_assoc] at h
  exact h.of_suffix rfl (by simp [hne])

/-- A reading that passes exactly the tokens `s`, of which the last is a semicolon, does the same if
`vs` follows. -/
def Settles (calm : Prop) (us vs s : List Token) (c : Cursor) (p : Parse α) : Prop :=
  Closed us vs s → (c.onto (s ++ us)).Good → ∀ (a : α) (c₁ : Cursor),
    Clean calm p (c.onto (s ++ us)) a (c₁.onto us) →
      p (c.onto (s ++ vs)) = .ok a (c₁.onto vs) ∨ Abnormal (p (c.onto (s ++ vs)))

namespace Settles

variable {p p1 p2 : Parse α} {f : α → Parse β}

/-- A first part that leaves some of the tokens. -/
theorem bind [Local p] [∀ a, Keeps (f a)] [∀ a, Local (f a)]
    (hp : ∀ {a c₂}, (c.onto (s ++ us)).Good → Clean calm p (c.onto (s ++ us)) a c₂ →
      (c.onto (s ++ us)).Halts c₂)
    (hf : ∀ a (c₂ : Cursor) s2, Clean calm p (c.onto (s ++ us)) a (c₂.onto (s2 ++ us)) →
      Settles calm us vs s2 c₂ (f a)) : Settles calm us vs s c (p >>= f) := fun hb hg b c₁ h => by
  obtain ⟨a, c₂, s2, hsuffix, hp', hf'⟩ := h.before
  have hne : s2 ≠ [] := fun hnil => hb.ne_of_halts (hp hg hp') (by rw [hnil]; rfl)
  exact bind_or_abnormal (Local.agrees hb.toBefore hne hp'.ok hp'.sound)
    (hf a c₂ s2 hp' (hb.suffix hsuffix hne) (good_over hg hsuffix hb.left) b c₁ hf')

/-- A first part that passes all of the tokens, or leaves some of them. -/
theorem bind_both [Local p] [∀ a, Keeps (f a)] [∀ a, Local (f a)] (hp : Settles calm us vs s c p)
    (hf : ∀ a (c₂ : Cursor) s2, Settles calm us vs s2 c₂ (f a))
    (hrest : Closed us vs s → ∀ a (c₂ : Cursor) b (c₁ : Cursor),
      Clean calm (f a) (c₂.onto us) b (c₁.onto us) → f a (c₂.onto vs) = .ok b (c₁.onto vs)) :
    Settles calm us vs s c (p >>= f) := fun hb hg b c₁ h => by
  obtain ⟨a, c₂, s2, hsuffix, hp', hf'⟩ := h.before
  by_cases hne : s2 = []
  · subst hne
    exact bind_or_abnormal (hp hb hg a c₂ hp') (.inl (hrest hb a c₂ b c₁ hf'))
  · exact bind_or_abnormal (Local.agrees hb.toBefore hne hp'.ok hp'.sound)
      (hf a c₂ s2 (hb.suffix hsuffix hne) (good_over hg hsuffix hb.left) b c₁ hf')

/-- A second part that passes no token. -/
theorem bind_aside_of [∀ a, Keeps (f a)] (hp : Settles calm us vs s c p)
    (hf : ∀ {a c₂}, p (c.onto (s ++ us)) = .ok a c₂ → Aside (f a)) :
    Settles calm us vs s c (p >>= f) := fun hb hg b c₁ h => by
  obtain ⟨a, c₂, hp', hf'⟩ := h.bind
  have := hf hp'.ok
  have hrest : c₂.rest = us := (Aside.rest hf'.ok).symm
  rw [Cursor.eq_over hrest] at hp' hf'
  have hover := Aside.onto (p := f a) (c₂.onto us) vs
  rw [hf'.ok] at hover
  exact bind_or_abnormal (hp hb hg a _ hp') (.inl hover)

theorem bind_aside [∀ a, Keeps (f a)] (hp : Settles calm us vs s c p) (hf : ∀ a, Aside (f a)) :
    Settles calm us vs s c (p >>= f) :=
  .bind_aside_of hp fun {a _} _ => hf a

/-- A first part that passes no token. -/
theorem aside_bind [∀ a, Keeps (f a)] (hp : Aside p)
    (hf : ∀ a (c₂ : Cursor), Settles calm us vs s c₂ (f a)) : Settles calm us vs s c (p >>= f) :=
  fun hb hg b c₁ h => by
    obtain ⟨a, c₂, hp', hf'⟩ := h.bind
    rw [Cursor.eq_over (Aside.rest hp'.ok)] at hf'
    have hover : p (c.onto (s ++ vs)) = .ok a (c₂.onto (s ++ vs)) :=
      (Aside.onto (c.onto (s ++ us)) (s ++ vs)).trans (congrArg (overAt (s ++ vs)) hp'.ok)
    rw [bind_of_ok hover]
    exact hf a c₂ hb (good_over hg (suffix_refl s) hb.left) b c₁ hf'

/-- A reading that never passes all of the tokens. -/
theorem of_halts (hp : ∀ {a c₂}, (c.onto (s ++ us)).Good → Clean calm p (c.onto (s ++ us)) a c₂ →
    (c.onto (s ++ us)).Halts c₂) : Settles calm us vs s c p :=
  fun hb hg _ _ h => absurd rfl (hb.ne_of_halts (hp hg h))

theorem of_aside (_ : Aside p) : Settles calm us vs s c p :=
  fun hb _ _ _ h => absurd (Aside.rest h.ok) fun hrest => hb.ne_nil (by simpa using hrest.symm)

theorem ite [Decidable q] (h1 : q → Settles calm us vs s c p1) (h2 : ¬q → Settles calm us vs s c p2) :
    Settles calm us vs s c (if q then p1 else p2) := by
  split
  · exact h1 ‹_›
  · exact h2 ‹_›

/-- A look at the next token. -/
theorem look {g : Token → Parse β} {q : Parse β} (hq : ∀ c : Cursor, q c = g c.next c)
    (h : ∀ t s', s = t :: s' → Settles calm us vs s c (g t)) : Settles calm us vs s c q :=
  fun hb hg a c₁ hc => by
    obtain ⟨t, s', rfl⟩ := exists_cons_of_ne_nil hb.ne_nil
    rw [hq]
    exact h t s' rfl hb hg a c₁ ⟨(hq _).symm.trans hc.ok, hc.sound, hc.silent⟩

theorem current {f : Token → Parse β} (h : ∀ t s', s = t :: s' → Settles calm us vs s c (f t)) :
    Settles calm us vs s c (Grammar.current >>= f) :=
  .look (g := f) (fun _ => rfl) h

theorem isAt {f : Bool → Parse β}
    (h : ∀ t s', s = t :: s' → Settles calm us vs s c (f (t.kind == k))) :
    Settles calm us vs s c (Grammar.isAt k >>= f) :=
  .look (g := fun t => f (t.kind == k)) (fun _ => rfl) h

theorem isAtAny {f : Bool → Parse β}
    (h : ∀ t s', s = t :: s' → Settles calm us vs s c (f (ks.contains t.kind))) :
    Settles calm us vs s c (Grammar.isAtAny ks >>= f) :=
  .look (g := fun t => f (ks.contains t.kind)) (fun _ => rfl) h

/-- A look ahead for a marker. -/
theorem marker (h1 : isMarker (s ++ us) → Settles calm us vs s c p1)
    (h2 : Settles calm us vs s c p2) :
    Settles calm us vs s c (MonadState.get >>= fun c => if isMarker c.rest then p1 else p2) :=
  fun hb hg a c₁ h => by
    have h := h.get
    change (if isMarker (s ++ vs) then p1 else p2) _ = _ ∨
      Abnormal ((if isMarker (s ++ vs) then p1 else p2) _)
    rw [← hb.marker s hb.ne_nil (suffix_refl s)]
    exact Settles.ite h1 (fun _ => h2) hb hg a c₁ h

/-- A word is passed. -/
theorem word {t : Token} {f : Token → Parse β} (hk : t.kind ≠ .semicolon)
    (hf : ∀ c₂ : Cursor, Settles calm us vs s c₂ (f t)) :
    Settles calm us vs (t :: s) c (advance >>= f) := fun hb hg a c₁ h => by
  have hne : s ≠ [] := by
    rintro rfl
    exact hk (Option.some.inj hb.last)
  have hus := advance_over (t := t) c (append_ne_nil_of_left_ne_nil hne us)
  have hvs := advance_over (t := t) c (append_ne_nil_of_left_ne_nil hne vs)
  rw [cons_append] at h ⊢
  rw [bind_of_ok hvs]
  refine hf { c with last := t } (hb.suffix (suffix_cons ..) hne) ?_ a c₁ ?_
  · exact good_over hg (suffix_cons ..) hb.left
  · exact ⟨by rw [← h.ok, bind_of_ok hus]; rfl, h.sound, h.silent⟩

theorem expect {k : Kind} {what : String} {f : Token → Parse β} [∀ a, Keeps (f a)]
    [∀ a, Local (f a)] (hk : k ≠ .semicolon ∧ k ≠ .endMark)
    (hf : ∀ a (c₂ : Cursor) s2, Settles calm us vs s2 c₂ (f a)) :
    Settles calm us vs s c (Grammar.expect k what >>= f) :=
  .bind (fun hg h => .one (Moves.expect hg hk.2 h).2.2 hk.1) fun a c₂ s2 _ => hf a c₂ s2

end Settles

theorem settles_advance : Settles calm us vs s c advance := fun hb _ a c₁ h => by
  obtain ⟨t, s, rfl⟩ := exists_cons_of_ne_nil hb.ne_nil
  have hok := h.ok
  rw [cons_append, advance_over c (by simp [hb.left])] at hok
  rw [cons_append, advance_over c (by simp [hb.right])]
  injection hok with hvalue hcursor
  obtain ⟨hnil, hover⟩ := @over_eq_over { c with last := t } _ _ s [] hcursor
  subst hnil hvalue
  exact .inl (congrArg (EStateM.Result.ok t) (hover vs))

theorem settles_semicolon : Settles calm us vs s c semicolon := by
  unfold semicolon
  refine .isAt fun t s' hs => .ite (fun _ => .bind_aside settles_advance fun _ => inferInstance)
    fun hk => .isAtAny fun _ _ _ => .ite (fun _ => .of_aside inferInstance) fun _ =>
      .bind_aside ?_ fun _ => inferInstance
  subst hs
  exact fun _ _ a c₁ h => absurd h.expect_inv.1 fun hkind => hk (beq_iff_eq.mpr hkind)

/-- The reading passes at least `n` tokens if any token is left behind them. -/
def Advances (calm : Prop) (n : Nat) (p : Parse α) : Prop :=
  ∀ (c : Cursor) (a : α) (c' : Cursor), c.Good → c'.rest ≠ [] → Clean calm p c a c' →
    c'.rest.length + n ≤ c.rest.length

theorem Advances.of_local {p : Parse α} [Local p] : Advances calm 0 p :=
  fun _ _ _ _ _ h => (Local.shrinks h.ok h.sound).length_le

theorem Advances.bind {m n : Nat} {p : Parse α} {f : α → Parse β} [Local p] [∀ a, Keeps (f a)]
    [∀ a, Local (f a)] (hp : Advances calm m p) (hf : ∀ a, Advances calm n (f a)) :
    Advances calm (m + n) (p >>= f) := fun c b c' hg hne h => by
  obtain ⟨a, c₁, hp', hf'⟩ := h.bind
  obtain ⟨ts, hts⟩ := Local.shrinks hp'.ok hp'.sound
  have hne1 : c₁.rest ≠ [] := fun hnil =>
    hne (suffix_nil.mp (hnil ▸ Local.shrinks hf'.ok hf'.sound))
  have hle := hf a c₁ b c' (hg.of_suffix hts.symm hne1) hne hf'
  have hle' := hp c a c₁ hg hne1 hp'
  omega

theorem advances_expect {what : String} (hk : k ≠ .endMark) :
    Advances calm 1 (expect k what) := fun _ _ _ hg _ h => by
  obtain ⟨ts, hts, hkinds, -⟩ := (Moves.expect hg hk h).2.2.tokens
  have hlength := congrArg List.length hkinds
  rw [kinds, length_map] at hlength
  rw [hts, length_append, hlength]
  exact Nat.le_of_eq (Nat.add_comm ..)

/-- The tokens that a second part passes are left by the first. -/
theorem Settles.before {n : Nat} {p : Parse α} {f : α → Parse β} [Local p] [∀ a, Keeps (f a)]
    [∀ a, Local (f a)] (hn : 0 < n) (hadvances : ∀ a, Advances calm n (f a))
    (hf : ∀ a (c₂ : Cursor) s2, Settles calm us vs s2 c₂ (f a)) :
    Settles calm us vs s c (p >>= f) := fun hb hg b c₁ h => by
  obtain ⟨a, c₂, s2, hsuffix, hp', hf'⟩ := h.before
  have hgood : (c₂.onto (s2 ++ us)).Good := good_over hg hsuffix hb.left
  have hne : s2 ≠ [] := by
    rintro rfl
    have hle := hadvances a _ _ _ hgood hb.left hf'
    simp only [Cursor.rest_over, nil_append] at hle
    omega
  exact bind_or_abnormal (Local.agrees hb.toBefore hne hp'.ok hp'.sound)
    (hf a c₂ s2 (hb.suffix hsuffix hne) hgood b c₁ hf')

namespace Rules

set_option synthInstance.maxSize 1000
set_option linter.unusedSectionVars false

variable {r : Rules} {outcome : Outcome} (hr : Sound Stream.Valid True r)

section Halts

include hr

theorem halts_assignment (hg : c.Good) (h : Clean True r.assignment c e c') : c.Halts c' := by
  obtain ⟨ks, hm, hshows, -⟩ := (hr.assignment hg h).moves
  exact .moves hm (hshows trivial).2.unended

variable [Keeps r.assignment] [Keeps r.statement] [∀ n, KeepsTo (Cursor.Spares n) r.assignment]

theorem halts_expression (hg : c.Good) (h : Clean True r.expression c e c') : c.Halts c' := by
  have he := reads_expression hr hg h
  exact .ended he.passes (he.last trivial)

theorem halts_declaration {d : Stmt} (hg : c.Good) (hk : c.next.kind.isDeclarator)
    (h : Clean True r.declaration c d c') : c.Halts c' := by
  have hplain : c.next.kind ≠ .semicolon ∧ c.next.kind ≠ .endMark := by
    cases hkind : c.next.kind <;> rw [hkind] at hk <;> cases hk <;> decide
  unfold declaration at h
  obtain ⟨c₁, hm, h⟩ := h.read hg rfl hplain.2
  obtain ⟨ds, -, hloop⟩ := h.span_inv
  obtain ⟨hitems, -, -, hlast⟩ := reads_declarators hr hm.good hloop
  exact .trans (.one hm hplain.1) (.ended hitems.passes (hlast trivial))

theorem halts_optional {stop : Kind} {e : Option Expr} (hg : c.Good)
    (h : Clean True (r.optional stop) c e c') : c.Halts c' := by
  unfold optional at h
  rcases h.branch with ⟨-, h⟩ | ⟨-, h⟩
  · obtain ⟨-, rfl⟩ := h.pure_inv
    exact .refl
  · obtain ⟨e, -, he⟩ := h.map_inv
    exact halts_expression hr hg he

theorem halts_forInit {init : Option Stmt} (hg : c.Good) (h : Clean True r.forInit c init c') :
    c.Halts c' := by
  unfold forInit at h
  rcases h.branch with ⟨-, h⟩ | ⟨-, h⟩
  · obtain ⟨-, rfl⟩ := h.pure_inv
    exact .refl
  rcases h.get.current.ite with ⟨hk, h⟩ | ⟨-, h⟩
  · obtain ⟨d, -, hd⟩ := h.map_inv
    rw [Bool.and_eq_true] at hk
    exact halts_declaration hr hg hk.1 hd
  · obtain ⟨e, -, he⟩ := h.map_inv
    exact halts_expression hr hg he

theorem halts_test (hg : c.Good) (h : Clean True r.test c e c') : c.Halts c' :=
  .passes (reads_test hr hg h)

end Halts

section Construct

omit hr in
theorem statementRule_of_marker (h : isMarker c.rest) : r.statementRule c = r.constructStmt c := by
  obtain ⟨k, p, ts, hrest, hdecl, -⟩ := exists_of_isMarker h
  have hnext : c.next = k := by simp [Cursor.next, hrest]
  unfold statementRule
  change (if c.next.kind.isDeclarator then (do
    let c ← get
    if isMarker c.rest then _ else _) else _ : Parse Stmt) c = _
  rw [if_pos (by rw [hnext]; exact hdecl)]
  change (if isMarker c.rest then r.constructStmt else _ : Parse Stmt) c = _
  rw [if_pos h]

/-- What becomes of a step binding where a statement stands. -/
def stated : Outcome → Parse Stmt
  | .accepted head span index steps =>
    match head.result with
    | some name =>
      return .steps span (qualifier head) (bindingName head) name.text steps index none
    | none => do
      semicolon
      return .expr span (.steps span (qualifier head) (bindingName head) steps index none)
  | .rejected form span index => do
    if form = .expression then
      if ← isAt .semicolon then
        let _ ← advance
    return .rejected span form index

omit hr in
theorem constructStmt_eq : r.constructStmt = r.construct false >>= stated := rfl

instance (o : Outcome) : Keeps (stated o) := by
  unfold stated
  split
  · split <;> infer_instance
  · infer_instance

instance (o : Outcome) : Local (stated o) := by
  unfold stated
  split
  · split <;> infer_instance
  · infer_instance

section Tail

variable {head : Head} {index : Nat} {p : Parse Outcome}
  [Reasons (head.errors.map Diagnostic.code)]

omit [Reasons (head.errors.map Diagnostic.code)] in
theorem outcome_of_tail (hp : Tail head index p) (h : p c = .ok outcome c') :
    (∃ span, outcome = .rejected head.form span index) ∨
      head.hasSteps ∧ ∃ span steps, outcome = .accepted head span index steps := by
  rcases hp with rfl | ⟨hsteps, steps, codes, -, rfl⟩
  · left
    have hlast {c₁ : Cursor} (h : (do
        let span ← spanFrom head.keyword.span
        edit fun log => log.rejectWith index (head.errors.map Diagnostic.code)
        return Outcome.rejected head.form span index) c₁ = .ok outcome c') :
        ∃ span, outcome = .rejected head.form span index := by
      obtain ⟨span, c₂, -, h⟩ := bind_eq_ok h
      obtain ⟨u, c₃, -, h⟩ := bind_eq_ok h
      cases h
      exact ⟨span, rfl⟩
    unfold abandoned at h
    dsimp only at h
    split at h
    · obtain ⟨b, c₁, -, h⟩ := bind_eq_ok h
      split at h
      · obtain ⟨t, c₂, -, h⟩ := bind_eq_ok h
        exact hlast h
      · exact hlast h
    · exact hlast h
  · unfold conclude at h
    obtain ⟨span, c₁, -, h⟩ := bind_eq_ok h
    dsimp only at h
    split at h
    · refine .inr ⟨hsteps, span, steps, ?_⟩
      obtain ⟨u, c₂, -, h⟩ := bind_eq_ok h
      split at h
      · obtain ⟨u, c₃, -, h⟩ := bind_eq_ok h
        cases h
        rfl
      · cases h
        rfl
    · have hlast {c₁ : Cursor} (h : (do
          edit fun log => log.rejectAll (codes.headD .grammar) (Tree.constructs steps)
          edit fun log => log.rejectWith index codes
          return Outcome.rejected head.form span index) c₁ = .ok outcome c') :
          outcome = .rejected head.form span index := by
        obtain ⟨u, c₂, -, h⟩ := bind_eq_ok h
        obtain ⟨u, c₃, -, h⟩ := bind_eq_ok h
        cases h
        rfl
      refine .inl ⟨span, ?_⟩
      split at h
      · obtain ⟨u, c₂, -, h⟩ := bind_eq_ok h
        exact hlast h
      · exact hlast h

theorem aside_edited {g : Log → Edited} {o : Outcome} : Aside (do edit g; return o) :=
  .bind inferInstance fun _ => inferInstance

/-- A declaration takes its semicolon with it. -/
theorem settles_declaration (hp : Tail head index p) (hform : head.form = .declaration) :
    Settles calm us vs s c p := by
  rcases hp with rfl | ⟨-, steps, codes, hreasons, rfl⟩
  · unfold abandoned
    dsimp only
    rw [if_pos hform]
    refine .isAt fun _ _ _ => .ite (fun _ => .bind_aside settles_advance fun _ => ?_) fun _ =>
      .of_aside ?_ <;> exact .bind inferInstance fun _ => aside_edited
  · unfold conclude
    dsimp only
    refine .aside_bind inferInstance fun span _ => .ite (fun _ => ?_) fun _ => ?_
    · rw [if_pos hform]
      exact .aside_bind inferInstance fun _ _ => .bind_aside settles_semicolon fun _ => inferInstance
    · rw [if_pos hform]
      exact .bind_aside settles_semicolon fun _ => .bind inferInstance fun _ => aside_edited

omit [Reasons (head.errors.map Diagnostic.code)] in
/-- In an expression the semicolon is left to the statement. -/
theorem aside_expression (hp : Tail head index p) (hform : head.form ≠ .declaration) : Aside p := by
  rcases hp with rfl | ⟨-, steps, codes, hreasons, rfl⟩
  · unfold abandoned
    rw [if_neg hform]
    exact .bind inferInstance fun _ => aside_edited
  · unfold conclude
    dsimp only
    refine .bind inferInstance fun span => ?_
    rw [if_neg hform, if_neg hform]
    split
    · exact aside_edited
    · exact .bind inferInstance fun _ => aside_edited

omit [Reasons (head.errors.map Diagnostic.code)] in
theorem settles_stated : Settles calm us vs s c (stated outcome) := by
  unfold stated
  split
  · split
    · exact .of_aside inferInstance
    · exact .bind_aside settles_semicolon fun _ => inferInstance
  · refine .ite (fun _ => .isAt fun _ _ _ => .ite (fun _ => ?_) fun _ => ?_) fun _ =>
      .of_aside inferInstance
    · exact .bind_aside settles_advance fun _ => inferInstance
    · exact .of_aside inferInstance

/-- In an expression the semicolon is left to the statement; in a declaration it is not. -/
theorem settles_tail (hresult : head.hasSteps → head.form = .declaration → head.result.isSome)
    (hp : Tail head index p) : Settles calm us vs s c (p >>= stated) := by
  by_cases hform : head.form = .declaration
  · refine .bind_aside_of (settles_declaration hp hform) fun {outcome c₂} h => ?_
    rcases outcome_of_tail hp h with ⟨span, rfl⟩ | ⟨hsteps, span, steps, rfl⟩
    · unfold stated
      dsimp only
      rw [if_neg (by rw [hform]; decide)]
      infer_instance
    · obtain ⟨name, hname⟩ := Option.isSome_iff_exists.mp (hresult hsteps hform)
      unfold stated
      simp only [hname]
      infer_instance
  · exact .aside_bind (aside_expression hp hform) fun _ _ => settles_stated

end Tail

/-- A step binding behind whose steps some tokens are left, the last of them a semicolon. -/
theorem constructStmt_settled {t : Token} {left : List Token} {st : Stmt}
    (hleft : (split ((t :: s ++ us).drop (Head.read false t (s ++ us)).length)).rest = left ++ us)
    (hb : Closed us vs left) (hg : (c.onto (t :: s ++ us)).Good)
    (h : Clean calm r.constructStmt (c.onto (t :: s ++ us)) st (c₁.onto us)) :
    r.constructStmt (c.onto (t :: s ++ vs)) = .ok st (c₁.onto vs) ∨
      Abnormal (r.constructStmt (c.onto (t :: s ++ vs))) := by
  rw [constructStmt_eq] at h ⊢
  obtain ⟨outcome, c₂, hout, -⟩ := h.bind
  obtain ⟨p, c₃, htail, hsuffix, hp, hp'⟩ :=
    construct_over (t := t) hb.left hb.ne_nil hleft hout.ok
  have : Reasons ((Head.read false t (s ++ us)).errors.map Diagnostic.code) := inferInstance
  have hover {q : Parse Outcome} {c₄ c₅ : Cursor} (h : r.construct false c₄ = q c₅) :
      (r.construct false >>= stated) c₄ = (q >>= stated) c₅ := by
    change EStateM.bind _ _ _ = EStateM.bind _ _ _
    unfold EStateM.bind
    rw [h]
  rw [hover hp']
  have hsettles : Settles calm us vs left c₃ (p >>= stated) := settles_tail Head.result_read htail
  refine hsettles hb ?_ st c₁ ?_
  · exact good_over hg hsuffix hb.left
  · exact ⟨by rw [← hover hp]; exact h.ok, h.sound, h.silent⟩

include hr in
/-- A step binding leaves some of the tokens behind its steps. -/
theorem settles_constructStmt [Keeps r.assignment] [∀ n, KeepsTo (Cursor.Spares n) r.assignment]
    (hmark : isMarker (s ++ us)) :
    Settles True us vs s c r.constructStmt := fun hb hg a c₁ h => by
  obtain ⟨t, s, rfl⟩ := exists_cons_of_ne_nil hb.ne_nil
  have hcall := h
  rw [constructStmt_eq] at hcall
  obtain ⟨outcome, c₂, hout, hrest⟩ := hcall.bind
  obtain ⟨ts, hunended, hts⟩ := (reads_construct hr hg hmark hout).unended trivial
  have hshrinks := hout.ok
  rw [construct_eq] at hshrinks
  obtain ⟨left, hleft, -, hsuffix⟩ := @exists_left _ _ [] _
    ((Local.shrinks hrest.ok hrest.sound).trans (shrinks_finish hshrinks hout.sound))
    ((rest_suffix ..).trans (drop_suffix ..))
  have hne : left ≠ [] := by
    rintro rfl
    rw [hleft, nil_append, Cursor.rest_over, append_left_inj] at hts
    exact hunended (hts ▸ hb.last)
  exact constructStmt_settled hleft (hb.suffix hsuffix hne) hg h

end Construct

section Settles

variable [Keeps r.assignment] [Keeps r.statement] [∀ n, KeepsTo (Cursor.Spares n) r.assignment]
  [Local r.assignment] [Local r.statement]
  (hs : ∀ (us vs s : List Token) (c : Cursor), Settles True us vs s c r.statement)

theorem aside_ended {g : Span → α} {start : Span} :
    Aside (do return g (← spanFrom start) : Parse α) :=
  .bind inferInstance fun _ => inferInstance

/-- A statement that a semicolon ends. -/
theorem settles_ended {p : Parse α} {g : α → Parse Stmt} [Local p]
    (hp : ∀ {c' : Cursor} {a c₂}, c'.Good → Clean True p c' a c₂ → c'.Halts c₂)
    (hg : ∀ a, Aside (g a)) [∀ a, Keeps (g a)] : Settles True us vs s c (do
      let a ← p
      semicolon
      g a) :=
  .bind (fun hgood h => hp hgood h) fun a _ _ _ => .bind_aside settles_semicolon fun _ => hg a

include hr hs

omit hs in
theorem settles_returnStmt (hk : t.kind = .kwReturn) :
    Settles True us vs (t :: s) c r.returnStmt := by
  refine .word (by rw [hk]; decide) fun c₁ => settles_ended (fun hg h => ?_) fun _ => aside_ended
  rcases h.isAtAny.ite with ⟨-, h⟩ | ⟨-, h⟩
  · rw [h.pure_inv.2]
    exact .refl
  · obtain ⟨e, c₃, he, h⟩ := h.bind
    rw [h.pure_inv.2]
    exact halts_expression hr hg he

theorem settles_whileStmt (hk : t.kind = .kwWhile) : Settles True us vs (t :: s) c r.whileStmt :=
  .word (by rw [hk]; decide) fun _ => .bind (halts_test hr) fun _ _ _ _ =>
    .bind_aside (hs _ _ _ _) fun _ => aside_ended

theorem settles_ifStmt (hk : t.kind = .kwIf) : Settles True us vs (t :: s) c r.ifStmt := by
  refine .word (by rw [hk]; decide) fun c₁ => .bind (halts_test hr) fun test c₂ s2 _ =>
    .bind_both (hs _ _ _ _) (fun consequent c₃ s3 => .bind_aside ?_ fun alternate => aside_ended)
      fun hb consequent c₃ b c₄ h => ?_
  · refine .isAt fun t s' heq => .ite (fun helse => ?_) fun _ => .of_aside inferInstance
    subst heq
    exact .word (by rw [beq_iff_eq.mp helse]; decide) fun c₄ =>
      .bind_aside (hs _ _ _ _) fun _ => inferInstance
  · -- Neither of the tokens that follow is an else.
    have hno {ts : List Token} (hne : ts ≠ []) (helse : ∀ t ∈ ts.head?, t.kind ≠ .kwElse) :
        isAt .kwElse (c₃.onto ts) = .ok false (c₃.onto ts) := by
      obtain ⟨t, ts, rfl⟩ := exists_cons_of_ne_nil hne
      exact congrArg (EStateM.Result.ok · _) (beq_eq_false_iff_ne.mpr (helse t rfl))
    have hok := h.ok
    rw [bind_assoc, bind_of_ok (hno hb.left hb.leftElse)] at hok
    rw [bind_assoc, bind_of_ok (hno hb.right hb.rightElse)]
    have hover := (@aside_ended _ (fun span => Stmt.ifElse span test consequent none)
      t.span).onto (c₃.onto us) vs
    exact hover.trans (congrArg (overAt vs) hok)

/-- The header and the body of a loop, whichever its header is. -/
theorem settles_for [Decidable q]
    (hq : q → ∃ t u v s', s = t :: u :: v :: s' ∧ ∀ w ∈ [t, u, v], w.kind ≠ .semicolon) :
    Settles True us vs s c (if q then r.forOf start else r.forLoop start) := by
  refine .ite (fun hyes => ?_) fun _ => ?_
  · obtain ⟨t, u, v, s, rfl, hplain⟩ := hq hyes
    refine .word (hplain t (by simp)) fun _ => .word (hplain u (by simp)) fun _ =>
      .word (hplain v (by simp)) fun _ => .bind (halts_assignment hr) fun _ _ _ _ =>
        .expect (by decide) fun _ _ _ => .bind_aside (hs _ _ _ _) fun _ => aside_ended
  · refine .bind (halts_forInit hr) fun _ _ _ _ => .before (n := 2) (by decide) (fun _ => ?_)
      fun _ _ _ => .bind (halts_optional hr) fun _ _ _ _ => .before (n := 1) (by decide)
        (fun _ => ?_) fun _ _ _ => .bind (halts_optional hr) fun _ _ _ _ =>
          .expect (by decide) fun _ _ _ => .bind_aside (hs _ _ _ _) fun _ => aside_ended
    · exact .bind .of_local fun _ => .bind (advances_expect (by decide)) fun _ =>
        .bind .of_local fun _ => .bind (advances_expect (by decide)) fun _ => .of_local
    · exact .bind .of_local fun _ => .bind (advances_expect (by decide)) fun _ => .of_local

omit hr hs in
theorem advances_forLoop : Advances True 3 (r.forLoop start) :=
  .bind .of_local fun _ => .bind (advances_expect (by decide)) fun _ => .bind .of_local fun _ =>
    .bind (advances_expect (by decide)) fun _ => .bind .of_local fun _ =>
      .bind (advances_expect (by decide)) fun _ => .of_local

theorem settles_forRest : Settles True us vs s c (r.forRest start) := by
  intro hb hg a c₁ h
  have h := h.current.peek.peek
  -- None of the tokens that are looked at is the last one.
  obtain ⟨t, u, v, s, rfl⟩ : ∃ t u v s', s = t :: u :: v :: s' := by
    rcases h.ite with ⟨hyes, -⟩ | ⟨-, h⟩
    · simp only [Bool.and_eq_true, decide_eq_true_eq] at hyes
      obtain ⟨⟨hfirst, hsecond⟩, -⟩ := hyes
      match s, hb.last, hfirst, hsecond with
      | [t], hlast, hfirst, _ =>
        change t.kind.isDeclarator = true at hfirst
        rw [show t.kind = .semicolon from Option.some.inj hlast] at hfirst
        cases hfirst
      | [t, u], hlast, _, hsecond =>
        exact absurd (hsecond.symm.trans (Option.some.inj hlast)) (by decide)
      | t :: u :: v :: s, _, _, _ => exact ⟨t, u, v, s, rfl⟩
    · have hle := advances_forLoop _ _ _ hg hb.left h
      simp only [Cursor.rest_over, length_append] at hle
      match s, hle with
      | [], hle | [_], hle | [_, _], hle =>
        simp only [length_nil, length_cons] at hle
        omega
      | t :: u :: v :: s, _ => exact ⟨t, u, v, s, rfl⟩
  refine settles_for hr hs (fun hyes => ⟨t, u, v, s, rfl, ?_⟩) hb hg a c₁ h
  simp only [Bool.and_eq_true, decide_eq_true_eq] at hyes
  obtain ⟨⟨hfirst, hsecond⟩, hthird⟩ := hyes
  refine forall_mem_cons.mpr ⟨fun hk => ?_, forall_mem_cons.mpr ⟨?_, ?_⟩⟩
  · change t.kind.isDeclarator = true at hfirst
    rw [hk] at hfirst
    cases hfirst
  · rw [show u.kind = .identifier from hsecond]
    decide
  · rw [forall_mem_singleton, show v.kind = .kwOf from hthird]
    decide

theorem settles_forStmt (hk : t.kind = .kwFor) : Settles True us vs (t :: s) c r.forStmt := by
  rw [forStmt_eq]
  exact .word (by rw [hk]; decide) fun _ => .expect (by decide) fun _ _ _ => settles_forRest hr hs

omit hs in
theorem settles_body : Settles True us vs s c r.body :=
  .of_halts fun hg h => .passes (reads_body hr hg h).1

omit hs in
theorem settles_functionDecl (hk : t.kind = .kwFunction) :
    Settles True us vs (t :: s) c r.functionDecl :=
  .word (by rw [hk]; decide) fun _ => .expect (by decide) fun _ _ _ =>
    .bind (fun hg h => .passes (reads_params hg h).1) fun _ _ _ _ =>
      .bind_aside (settles_body hr) fun _ => aside_ended

theorem settles_statementRule : Settles True us vs s c r.statementRule := by
  unfold statementRule
  refine .current fun t s' heq => .ite (fun hdecl => ?_) fun _ => ?_
  · refine .marker (settles_constructStmt hr) ?_
    refine .bind (fun hg h => halts_declaration hr hg ?_ h) fun _ _ _ _ =>
      .bind_aside settles_semicolon fun _ => inferInstance
    subst heq
    exact hdecl
  subst heq
  split
  case h_1 hk => exact settles_functionDecl hr hk
  case h_2 hk => exact settles_returnStmt hr hk
  case h_3 hk => exact settles_ifStmt hr hs hk
  case h_4 hk => exact settles_whileStmt hr hs hk
  case h_5 hk => exact settles_forStmt hr hs hk
  case h_6 hk | h_7 hk =>
    exact .word (by rw [hk]; decide) fun _ => .bind_aside settles_semicolon fun _ => inferInstance
  case h_8 hk =>
    exact .word (by rw [hk]; decide) fun _ => settles_ended (halts_expression hr) fun _ => aside_ended
  case h_9 hk =>
    refine .bind_aside (.current fun _ _ _ => .bind_aside (settles_body hr) fun _ => ?_) fun _ =>
      inferInstance
    exact aside_ended
  case h_10 hk => exact .bind_aside settles_advance fun _ => inferInstance
  case h_11 => exact settles_ended (halts_expression hr) fun _ => aside_ended

end Settles

end Rules

/-- A statement that ends in a semicolon, and meets no error, is read in the same way whatever
follows it. -/
theorem rules_settle (n : Nat) : Settles True us vs s c (rules n).statement := by
  induction n generalizing us vs s c with
  | zero => exact fun _ _ _ _ h => by cases h.ok
  | succ n ih =>
    exact Rules.settles_statementRule (rules_sound n) fun _ _ _ _ => ih

end StepBinding.Grammar
