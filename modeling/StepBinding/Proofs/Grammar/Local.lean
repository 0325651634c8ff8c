import StepBinding.Proofs.Grammar.Constructs

/-! What is read depends on the tokens that are read. A reading that ends well before the last of some
tokens ends in the same way whatever stands behind these tokens, as long as markers and arrow
functions are told apart there. The rules that look further ahead are the one for step bindings,
which passes all that it looks at, and the header of a loop. -/

namespace StepBinding.Grammar

open List Token Construct

variable {c₁ c c' : Cursor} {t : Token} {f s left us vs : List Token} {q : Prop} {stop : Kind}

namespace Cursor

/-- The cursor with other tokens to be read. -/
def onto (c : Cursor) (ts : List Token) : Cursor := { c with rest := ts }

variable {c : Cursor} {ts us : List Token}

@[simp] theorem rest_over : (c.onto ts).rest = ts := rfl
@[simp] theorem faulty_over : (c.onto ts).faulty = c.faulty := rfl
@[simp] theorem over_over : (c.onto ts).onto us = c.onto us := rfl

theorem eq_over (h : c.rest = ts) : c = c.onto ts := by
  subst h
  rfl

end Cursor

/-- Tokens `s` before others, `us` or `vs`: at all of them both look alike. -/
structure Before (us vs s : List Token) : Prop where
  left : us ≠ []
  right : vs ≠ []
  marker : ∀ y ≠ [], y <:+ s → isMarker (y ++ us) = isMarker (y ++ vs)
  arrow : ∀ y ≠ [], y <:+ s → Rules.isArrowStart (y ++ us) = Rules.isArrowStart (y ++ vs)

theorem Before.suffix {us vs s y : List Token} (h : Before us vs s) (hy : y <:+ s) :
    Before us vs y where
  left := h.left
  right := h.right
  marker z hz hzy := h.marker z hz (hzy.trans hy)
  arrow z hz hzy := h.arrow z hz (hzy.trans hy)

section Local

variable {α β σ : Type}

/-- Reading stopped, but not at a misplaced token. -/
def Abnormal (o : EStateM.Result Stop Cursor α) : Prop := ∃ e c, o = .error e c ∧ e ≠ .misplaced

/-- A reading that, if it ends well before the last of some tokens, depends only on these. -/
class Local (p : Parse α) : Prop where
  shrinks : ∀ {c : Cursor} {a : α} {c' : Cursor}, p c = .ok a c' → c'.faulty = false →
    c'.rest <:+ c.rest
  agrees : ∀ {us vs s s₁ : List Token} {c c₁ : Cursor} {a : α}, Before us vs s → s₁ ≠ [] →
    p (c.onto (s ++ us)) = .ok a (c₁.onto (s₁ ++ us)) → c₁.faulty = false →
      p (c.onto (s ++ vs)) = .ok a (c₁.onto (s₁ ++ vs)) ∨ Abnormal (p (c.onto (s ++ vs)))

variable {p : Parse α} {f : α → Parse β} {c c' : Cursor} {a : α} {us vs s s₁ : List Token}

/-- What comes before a cursor that is not faulty was not. -/
theorem Keeps.sound (hp : Keeps p) (h : p c = .ok a c') (hs : c'.faulty = false) :
    c.faulty = false := by
  cases hf : c.faulty with
  | false => rfl
  | true =>
    rw [(hp.of_ok h).faulty hf] at hs
    cases hs

/-- Nothing is said of errors in step bindings. -/
theorem Clean.of_ok (h : p c = .ok a c') (hs : c'.faulty = false) : Clean False p c a c' :=
  ⟨h, hs, False.elim⟩

theorem Abnormal.bind (h : Abnormal (p c)) : Abnormal ((p >>= f) c) := by
  obtain ⟨e, c₁, he, hne⟩ := h
  exact ⟨e, c₁, bind_of_error he, hne⟩

/-- The whole is known, unless it stops abnormally, if its parts are. -/
theorem bind_or_abnormal {d : Cursor} {o : EStateM.Result Stop Cursor β}
    (hp : p c = .ok a d ∨ Abnormal (p c)) (hf : f a d = o ∨ Abnormal (f a d)) :
    (p >>= f) c = o ∨ Abnormal ((p >>= f) c) := by
  rcases hp with hp | habnormal
  · rwa [bind_of_ok hp]
  · exact .inr habnormal.bind

/-- Tokens that are left of `s ++ us` when `us` is left at the end are left of `s`. -/
theorem exists_left {t : List Token} (h : s₁ ++ us <:+ t) (h' : t <:+ s ++ us) :
    ∃ s₂, t = s₂ ++ us ∧ s₁ <:+ s₂ ∧ s₂ <:+ s := by
  obtain ⟨w, rfl⟩ := h
  obtain ⟨w', h'⟩ := h'
  refine ⟨w ++ s₁, by simp, ⟨w, rfl⟩, ⟨w', ?_⟩⟩
  rw [← append_assoc, ← append_assoc, append_left_inj, append_assoc] at h'
  exact h'

/-- Cursors that differ in their tokens only have the same tokens before the same others. -/
theorem over_eq_over (h : c.onto (s ++ us) = c'.onto (s₁ ++ us)) :
    s = s₁ ∧ ∀ ts, c.onto ts = c'.onto ts :=
  ⟨append_cancel_right (congrArg Cursor.rest h), fun ts => congrArg (·.onto ts) h⟩

theorem Local.bind [hk : ∀ a, Keeps (f a)] (hp : Local p) (hf : ∀ a, Local (f a)) :
    Local (p >>= f) where
  shrinks {c b c''} h hs := by
    obtain ⟨a, c', hp', hf'⟩ := bind_eq_ok h
    exact ((hf a).shrinks hf' hs).trans (hp.shrinks hp' ((hk a).sound hf' hs))
  agrees {us vs s s₁ c c₁ b} hb hne h hs := by
    obtain ⟨a, c₂, hp', hf'⟩ := bind_eq_ok h
    have hs₂ : c₂.faulty = false := (hk a).sound hf' hs
    obtain ⟨s₂, hrest, hs₁, hsuffix⟩ := exists_left ((hf a).shrinks hf' hs) (hp.shrinks hp' hs₂)
    rw [Cursor.eq_over hrest] at hp' hf'
    have hne2 : s₂ ≠ [] := fun hnil => hne (suffix_nil.mp (hnil ▸ hs₁))
    exact bind_or_abnormal (hp.agrees hb hne2 hp' hs₂)
      ((hf a).agrees (hb.suffix hsuffix) hne hf' hs)

instance (p : Parse α) (f : α → Parse β) [Local p] [∀ a, Keeps (f a)] [∀ a, Local (f a)] :
    Local (p >>= f) :=
  .bind inferInstance fun _ => inferInstance

/-- The tokens that the first part leaves, if `us` is left at the end. -/
theorem Clean.before {calm : Prop} {b : β} [hp : Local p] [∀ a, Keeps (f a)] [hf : ∀ a, Local (f a)]
    (h : Clean calm (p >>= f) (c.onto (s ++ us)) b (c₁.onto us)) :
    ∃ a c₂ s₂, s₂ <:+ s ∧ Clean calm p (c.onto (s ++ us)) a (Cursor.onto c₂ (s₂ ++ us)) ∧
      Clean calm (f a) (c₂.onto (s₂ ++ us)) b (c₁.onto us) := by
  obtain ⟨a, c₂, hp', hf'⟩ := h.bind
  obtain ⟨s₂, hrest, -, hsuffix⟩ := @exists_left _ _ [] _ ((hf a).shrinks hf'.ok hf'.sound)
    (hp.shrinks hp'.ok hp'.sound)
  rw [Cursor.eq_over hrest] at hp' hf'
  exact ⟨a, c₂, s₂, hsuffix, hp', hf'⟩

instance (q : Prop) [Decidable q] (p1 p2 : Parse α) [Local p1] [Local p2] :
    Local (if q then p1 else p2) := by
  split <;> infer_instance

/-- The same outcome with other tokens to be read. -/
def overAt (ts : List Token) : EStateM.Result Stop Cursor α → EStateM.Result Stop Cursor α
  | .ok a c => .ok a (c.onto ts)
  | .error e c => .error e (c.onto ts)

/-- A reading to which the tokens to be read do not matter. -/
class Aside (p : Parse α) : Prop where
  onto : ∀ c ts, p (c.onto ts) = overAt ts (p c)

theorem Aside.rest [hp : Aside p] (h : p c = .ok a c') : c'.rest = c.rest := by
  have hover : p c = overAt c.rest (p c) := hp.onto c c.rest
  rw [h] at hover
  injection hover with _ hcursor
  rw [hcursor]
  rfl

theorem Aside.agrees [hp : Aside p] (h : p (c.onto us) = .ok a (c'.onto us)) (vs : List Token) :
    p (c.onto vs) = .ok a (c'.onto vs) := by
  change p ((c.onto us).onto vs) = _
  rw [hp.onto, h]
  rfl

instance [hp : Aside p] : Local p where
  shrinks h _ := ⟨[], Aside.rest h⟩
  agrees {us vs s s₁ c c₁ a} _ _ h _ := by
    obtain rfl : s₁ = s := append_cancel_right (Aside.rest h)
    exact .inl (Aside.agrees h _)

instance (a : α) : Aside (pure a : Parse α) := ⟨fun _ _ => rfl⟩

instance (start : Span) : Aside (spanFrom start) := ⟨fun _ _ => rfl⟩

instance (ds : List Diagnostic) : Aside (note ds) := ⟨fun _ _ => rfl⟩

instance (g : Log → Edited) : Aside (edit g) where
  onto c ts := by
    unfold edit
    dsimp only [Cursor.onto]
    split <;> rfl

theorem Aside.bind (hp : Aside p) (hf : ∀ a, Aside (f a)) : Aside (p >>= f) where
  onto c ts := by
    cases hc : p c with
    | ok a c' =>
      have hover : p (c.onto ts) = .ok a (c'.onto ts) := by rw [hp.onto, hc]; rfl
      rw [bind_of_ok hover, bind_of_ok hc]
      exact (hf a).onto c' ts
    | error e c' =>
      have hover : p (c.onto ts) = .error e (c'.onto ts) := by rw [hp.onto, hc]; rfl
      rw [bind_of_error hover, bind_of_error hc]
      rfl

/-- A reading that only looks at the next token. -/
theorem local_of_look {g : Cursor → α} (hp : ∀ c, p c = .ok (g c) c)
    (hg : ∀ (us vs s : List Token) (c : Cursor), s ≠ [] →
      g (c.onto (s ++ us)) = g (c.onto (s ++ vs))) : Local p where
  shrinks {c a c'} h _ := by
    rw [hp] at h
    cases h
    exact suffix_refl _
  agrees {us vs s s₁ c c₁ a} _ hne h _ := by
    left
    rw [hp] at h ⊢
    injection h with hvalue hcursor
    obtain ⟨rfl, hover⟩ := over_eq_over hcursor
    rw [← hg us vs s c hne, hvalue, hover]

instance : Local current := local_of_look (fun _ => rfl) fun us vs s c hs => by
  obtain ⟨t, s, rfl⟩ := exists_cons_of_ne_nil hs
  rfl

instance (k : Kind) : Local (isAt k) := by unfold isAt; infer_instance
instance (ks : List Kind) : Local (isAtAny ks) := by unfold isAtAny; infer_instance

/-- A reading that cannot end well. -/
theorem local_of_faulty (h : ∀ {c a c'}, p c = .ok a c' → c'.faulty) : Local p where
  shrinks {c a c'} hp hs := by
    rw [h hp] at hs
    cases hs
  agrees _ _ hp hs := by
    have hfaulty := h hp
    rw [Cursor.faulty_over, hs] at hfaulty
    cases hfaulty

instance (message : String) (span : Span) : Local (report message span) :=
  local_of_faulty fun h => by cases h; rfl

instance (message : String) (span : Span) : Local (fail message span : Parse α) :=
  local_of_faulty fun h => by cases h

instance (e : Stop) : Local (throw e : Parse α) := local_of_faulty fun h => by cases h

theorem advance_over (c : Cursor) (hs : s ≠ []) :
    advance (c.onto (t :: s)) = .ok t { c with rest := s, last := t } := by
  obtain ⟨u, s, rfl⟩ := exists_cons_of_ne_nil hs
  rfl

theorem advance_suffix (h : advance c = .ok t c') : c'.rest <:+ c.rest := by
  unfold advance at h
  split at h <;> cases h
  · exact suffix_refl _
  · rename_i hrest
    exact hrest ▸ suffix_refl _
  · rename_i hrest
    exact hrest ▸ suffix_cons ..

/-- Tokens of which some are left were some. -/
theorem ne_nil_of_left (h : s₁ ++ us <:+ s ++ us) (hne : s₁ ≠ []) : s ≠ [] := by
  rintro rfl
  have hle := h.length_le
  rw [length_append, nil_append] at hle
  exact hne (eq_nil_of_length_eq_zero (by omega))

instance : Local advance where
  shrinks h _ := advance_suffix h
  agrees {us vs s s₁ c c₁ a} hb hne h _ := by
    left
    obtain ⟨t, s, rfl⟩ := exists_cons_of_ne_nil (ne_nil_of_left (advance_suffix h) hne)
    rw [cons_append, advance_over c (by simp [hb.left])] at h
    rw [cons_append, advance_over c (by simp [hb.right])]
    injection h with hvalue hcursor
    obtain ⟨rfl, hover⟩ := over_eq_over (c := { c with last := t }) hcursor
    rw [← hvalue, ← hover]
    rfl

instance (k : Kind) (what : String) : Local (expect k what) := by unfold expect; infer_instance

set_option synthInstance.maxSize 1000 in
instance : Local semicolon := by unfold semicolon; infer_instance

/-- A look at all tokens that are left, if it only tells markers and arrow functions apart. -/
theorem local_get {f : Cursor → Parse β} [∀ c, Keeps (f c)] (hf : ∀ c, Local (f c))
    (hlook : ∀ c c', isMarker c.rest = isMarker c'.rest →
      Rules.isArrowStart c.rest = Rules.isArrowStart c'.rest → f c = f c') :
    Local (get >>= f) where
  shrinks {c a c'} h hs := (hf c).shrinks (h : f c c = _) hs
  agrees {us vs s s₁ c c₁ a} hb hne h hs := by
    change f (c.onto (s ++ us)) (c.onto (s ++ us)) = _ at h
    change f (c.onto (s ++ vs)) (c.onto (s ++ vs)) = _ ∨ Abnormal (f (c.onto (s ++ vs)) _)
    have hne' : s ≠ [] := ne_nil_of_left ((hf _).shrinks h hs) hne
    rw [← hlook (c.onto (s ++ us)) (c.onto (s ++ vs)) (hb.marker s hne' (suffix_refl s))
      (hb.arrow s hne' (suffix_refl s))]
    exact (hf _).agrees hb hne h hs

/-- From where two tokens are left at the end, the reading passes some number of tokens. -/
def Pops (n : Nat) (p : Parse α) : Prop :=
  ∀ c a c', p c = .ok a c' → c'.faulty = false → 1 < c'.rest.length →
    c'.rest.length + n ≤ c.rest.length

theorem pops_advance : Pops 1 advance := fun c t c' h _ hlt => by
  unfold advance at h
  split at h <;> rename_i hrest <;> cases h
  · rw [hrest] at hlt
    exact absurd hlt (Nat.not_lt_zero 1)
  · change 1 < c.rest.length at hlt
    rw [hrest] at hlt
    exact absurd hlt (Nat.lt_irrefl 1)
  · rw [hrest]
    exact .refl

theorem pops_peek (n : Nat) : Pops 0 (peek n) := fun c t c' h _ _ => by
  cases h
  exact .refl

theorem Pops.of_local [hp : Local p] : Pops 0 p := fun _ _ _ h hs _ => (hp.shrinks h hs).length_le

theorem Pops.bind {m n : Nat} [hk : ∀ a, Keeps (f a)] (hp : Pops m p) (hf : ∀ a, Pops n (f a)) :
    Pops (m + n) (p >>= f) := fun c b c' h hs hlt => by
  obtain ⟨a, c₁, hp', hf'⟩ := bind_eq_ok h
  have hle := hf a c₁ b c' hf' hs hlt
  have hle' := hp c a c₁ hp' ((hk a).sound hf' hs) (by omega)
  omega

theorem Pops.ite {n : Nat} [Decidable q] {p1 p2 : Parse α} (h1 : Pops n p1) (h2 : Pops n p2) :
    Pops n (if q then p1 else p2) := by
  split
  · exact h1
  · exact h2

theorem pops_expect {k : Kind} {what : String} : Pops 1 (expect k what) := by
  unfold expect
  refine Pops.bind .of_local fun t => .ite pops_advance ?_
  exact fun c a c' h _ _ => by cases h

/-- A look ahead at a token that is passed later. -/
theorem local_peek {m n : Nat} {f : Token → Parse β} [∀ t, Keeps (f t)] (hn : n ≤ m)
    (hpops : ∀ t, Pops m (f t)) (hf : ∀ t, Local (f t)) : Local (peek n >>= f) where
  shrinks {c a c'} h hs := (hf _).shrinks (h : f _ c = _) hs
  agrees {us vs s s₁ c c₁ a} hb hne h hs := by
    change f (((s ++ us)[n]?).getD _) (c.onto (s ++ us)) = _ at h
    change f (((s ++ vs)[n]?).getD _) (c.onto (s ++ vs)) = _ ∨
      Abnormal (f (((s ++ vs)[n]?).getD _) _)
    have hpos := length_pos_iff.mpr hne
    have hleft := length_pos_iff.mpr hb.left
    have hlt : n < s.length := by
      have hle := hpops _ _ _ _ h hs (by
        rw [Cursor.rest_over, length_append]
        omega)
      simp only [Cursor.rest_over, length_append] at hle
      omega
    rw [getElem?_append_left hlt, getElem?_eq_getElem hlt, Option.getD_some] at h ⊢
    exact (hf _).agrees hb hne h hs

section Passes

variable {body : σ → Parse (Pass σ β)} [∀ st, Keeps (body st)] [∀ st, Local (body st)]
  {limit : List Token} {st : σ} {b : β}

theorem shrinks_passes (h : passes limit body st c = .ok b c') (hs : c'.faulty = false) :
    c'.rest <:+ c.rest := by
  induction limit generalizing st c with
  | nil => cases h
  | cons t limit ih =>
    unfold passes at h
    obtain ⟨pass, c₁, hbody, hrest⟩ := bind_eq_ok h
    cases pass with
    | leave b' =>
      cases hrest
      exact Local.shrinks hbody hs
    | again st' =>
      have hkeeps : Keeps (passes limit body st') := inferInstance
      exact (ih hrest).trans (Local.shrinks hbody (hkeeps.sound hrest hs))

/-- Passes agree if each of them does; the bound on them does not matter. -/
theorem passes_over (limit' : List Token) (hb : Before us vs s)
    (hbody : ∀ {st s s₂ pass} {c c₂ : Cursor}, Before us vs s → s₁ <:+ s₂ →
      body st (c.onto (s ++ us)) = .ok pass (c₂.onto (s₂ ++ us)) → c₂.faulty = false →
        body st (c.onto (s ++ vs)) = .ok pass (c₂.onto (s₂ ++ vs)) ∨
          Abnormal (body st (c.onto (s ++ vs))))
    (h : passes limit body st (c.onto (s ++ us)) = .ok b (c₁.onto (s₁ ++ us)))
    (hs : c₁.faulty = false) :
    passes limit' body st (c.onto (s ++ vs)) = .ok b (c₁.onto (s₁ ++ vs)) ∨
      Abnormal (passes limit' body st (c.onto (s ++ vs))) := by
  induction limit generalizing limit' st s c with
  | nil => cases h
  | cons t limit ih =>
    cases limit' with
    | nil => exact .inr ⟨.exhausted, _, rfl, by rintro ⟨⟩⟩
    | cons t' limit' =>
      unfold passes at h ⊢
      obtain ⟨pass, c₂, hpass, hrest⟩ := bind_eq_ok h
      cases pass with
      | leave b' =>
        cases hrest
        exact (hbody hb (suffix_refl _) hpass hs).imp bind_of_ok Abnormal.bind
      | again st' =>
        have hkeeps : Keeps (passes limit body st') := inferInstance
        have hs₂ : c₂.faulty = false := hkeeps.sound hrest hs
        obtain ⟨s₂, heq, hs₁, hsuffix⟩ :=
          exists_left (shrinks_passes hrest hs) (Local.shrinks hpass hs₂)
        rw [Cursor.eq_over heq] at hpass hrest
        exact bind_or_abnormal (hbody hb hs₁ hpass hs₂) (ih limit' (hb.suffix hsuffix) hrest)

instance : Local (loop body st) where
  shrinks h hs := shrinks_passes h hs
  agrees hb hne h hs := passes_over _ hb (fun hb hsuffix hbody => Local.agrees hb
    (fun hnil => hne (suffix_nil.mp (hnil ▸ hsuffix))) hbody) h hs

end Passes

-- A reading is an instance by its parts, and the longest ones have many parts.
set_option synthInstance.maxSize 1000

instance (close : Kind) (trailing : Bool) (item : Parse α) [Keeps item] [Local item]
    (acc : List α) : Local (commaPass close trailing item acc) := by
  unfold commaPass; infer_instance

instance (close : Kind) (closeName : String) (trailing : Bool) (item : Parse α) [Keeps item]
    [Local item] : Local (commaList close closeName trailing item) := by
  unfold commaList; infer_instance

end Local

namespace Rules

set_option synthInstance.maxSize 1000

variable {r : Rules}

instance : Local params := by unfold params; infer_instance

instance (object : Expr) : Local (member object) := by unfold member; dsimp only; infer_instance

instance (t : Token) (operand : Expr) : Local (applyPrefixed t operand) := by
  unfold applyPrefixed
  dsimp only
  split <;> infer_instance

instance (ts : List Token) (e : Expr) : Local (applyAll ts e) := by
  fun_induction applyAll ts e <;> infer_instance

/-- What stands around a step does not matter. -/
instance (tokens : List Token) : Aside (r.step tokens) where
  onto c ts := by
    unfold step
    cases tokens with
    | nil => rfl
    | cons t tokens =>
      dsimp only [Cursor.onto]
      split <;> rfl

instance (steps : List (List Token)) : Aside (r.stepList steps) := by
  fun_induction stepList r steps with
  | case1 => infer_instance
  | case2 later ih => exact ih
  | case3 tokens later hne ih =>
    refine .bind inferInstance fun e => ?_
    split <;> exact .bind ih fun _ => inferInstance

instance (equals : Token) (following : List Token) (split : Steps.Split) :
    Aside (r.readSteps equals following split) := by
  unfold readSteps
  dsimp only
  split
  · exact .bind inferInstance fun _ => inferInstance
  · exact .bind inferInstance fun _ => .bind inferInstance fun _ => inferInstance

instance (acc : List Token) : Local (operatorPass acc) := by unfold operatorPass; infer_instance

section Construct

instance (head : Head) (index : Nat) (steps : List Expr) (codes : List Code) [Reasons codes] :
    Local (conclude head index steps codes) := by
  unfold conclude; dsimp only; infer_instance

/-- The end of a step binding that has no steps, behind its tokens. -/
def abandoned (head : Head) (index : Nat) : Parse Outcome := do
  if head.form = .declaration then
    if ← isAt .semicolon then
      let _ ← advance
  let span ← spanFrom head.keyword.span
  edit fun log => log.rejectWith index (head.errors.map Diagnostic.code)
  return .rejected head.form span index

theorem abandon_eq (head : Head) (following : List Token) (index : Nat) :
    abandon head following index = (do
      skipTo (Steps.split following).rest
      abandoned head index) := rfl

instance (head : Head) (index : Nat) [Reasons (head.errors.map Diagnostic.code)] :
    Local (abandoned head index) := by
  unfold abandoned; dsimp only; infer_instance

/-- Moving to tokens that are left. -/
theorem skipTo_over :
    skipTo (left ++ us) (c.onto (s ++ us)) =
      .ok () (Cursor.onto { c with last := (s.take (s.length - left.length)).getLastD c.last }
        (left ++ us)) := by
  have hlength : (s ++ us).length - (left ++ us).length = s.length - left.length := by
    simp only [length_append]
    omega
  have htake : (s ++ us).take (s.length - left.length) = s.take (s.length - left.length) :=
    take_append_of_le_length (Nat.sub_le ..)
  change EStateM.Result.ok () _ = _
  dsimp only [Cursor.onto]
  rw [hlength, htake]

/-- Empty steps are reported at commas of the list. -/
theorem emptySteps_tail {split : Steps.Split} (us vs : List Token) (hne : split.isEmpty = false)
    (hle : split.taken.length ≤ f.length) :
    emptySteps split (f ++ vs) = emptySteps split (f ++ us) := by
  refine map_congr_left fun place hplace => ?_
  obtain ⟨start, hstart, hcomma⟩ := Steps.Split.comma_of_emptySteps hplace hne
  have hlt : start - 1 < f.length :=
    Nat.lt_of_lt_of_le (List.getElem?_eq_some_iff.mp hcomma).1 hle
  have hstart : ((split.bounds 0).map Prod.fst).getD place 0 = start := by
    rw [getD_eq_getElem?_getD, hstart]
    rfl
  dsimp only
  rw [hstart, getElem?_append_left hlt, getElem?_append_left hlt]

theorem readSteps_tail {equals : Token} (hne : left ≠ [])
    (hleft : (Steps.split (f ++ us)).rest = left ++ us) :
    r.readSteps equals (f ++ vs) (Steps.split (f ++ vs)) =
      r.readSteps equals (f ++ us) (Steps.split (f ++ us)) := by
  have hle : (Steps.split (f ++ us)).taken.length ≤ f.length := by
    obtain ⟨ts, hts, hkinds⟩ := Steps.exists_taken {} (f ++ us)
    have hlength := congrArg List.length hts
    rw [show (Steps.splitFrom {} (f ++ us)).rest = _ from hleft] at hlength
    simp only [length_append] at hlength
    rw [Steps.split, ← hkinds, Steps.kinds, length_map]
    omega
  rw [show Steps.split (f ++ vs) = _ from Steps.splitFrom_tail vs hne hleft]
  unfold readSteps
  cases hempty : (Steps.split (f ++ us)).isEmpty with
  | true => exact if_pos hempty
  | false =>
    rw [← emptySteps_tail us vs hempty hle]
    exact if_neg fun h => Bool.noConfusion (hempty.symm.trans h)

section Finish

variable {head : Head} {equals : Token} {following : List Token} {index : Nat} {c c' : Cursor}
  {outcome : Outcome} [Reasons (head.errors.map Diagnostic.code)]

theorem shrinks_finish (h : r.finish head equals following index c = .ok outcome c')
    (hs : c'.faulty = false) : c'.rest <:+ (Steps.split following).rest := by
  unfold finish at h
  split at h
  · unfold abandon at h
    obtain ⟨u, c₁, hskip, h⟩ := bind_eq_ok h
    cases hskip
    exact Local.shrinks h hs
  · obtain ⟨⟨steps, codes⟩, c₁, hsteps, h⟩ := bind_eq_ok h
    obtain ⟨u, c₂, hskip, h⟩ := bind_eq_ok h
    cases hskip
    have := reasons_readSteps hsteps
    exact Local.shrinks h hs

/-- The rule for step bindings once its tokens are passed: what is left of the two ways to end. -/
def Tail (head : Head) (index : Nat) (p : Parse Outcome) : Prop :=
  p = abandoned head index ∨
    head.hasSteps = true ∧ ∃ steps codes, Reasons codes ∧ p = conclude head index steps codes

theorem Tail.local {p : Parse Outcome} (h : Tail head index p) : Local p := by
  rcases h with rfl | ⟨-, steps, codes, hreasons, rfl⟩ <;> infer_instance

/-- Up to the end of its tokens, a step binding is read in the same way whatever stands behind some
token that is left. -/
theorem finish_over (hleft : (Steps.split (f ++ us)).rest = left ++ us) (hne : left ≠ [])
    (h : r.finish head equals (f ++ us) index (c.onto (s ++ us)) = .ok outcome c') :
    ∃ (p : Parse Outcome) (c₂ : Cursor), Tail head index p ∧
      r.finish head equals (f ++ us) index (c.onto (s ++ us)) = p (c₂.onto (left ++ us)) ∧
      r.finish head equals (f ++ vs) index (c.onto (s ++ vs)) = p (c₂.onto (left ++ vs)) := by
  have hsplit : Steps.split (f ++ vs) = { Steps.split (f ++ us) with rest := left ++ vs } :=
    Steps.splitFrom_tail vs hne hleft
  have hrest : (Steps.split (f ++ vs)).rest = left ++ vs := by rw [hsplit]
  unfold finish at h ⊢
  split at h
  · rename_i hsteps
    rw [if_pos hsteps, if_pos hsteps]
    refine ⟨_, { c with last := (s.take (s.length - left.length)).getLastD c.last }, .inl rfl,
      ?_, ?_⟩
    · rw [abandon_eq, hleft, bind_of_ok skipTo_over]
    · rw [abandon_eq, hrest, bind_of_ok skipTo_over]
  · rename_i hsteps
    rw [if_neg hsteps, if_neg hsteps]
    obtain ⟨⟨steps, codes⟩, c₂, hread, -⟩ := bind_eq_ok h
    have hreasons := reasons_readSteps hread
    have hread' : r.readSteps equals (f ++ us) (Steps.split (f ++ us)) (c.onto (s ++ vs)) =
        .ok (steps, codes) (c₂.onto (s ++ vs)) := by
      have hover := Aside.onto (p := r.readSteps equals (f ++ us) (Steps.split (f ++ us)))
        (c.onto (s ++ us)) (s ++ vs)
      rwa [hread] at hover
    have hc₂ : c₂ = c₂.onto (s ++ us) := Cursor.eq_over (Aside.rest hread)
    refine ⟨_, { c₂ with last := (s.take (s.length - left.length)).getLastD c₂.last },
      .inr ⟨by simpa using hsteps, steps, head.errors.map Diagnostic.code ++ codes, inferInstance,
        rfl⟩, ?_, ?_⟩
    · rw [bind_of_ok hread, hc₂]
      dsimp only
      rw [hleft, bind_of_ok skipTo_over]
      rfl
    · rw [readSteps_tail hne hleft, bind_of_ok hread']
      dsimp only
      rw [hrest, bind_of_ok skipTo_over]

end Finish

/-- Up to the end of its tokens, a step binding is read in the same way whatever stands behind some
token that is left: its head ends before the last of the tokens, so the same head is read. -/
theorem construct_over {only : Bool} {outcome : Outcome} (hus : us ≠ []) (hne : left ≠ [])
    (hleft : (Steps.split ((t :: s ++ us).drop (Head.read only t (s ++ us)).length)).rest =
      left ++ us) (h : r.construct only (c.onto (t :: s ++ us)) = .ok outcome c') :
    ∃ (p : Parse Outcome) (c₂ : Cursor), Tail (Head.read only t (s ++ us)) c.log.size p ∧
      left <:+ t :: s ∧
      r.construct only (c.onto (t :: s ++ us)) = p (c₂.onto (left ++ us)) ∧
      r.construct only (c.onto (t :: s ++ vs)) = p (c₂.onto (left ++ vs)) := by
  rw [construct_eq] at h ⊢
  rw [construct_eq]
  have hnext (ws : List Token) : (c.onto (t :: s ++ ws)).next = t := rfl
  have htail (ws : List Token) : (c.onto (t :: s ++ ws)).rest.tail = s ++ ws := rfl
  dsimp only at h ⊢
  rw [hnext, htail] at h ⊢
  rw [hnext, htail]
  have hlt := (hleft ▸ Steps.rest_suffix {} _ : left ++ us <:+ _).length_le
  simp only [length_drop, length_append, length_cons] at hlt
  have hpos := length_pos_iff.mpr hne
  generalize hhead : Head.read only t (s ++ us) = head at h hlt hleft ⊢
  have hle : head.length ≤ s.length := by omega
  rw [Head.read_tail vs hus (hhead ▸ hle), hhead]
  have hdrop (ws : List Token) :
      (t :: s ++ ws).drop head.length = (t :: s).drop head.length ++ ws :=
    drop_append_of_le_length (Nat.le_succ_of_le hle)
  have hequals (ws : List Token) :
      (t :: s ++ ws)[head.length - 1]? = (t :: s)[head.length - 1]? :=
    getElem?_append_left (by rw [length_cons]; omega)
  rw [hdrop] at hleft
  obtain ⟨left', -, hleft', hsuffix⟩ := exists_left (suffix_refl (left ++ us))
    (hleft ▸ Steps.rest_suffix {} ((t :: s).drop head.length ++ us))
  rw [Cursor.rest_over, hdrop, hequals] at h ⊢
  rw [Cursor.rest_over, hdrop, hequals]
  have : Reasons (head.errors.map Diagnostic.code) := hhead ▸ inferInstance
  obtain ⟨p, c₂, htail, hp, hp'⟩ := finish_over (c := { c with
    log := c.log.enter head.form head.span (head.binding.map Token.text)
    diagnostics := c.diagnostics ++ head.errors }) hleft hne h
  exact ⟨p, c₂, htail, (hleft'.trans hsuffix).trans (drop_suffix ..), hp, hp'⟩

instance (only : Bool) : Local (r.construct only) where
  shrinks {c a c'} h hs := by
    rw [construct_eq] at h
    exact ((shrinks_finish h hs).trans (Steps.rest_suffix ..)).trans (drop_suffix ..)
  agrees {us vs s s₁ c c₁ a} hb hne h hs := by
    have hrest := h
    rw [construct_eq] at hrest
    replace hrest := shrinks_finish hrest hs
    have hlt := (hrest.trans (Steps.rest_suffix ..)).length_le
    obtain ⟨t, s, rfl⟩ : ∃ t s', s = t :: s' := by
      cases s with
      | nil =>
        simp only [Cursor.rest_over, length_drop, length_append, nil_append] at hlt
        exact absurd (eq_nil_of_length_eq_zero (by omega)) hne
      | cons t s => exact ⟨t, s, rfl⟩
    obtain ⟨left, hleft, hs₁, -⟩ := exists_left hrest
      ((Steps.rest_suffix ..).trans (drop_suffix ..))
    have hne' : left ≠ [] := fun hnil => hne (suffix_nil.mp (hnil ▸ hs₁))
    obtain ⟨p, c₂, htail, hsuffix, hp, hp'⟩ := construct_over (t := t) hb.left hne' hleft h
    have : Reasons ((Head.read only t (s ++ us)).errors.map Diagnostic.code) := inferInstance
    have := htail.local
    rw [hp] at h
    rw [hp']
    exact Local.agrees (hb.suffix hsuffix) hne h hs

end Construct

section Statement

theorem statement?_of_ok {s : Stmt} (h : r.statement c = .ok s c') :
    r.statement? stop c = .ok (some s) c' := by
  unfold statement?
  change EStateM.tryCatch _ _ c = _
  unfold EStateM.tryCatch
  rw [bind_of_ok h]
  rfl

theorem abnormal_statement? (h : Abnormal (r.statement c)) : Abnormal (r.statement? stop c) := by
  obtain ⟨e, c', he, hne⟩ := h
  refine ⟨e, c', ?_, hne⟩
  unfold statement?
  change EStateM.tryCatch _ _ c = _
  unfold EStateM.tryCatch
  rw [bind_of_error he]
  cases e with
  | misplaced => exact absurd rfl hne
  | _ => rfl

variable [Keeps r.statement] [Local r.statement]

instance (stop : Kind) : Local (r.statement? stop) where
  shrinks h hs := by
    obtain ⟨s, rfl, hstmt⟩ := statement?_inv (Clean.of_ok h hs)
    exact Local.shrinks hstmt.ok hs
  agrees hb hne h hs := by
    obtain ⟨s, rfl, hstmt⟩ := statement?_inv (Clean.of_ok h hs)
    rcases Local.agrees hb hne hstmt.ok hs with hstmt | habnormal
    · exact .inl (statement?_of_ok hstmt)
    · exact .inr (abnormal_statement? habnormal)

instance (stop : Kind) (acc : List Stmt) : Local (r.statementPass stop acc) := by
  unfold statementPass
  have (s : Option Stmt) : Local (match s with
      | some s => return .again (s :: acc)
      | none => return .again acc : Parse (Pass (List Stmt) (List Stmt))) := by
    cases s <;> infer_instance
  have (s : Option Stmt) : Keeps (match s with
      | some s => return .again (s :: acc)
      | none => return .again acc : Parse (Pass (List Stmt) (List Stmt))) := by
    cases s <;> infer_instance
  infer_instance

instance (stop : Kind) : Local (r.statements stop) := by unfold statements; infer_instance
instance : Local r.body := by unfold body; infer_instance
instance : Local r.block := by unfold block; infer_instance

end Statement

section Assignment

variable [Keeps r.assignment] [Local r.assignment]

instance (acc : List Expr) : Local (r.sequencePass acc) := by unfold sequencePass; infer_instance
instance : Local r.expression := by unfold expression; infer_instance

instance : Local r.property := by unfold property; dsimp only; infer_instance
instance : Local r.object := by unfold object; infer_instance
instance : Local r.array := by unfold array; infer_instance
instance (acc : List String × List Expr) : Local (r.templatePass acc) := by
  unfold templatePass; infer_instance

instance : Local r.template := by
  unfold template; infer_instance

instance : Local r.args := by unfold args; infer_instance
instance (object : Expr) : Local (r.index object) := by unfold index; infer_instance
instance (e : Expr) : Local (r.memberPass e) := by unfold memberPass; infer_instance
instance (e : Expr) : Local (r.callPass e) := by unfold callPass; infer_instance

instance (keyword name : Token) : Local (r.initializer keyword name) := by
  unfold initializer; infer_instance

instance (keyword : Token) : Local (r.declarator keyword) := by unfold declarator; infer_instance

instance (keyword : Token) (acc : List Declarator) : Local (r.declaratorPass keyword acc) := by
  unfold declaratorPass; infer_instance

instance : Local r.declaration := by unfold declaration; infer_instance

instance : Local r.test := by unfold test; infer_instance
instance : Local r.returnStmt := by unfold returnStmt; infer_instance
instance (stop : Kind) : Local (r.optional stop) := by unfold optional; infer_instance

instance : Local r.constructExpr := by
  unfold constructExpr
  refine @Local.bind _ _ _ _ (fun o => ?_) inferInstance fun o => ?_ <;> split <;> infer_instance

instance : Local r.constructStmt := by
  unfold constructStmt
  refine @Local.bind _ _ _ _ (fun o => ?_) inferInstance fun o => ?_
  · split
    · split <;> infer_instance
    · infer_instance
  · split
    · split <;> infer_instance
    · infer_instance

instance : Local r.forInit := by
  unfold forInit
  have (tokens : List Token) : Local (do
      if (← current).kind.isDeclarator && !isMarker tokens then return some (← r.declaration)
      let e ← r.expression
      return some (.expr e.span e) : Parse (Option Stmt)) := inferInstance
  have hget : Local (do
      let tokens := (← get).rest
      if (← current).kind.isDeclarator && !isMarker tokens then return some (← r.declaration)
      let e ← r.expression
      return some (.expr e.span e) : Parse (Option Stmt)) :=
    local_get (fun _ => this _) fun c c' hmarker _ => by dsimp only; rw [hmarker]
  dsimp only at hget ⊢
  infer_instance

end Assignment

/-- A loop over the values of something, behind its opening parenthesis. -/
def forOf (r : Rules) (start : Span) : Parse Stmt := do
  let qualifier := (Qualifier.ofKind? (← advance).kind).getD .let_
  let name := (← advance).text
  let _ ← advance
  let iterable ← r.assignment
  let _ ← expect .rparen "')'"
  let body ← r.statement
  return .forOf (← spanFrom start) qualifier name iterable body

/-- A loop with a test, behind its opening parenthesis. -/
def forLoop (r : Rules) (start : Span) : Parse Stmt := do
  let init ← r.forInit
  let _ ← expect .semicolon "';'"
  let test ← r.optional .semicolon
  let _ ← expect .semicolon "';'"
  let update ← r.optional .rparen
  let _ ← expect .rparen "')'"
  let body ← r.statement
  return .forLoop (← spanFrom start) init test update body

/-- Either loop, told apart by what comes next. -/
def forRest (r : Rules) (start : Span) : Parse Stmt := do
  let first ← current
  let second ← peek 1
  let third ← peek 2
  if first.kind.isDeclarator && second.kind = .identifier && third.kind = .kwOf then r.forOf start
  else r.forLoop start

theorem forStmt_eq : r.forStmt = (do
    let t ← advance
    let _ ← expect .lparen "'('"
    r.forRest t.span) := rfl

/-- What follows an expression if it is the target of an assignment. -/
def assigned (r : Rules) (left : Expr) : Parse Expr := do
  match AssignOp.ofKind? (← current).kind with
  | none => return left
  | some op =>
    if !left.isTarget then fail "invalid assignment target" left.span
    let _ ← advance
    let value ← r.assignment
    return .assign (left.span.through value.span) left op value

theorem assignmentRule_eq : r.assignmentRule = (do
    let c ← get
    if isMarker c.rest then r.constructExpr
    else if isArrowStart c.rest then r.arrow
    else r.conditional >>= r.assigned) := rfl

variable [Keeps r.assignment] [Keeps r.statement] [Local r.assignment] [Local r.statement]

instance : Local r.arrow := by unfold arrow; infer_instance

instance : Local r.functionExpr := by unfold functionExpr; infer_instance

instance : Local r.primary := by
  unfold primary
  refine @Local.bind _ _ _ _ (fun t => ?_) inferInstance fun t => ?_ <;> split <;> infer_instance

instance : Local r.new := by unfold new; infer_instance
instance : Local r.callMember := by unfold callMember; infer_instance

instance : Local r.postfixed := by
  unfold postfixed
  refine @Local.bind _ _ _ _ (fun e => .bind inferInstance fun t => ?_) inferInstance fun e =>
    @Local.bind _ _ _ _ (fun t => ?_) inferInstance fun t => ?_ <;> split <;> infer_instance

instance : Local r.unary := by unfold unary; infer_instance

instance (acc : List (BinaryOp × Expr)) : Local (r.chainPass acc) := by
  unfold chainPass
  refine @Local.bind _ _ _ _ (fun t => ?_) inferInstance fun t => ?_ <;> split <;> infer_instance

instance : Local r.binary := by unfold binary; infer_instance

instance : Local r.conditional := by unfold conditional; infer_instance

instance : Local r.functionDecl := by unfold functionDecl; infer_instance
instance : Local r.ifStmt := by unfold ifStmt; infer_instance
instance : Local r.whileStmt := by unfold whileStmt; infer_instance

instance (start : Span) : Keeps (r.forOf start) := by unfold forOf; infer_instance
instance (start : Span) : Keeps (r.forLoop start) := by unfold forLoop; infer_instance
instance (start : Span) : Keeps (r.forRest start) := by unfold forRest; infer_instance

instance (start : Span) : Local (r.forOf start) := by unfold forOf; dsimp only; infer_instance
instance (start : Span) : Local (r.forLoop start) := by unfold forLoop; infer_instance

/-- Three tokens at least are passed behind the places that are looked at. -/
theorem pops_for {start : Span} [Decidable q] :
    Pops 3 (if q then r.forOf start else r.forLoop start) := by
  refine .ite ?_ ?_
  · exact .bind pops_advance fun _ => .bind pops_advance fun _ => .bind pops_advance fun _ =>
      .of_local
  · exact .bind .of_local fun _ => .bind pops_expect fun _ => .bind .of_local fun _ =>
      .bind pops_expect fun _ => .bind .of_local fun _ => .bind pops_expect fun _ => .of_local

instance (start : Span) : Local (r.forRest start) := by
  unfold forRest
  exact .bind inferInstance fun _ =>
    local_peek (by decide : 1 ≤ 3) (fun _ => .bind (pops_peek 2) fun _ => pops_for) fun _ =>
      local_peek (by decide : 2 ≤ 3) (fun _ => pops_for) fun _ => inferInstance

instance : Local r.forStmt := by
  rw [forStmt_eq]
  infer_instance

instance (left : Expr) : Keeps (r.assigned left) := by
  unfold assigned
  refine .bind inferInstance fun t => ?_
  split <;> infer_instance

instance (left : Expr) : Local (r.assigned left) := by
  unfold assigned
  refine @Local.bind _ _ _ _ (fun t => ?_) inferInstance fun t => ?_ <;> split <;> infer_instance

instance : Local r.assignmentRule := by
  rw [assignmentRule_eq]
  exact local_get (fun c => inferInstance) fun c c' hmarker harrow => by rw [hmarker, harrow]

instance : Local r.statementRule := by
  unfold statementRule
  have hmarker : Local (do
      let c ← get
      if isMarker c.rest then r.constructStmt
      else
        let s ← r.declaration
        semicolon
        return s : Parse Stmt) :=
    local_get (fun c => inferInstance) fun c c' hmarker _ => by rw [hmarker]
  refine @Local.bind _ _ _ _ (fun t => ?_) inferInstance fun t => ?_
  · split
    · infer_instance
    · split <;> infer_instance
  · split
    · exact hmarker
    · split <;> infer_instance

end Rules

/-- What all rules read depends only on the tokens that they read. -/
theorem rules_local (n : Nat) : Local (rules n).assignment ∧ Local (rules n).statement := by
  induction n with
  | zero => exact ⟨inferInstanceAs (Local (throw _)), inferInstanceAs (Local (throw _))⟩
  | succ n ih =>
    have h1 := ih.1
    have h2 := ih.2
    exact ⟨inferInstanceAs (Local (rules n).assignmentRule),
      inferInstanceAs (Local (rules n).statementRule)⟩

instance (n : Nat) : Local (rules n).assignment := (rules_local n).1
instance (n : Nat) : Local (rules n).statement := (rules_local n).2

end StepBinding.Grammar
