import StepBinding.Proofs.Grammar.Local

/-! What an expression reads does not depend on the token at which it ends. Commas, closing brackets
and the other tokens that no expression goes on with are borders. If a reading ends right before a
border then it ends in the same way before every other border. Only a step binding outside of all
brackets tells borders apart, as it goes on behind a comma. -/

namespace StepBinding.Grammar

open List Token Construct

variable {k : Kind} {ts : List Token}

/-- Kinds of tokens that no expression goes on with. -/
def isBorder : Kind → Bool
  | .endMark | .comma | .semicolon | .colon | .rparen | .rbracket | .rbrace | .templateMiddle
  | .templateTail => true
  | _ => false

/-- The last token is an end mark. -/
def Stopped (ts : List Token) : Prop := ts.getLast?.any fun t => t.kind = .endMark

/-- Tokens up to an end mark, of which the first is a border. -/
structure Border (us : List Token) : Prop where
  stopped : Stopped us
  head : us.head?.all fun u => isBorder u.kind

section Classes

variable {α β σ : Type} {p : Parse α} {f : α → Parse β} {c c' c₁ : Cursor} {a : α}
  {us vs s s1 : List Token}

theorem Stopped.ne_nil (h : Stopped ts) : ts ≠ [] := by
  rintro rfl
  cases h

theorem Stopped.suffix {ts ts' : List Token} (h : Stopped ts) (hs : ts' <:+ ts) (hne : ts' ≠ []) :
    Stopped ts' := by
  obtain ⟨w, rfl⟩ := hs
  unfold Stopped at h ⊢
  rw [getLast?_append] at h
  cases hlast : ts'.getLast? with
  | none => exact absurd (getLast?_eq_none_iff.mp hlast) hne
  | some t => rwa [hlast] at h

theorem Stopped.append {ts : List Token} (h : Stopped us) : Stopped (ts ++ us) := by
  unfold Stopped at h ⊢
  rw [getLast?_append]
  cases hlast : us.getLast? with
  | none => rw [hlast] at h; cases h
  | some t => rwa [hlast] at h

/-- Unless its first token is an end mark, more tokens follow it. -/
theorem Stopped.tail {t : Token} (h : Stopped (t :: ts)) (hk : t.kind ≠ .endMark) : ts ≠ [] := by
  rintro rfl
  exact hk (by simpa [Stopped] using h)

/-- A reading that passes a token wherever it ends well. -/
class Proceeds (p : Parse α) : Prop where
  proceeds : ∀ {c : Cursor} {a : α} {c' : Cursor}, Stopped c.rest → p c = .ok a c' →
    c'.faulty = false → c'.rest.length < c.rest.length

/-- A reading of some tokens at least that ends in the same way before all borders. -/
class MeetsOn (p : Parse α) : Prop where
  meetsOn : ∀ {us vs s : List Token} {c c₁ : Cursor} {a : α}, Before us vs s → Border us →
    Border vs → s ≠ [] → p (c.onto (s ++ us)) = .ok a (c₁.onto us) → c₁.faulty = false →
      p (c.onto (s ++ vs)) = .ok a (c₁.onto vs) ∨ Abnormal (p (c.onto (s ++ vs)))

/-- A reading that ends in the same way before all borders. -/
class Meets (p : Parse α) : Prop where
  meets : ∀ {us vs s : List Token} {c c₁ : Cursor} {a : α}, Before us vs s → Border us →
    Border vs → p (c.onto (s ++ us)) = .ok a (c₁.onto us) → c₁.faulty = false →
      p (c.onto (s ++ vs)) = .ok a (c₁.onto vs) ∨ Abnormal (p (c.onto (s ++ vs)))

/-- A reading that passes a token at least and ends in the same way before all borders. -/
class Finishes (p : Parse α) : Prop extends Proceeds p, MeetsOn p

theorem Proceeds.ne_border [hp : Proceeds p] (hu : Border us) (h : p (c.onto us) = .ok a (c₁.onto us))
    (hs : c₁.faulty = false) : False :=
  Nat.lt_irrefl us.length (hp.proceeds (c := c.onto us) hu.stopped h hs)

instance (priority := low) Meets.meetsOn [hp : Meets p] : MeetsOn p where
  meetsOn hb hu hv _ h hs := hp.meets hb hu hv h hs

/-- A reading that passes a token has some to pass. -/
instance [hp : Finishes p] : Meets p where
  meets {us vs s c c₁ a} hb hu hv h hs := by
    cases s with
    | nil => exact (Proceeds.ne_border hu h hs).elim
    | cons t s => exact hp.meetsOn hb hu hv (cons_ne_nil _ _) h hs

/-- A first part that ends in the same way before the borders, if it comes to them. -/
theorem meets_bind [∀ a, Keeps (f a)] [hlp : Local p] [∀ a, Local (f a)] [hf : ∀ a, Meets (f a)]
    {b : β} (hp : ∀ {a : α} {c₂ : Cursor}, p (c.onto (s ++ us)) = .ok a (c₂.onto us) →
      c₂.faulty = false →
        p (c.onto (s ++ vs)) = .ok a (c₂.onto vs) ∨ Abnormal (p (c.onto (s ++ vs))))
    (hb : Before us vs s) (hu : Border us) (hv : Border vs)
    (h : (p >>= f) (c.onto (s ++ us)) = .ok b (c₁.onto us)) (hs : c₁.faulty = false) :
    (p >>= f) (c.onto (s ++ vs)) = .ok b (c₁.onto vs) ∨ Abnormal ((p >>= f) (c.onto (s ++ vs))) := by
  obtain ⟨a, c₂, s2, hsuffix, hp', hf'⟩ := (Clean.of_ok h hs).before
  refine bind_or_abnormal (d := c₂.onto (s2 ++ vs)) ?_
    ((hf a).meets (hb.suffix hsuffix) hu hv hf'.ok hs)
  cases s2 with
  | nil => exact hp hp'.ok hp'.sound
  | cons t s2 => exact hlp.agrees hb (cons_ne_nil _ _) hp'.ok hp'.sound

instance Meets.bind [∀ a, Keeps (f a)] [Local p] [∀ a, Local (f a)] [hp : Meets p]
    [∀ a, Meets (f a)] : Meets (p >>= f) where
  meets hb hu hv h hs := meets_bind (hp.meets hb hu hv) hb hu hv h hs

instance MeetsOn.bind [∀ a, Keeps (f a)] [Local p] [∀ a, Local (f a)] [hp : MeetsOn p]
    [∀ a, Meets (f a)] : MeetsOn (p >>= f) where
  meetsOn hb hu hv hne h hs := meets_bind (hp.meetsOn hb hu hv hne) hb hu hv h hs

theorem Proceeds.bind_left [hk : ∀ a, Keeps (f a)] [hf : ∀ a, Local (f a)] [hp : Proceeds p] :
    Proceeds (p >>= f) where
  proceeds {c b c'} hc h hs := by
    obtain ⟨a, c₁, hp', hf'⟩ := bind_eq_ok h
    exact Nat.lt_of_le_of_lt ((hf a).shrinks hf' hs).length_le
      (hp.proceeds hc hp' ((hk a).sound hf' hs))

theorem Proceeds.bind_right [hk : ∀ a, Keeps (f a)] [hp : Local p] [hf : ∀ a, Proceeds (f a)]
    [hlf : ∀ a, Local (f a)] : Proceeds (p >>= f) where
  proceeds {c b c'} hc h hs := by
    obtain ⟨a, c₁, hp', hf'⟩ := bind_eq_ok h
    have hsuffix := hp.shrinks hp' ((hk a).sound hf' hs)
    by_cases hne : c₁.rest = []
    · have hle := ((hlf a).shrinks hf' hs).length_le
      have hpos := length_pos_iff.mpr hc.ne_nil
      rw [hne] at hle
      exact Nat.lt_of_le_of_lt hle hpos
    · exact Nat.lt_of_lt_of_le ((hf a).proceeds (hc.suffix hsuffix hne) hf' hs) hsuffix.length_le

instance Finishes.bind_left [∀ a, Keeps (f a)] [Local p] [∀ a, Local (f a)] [Finishes p]
    [∀ a, Meets (f a)] : Finishes (p >>= f) where
  toProceeds := .bind_left
  toMeetsOn := inferInstance

/-- What comes before a part that passes a token does not come to the border. -/
instance Finishes.bind_right [∀ a, Keeps (f a)] [hlp : Local p] [∀ a, Local (f a)]
    [hf : ∀ a, Finishes (f a)] : Finishes (p >>= f) where
  toProceeds := .bind_right
  meetsOn {us vs s c c₁ b} hb hu hv _ h hs := by
    obtain ⟨a, c₂, s2, hsuffix, hp', hf'⟩ := (Clean.of_ok h hs).before
    have hne : s2 ≠ [] := by
      rintro rfl
      exact Proceeds.ne_border hu hf'.ok hs
    exact bind_or_abnormal (hlp.agrees hb hne hp'.ok hp'.sound)
      ((hf a).meetsOn (hb.suffix hsuffix) hu hv hne hf'.ok hs)

instance (q : Prop) [Decidable q] (p1 p2 : Parse α) [Finishes p1] [Finishes p2] :
    Finishes (if q then p1 else p2) := by
  split <;> infer_instance

instance (q : Prop) [Decidable q] (p1 p2 : Parse α) [Meets p1] [Meets p2] :
    Meets (if q then p1 else p2) := by
  split <;> infer_instance

instance (q : Prop) [Decidable q] (p1 p2 : Parse α) [MeetsOn p1] [MeetsOn p2] :
    MeetsOn (if q then p1 else p2) := by
  split <;> infer_instance

instance [hp : Aside p] : Meets p where
  meets {us vs s c c₁ a} _ _ _ h _ := by
    obtain rfl : [] = s := append_cancel_right (Aside.rest h)
    exact .inl (Aside.agrees h _)

/-- A reading that cannot end well. -/
theorem finishes_of_faulty (h : ∀ {c a c'}, p c = .ok a c' → c'.faulty) : Finishes p where
  proceeds _ hp hs := by
    rw [h hp] at hs
    cases hs
  meetsOn _ _ _ _ hp hs := by
    have hfaulty := h hp
    rw [Cursor.faulty_over, hs] at hfaulty
    cases hfaulty

instance (message : String) (span : Span) : Finishes (fail message span : Parse α) :=
  finishes_of_faulty fun h => by cases h

instance (message : String) (span : Span) : Finishes (fail message span >>= f) :=
  finishes_of_faulty fun h => by cases h

instance : MeetsOn advance where
  meetsOn {us vs s c c₁ a} hb _ _ hne h _ := by
    left
    obtain ⟨t, s, rfl⟩ := exists_cons_of_ne_nil hne
    rw [cons_append, advance_over c (by simp [hb.left])] at h
    rw [cons_append, advance_over c (by simp [hb.right])]
    injection h with hvalue hcursor
    obtain ⟨rfl, hover⟩ := @over_eq_over { c with last := t } _ _ _ [] hcursor
    rw [← hvalue, ← hover]
    rfl

/-- A look at the next token, which is none of the border. -/
instance {f : Token → Parse β} [hf : ∀ t, MeetsOn (f t)] : MeetsOn (current >>= f) where
  meetsOn {us vs s c c₁ a} hb hu hv hne h hs := by
    obtain ⟨t, s, rfl⟩ := exists_cons_of_ne_nil hne
    exact (hf t).meetsOn hb hu hv hne h hs

/-- A look at the next token for what no border is. -/
theorem meets_isAt (hk : isBorder k = false) : Meets (isAt k) where
  meets {us vs s c c₁ a} hb hu hv h hs := by
    injection h with hvalue hcursor
    obtain ⟨rfl, hover⟩ := @over_eq_over _ _ _ _ [] hcursor
    have hborder {us : List Token} (hu : Border us) : ((us.headD c.last).kind == k) = false := by
      obtain ⟨u, us, rfl⟩ := exists_cons_of_ne_nil hu.stopped.ne_nil
      have hkind : isBorder u.kind := hu.head
      refine beq_eq_false_iff_ne.mpr fun heq => ?_
      rw [show u.kind = k from heq, hk] at hkind
      cases hkind
    left
    rw [← hvalue, ← hover]
    change EStateM.Result.ok ((vs.headD c.last).kind == k) _ =
      .ok ((us.headD c.last).kind == k) _
    rw [hborder hu, hborder hv, nil_append]

instance : Meets (isAt .dot) := meets_isAt rfl
instance : Meets (isAt .lbracket) := meets_isAt rfl
instance : Meets (isAt .lparen) := meets_isAt rfl
instance : Meets (isAt .lbrace) := meets_isAt rfl

/-- A look at the next token that sees no border. -/
theorem meets_current {f : Token → Parse β} [hf : ∀ t, MeetsOn (f t)]
    (hborder : ∀ u v : Token, isBorder u.kind → isBorder v.kind →
      f u = f v ∧ Meets (f u)) : Meets (current >>= f) where
  meets {us vs s c c₁ a} hb hu hv h hs := by
    cases s with
    | cons t s => exact (hf t).meetsOn hb hu hv (cons_ne_nil _ _) h hs
    | nil =>
      obtain ⟨u, us, rfl⟩ := exists_cons_of_ne_nil hu.stopped.ne_nil
      obtain ⟨v, vs, rfl⟩ := exists_cons_of_ne_nil hv.stopped.ne_nil
      obtain ⟨heq, hmeets⟩ := hborder u v hu.head hv.head
      have hsame : (current >>= f) (c.onto (v :: vs)) = f u (c.onto (v :: vs)) := by
        rw [heq]
        rfl
      rw [nil_append, hsame]
      exact hmeets.meets hb hu hv h hs

/-- A look at the next token, before a part that passes it. -/
theorem finishes_current {f : Token → Parse β}
    (hf : ∀ {t : Token} {c : Cursor} {b : β} {c' : Cursor}, c.next = t → f t c = .ok b c' →
      MeetsOn (f t) ∧ (Stopped c.rest → c'.faulty = false → c'.rest.length < c.rest.length)) :
    Finishes (current >>= f) where
  proceeds hc h hs := (hf rfl h).2 hc hs
  meetsOn {us vs s c c₁ a} hb hu hv hne h hs := by
    obtain ⟨t, s, rfl⟩ := exists_cons_of_ne_nil hne
    have := (hf (c := c.onto (t :: s ++ us)) rfl h).1
    exact this.meetsOn hb hu hv hne h hs

theorem proceeds_advance {f : Token → Parse β} [hf : ∀ a, Local (f a)]
    (hc : Stopped c.rest) (hend : c.next.kind ≠ .endMark) {b : β}
    (h : (advance >>= f) c = .ok b c') (hs : c'.faulty = false) :
    c'.rest.length < c.rest.length := by
  obtain ⟨t, c₁, hadvance, hf'⟩ := bind_eq_ok h
  have hle := ((hf t).shrinks hf' hs).length_le
  obtain ⟨u, us, hrest⟩ := exists_cons_of_ne_nil hc.ne_nil
  have hne : us ≠ [] := (hrest ▸ hc : Stopped (u :: us)).tail (by
    rwa [show c.next = u by simp [Cursor.next, hrest]] at hend)
  rw [Cursor.eq_over hrest, advance_over _ hne] at hadvance
  cases hadvance
  rw [hrest]
  exact Nat.lt_succ_of_le hle

theorem finishes_expect (hk : k ≠ .endMark) (what : String) :
    Finishes (expect k what) where
  proceeds {c a c'} hc h hs := by
    change (if c.next.kind = k then advance else fail _ _ : Parse Token) c = _ at h
    split at h
    · rename_i hkind
      have h' : (advance >>= pure) c = .ok a c' := bind_of_ok h
      exact proceeds_advance hc (hkind ▸ hk) h' hs
    · cases h
  toMeetsOn := by
    unfold expect
    have (t : Token) : MeetsOn (if t.kind = k then advance
        else fail s!"expected {what}, found {Text.Quoted.quoted t.shown}" t.span) := by
      split <;> infer_instance
    infer_instance

instance (what : String) : Finishes (expect .rparen what) := finishes_expect (by decide) what
instance (what : String) : Finishes (expect .rbracket what) := finishes_expect (by decide) what
instance (what : String) : Finishes (expect .rbrace what) := finishes_expect (by decide) what
instance (what : String) : Finishes (expect .fatArrow what) := finishes_expect (by decide) what
instance (what : String) : Finishes (expect .colon what) := finishes_expect (by decide) what
instance (what : String) : Finishes (expect .templateTail what) := finishes_expect (by decide) what

section Passes

variable {body : σ → Parse (Pass σ β)} [∀ st, Keeps (body st)] [hl : ∀ st, Local (body st)]
  [hm : ∀ st, Meets (body st)] {limit : List Token} {st : σ} {b : β}

theorem meets_passes (limit' : List Token) (hb : Before us vs s) (hu : Border us) (hv : Border vs)
    (h : passes limit body st (c.onto (s ++ us)) = .ok b (c₁.onto us)) (hs : c₁.faulty = false) :
    passes limit' body st (c.onto (s ++ vs)) = .ok b (c₁.onto vs) ∨
      Abnormal (passes limit' body st (c.onto (s ++ vs))) := by
  have h : passes limit body st (c.onto (s ++ us)) = .ok b (c₁.onto ([] ++ us)) := h
  refine passes_over limit' hb (fun {st s s2 pass c c₂} hb _ hbody => ?_) h hs
  cases s2 with
  | nil => exact (hm st).meets hb hu hv hbody
  | cons u s2 => exact (hl st).agrees hb (cons_ne_nil _ _) hbody

instance : Meets (loop body st) where
  meets hb hu hv h hs := meets_passes _ hb hu hv h hs

omit hm in
instance [hf : ∀ st, Finishes (body st)] : Finishes (loop body st) where
  proceeds {c b c'} hc h hs := by
    change passes (c.last :: c.rest) body st c = _ at h
    unfold passes at h
    obtain ⟨pass, c₁, hbody, hrest⟩ := bind_eq_ok h
    cases pass with
    | leave b' =>
      cases hrest
      exact (hf st).proceeds hc hbody hs
    | again st' =>
      have hkeeps : Keeps (passes c.rest body st') := inferInstance
      exact Nat.lt_of_le_of_lt (shrinks_passes hrest hs).length_le
        ((hf st).proceeds hc hbody (hkeeps.sound hrest hs))
  meetsOn hb hu hv _ h hs := meets_passes _ hb hu hv h hs

end Passes

set_option synthInstance.maxSize 1000

/-- Items up to a closing token, which is the last one that is passed. -/
instance (close : Kind) (closeName : String) (trailing : Bool) (item : Parse α) [Keeps item]
    [Local item] [Finishes (expect close closeName)] :
    Finishes (commaList close closeName trailing item) := by
  unfold commaList
  infer_instance

end Classes

namespace Rules

set_option synthInstance.maxSize 1000

variable {r : Rules}

/-- No border is an operator. -/
theorem ofKind?_border (h : isBorder k) : UnaryOp.ofKind? k = none ∧
    UpdateOp.ofKind? k = none ∧ BinaryOp.ofKind? k = none ∧ AssignOp.ofKind? k = none := by
  cases k <;> first | exact ⟨rfl, rfl, rfl, rfl⟩ | cases h

instance (acc : List Token) : Meets (operatorPass acc) := by
  unfold operatorPass
  refine meets_current fun u v hu hv => ?_
  obtain ⟨hu1, hu2, -⟩ := ofKind?_border hu
  obtain ⟨hv1, hv2, -⟩ := ofKind?_border hv
  rw [hu1, hu2, hv1, hv2]
  exact ⟨rfl, inferInstanceAs (Meets (pure _))⟩

theorem expect_of_ne {k : Kind} {what : String} {c : Cursor} (h : c.next.kind ≠ k) :
    ∃ c', expect k what c = .error .misplaced c' := by
  change ∃ c', (if c.next.kind = k then advance else fail _ _ : Parse Token) c = _
  rw [if_neg h]
  exact ⟨_, rfl⟩

instance (object : Expr) : Finishes (member object) := by
  unfold member
  have : Finishes (do
      let t ← current
      if t.kind != .identifier && !t.kind.isReserved then
        let _ ← expect .identifier "a property name"
      let _ ← advance
      return .member (object.span.through t.span) object t.text : Parse Expr) := by
    refine finishes_current fun {t c b c'} ht h => ?_
    dsimp only at h ⊢
    by_cases hk : (t.kind != .identifier && !t.kind.isReserved)
    · -- A token that is no name is not read.
      rw [if_pos hk] at h
      obtain ⟨c₁, hexpect⟩ := @expect_of_ne .identifier "a property name" c (by
        rintro heq
        rw [← ht, heq] at hk
        cases hk)
      rw [bind_of_error hexpect] at h
      cases h
    · rw [if_neg hk] at h ⊢
      refine ⟨inferInstance, fun hc hs => proceeds_advance hc (fun hend => hk ?_) h hs⟩
      rw [← ht, hend]
      rfl
  dsimp only at this ⊢
  infer_instance

instance (t : Token) (operand : Expr) : Meets (applyPrefixed t operand) := by
  unfold applyPrefixed
  dsimp only
  split <;> infer_instance

instance (ts : List Token) (e : Expr) : Meets (applyAll ts e) := by
  fun_induction applyAll ts e <;> infer_instance

section Statement

variable [Keeps r.statement] [Local r.statement]

instance : Finishes r.body := by unfold body; infer_instance
instance : Finishes r.block := by unfold block; infer_instance
instance : Finishes r.functionExpr := by unfold functionExpr; infer_instance

end Statement

section Assignment

variable [Keeps r.assignment] [Local r.assignment]

instance : Finishes r.object := by unfold object; infer_instance
instance : Finishes r.array := by unfold array; infer_instance
instance : Finishes r.args := by unfold args; infer_instance
instance (object : Expr) : Finishes (r.index object) := by unfold index; infer_instance

instance (acc : List String × List Expr) : Finishes (r.templatePass acc) := by
  unfold templatePass
  have (e : Expr) : Finishes (do
      let t ← current
      if t.kind = .templateMiddle then
        let _ ← advance
        return .again (t.text :: acc.1, e :: acc.2)
      let _ ← expect .templateTail "'\x7d' closing the template substitution"
      return .leave ((t.text :: acc.1).reverse, (e :: acc.2).reverse) :
        Parse (Pass (List String × List Expr) (List String × List Expr))) :=
    finishes_current fun {t c b c'} ht h => by
      refine ⟨inferInstance, fun hc hs => ?_⟩
      split at h
      · rename_i hk
        exact proceeds_advance hc (by rw [ht, hk]; decide) h hs
      · exact (Finishes.bind_left (p := expect .templateTail _)).proceeds hc h hs
  infer_instance

instance : Finishes r.template := by unfold template; infer_instance

instance (e : Expr) : Meets (r.memberPass e) := by unfold memberPass; infer_instance
instance (e : Expr) : Meets (r.callPass e) := by unfold callPass; infer_instance

end Assignment

variable [Keeps r.assignment] [Keeps r.statement] [Local r.assignment] [Local r.statement]

instance : Finishes r.primary := by
  unfold primary
  refine finishes_current fun {t c b c'} ht h => ⟨by split <;> infer_instance, fun hc hs => ?_⟩
  generalize hk : t.kind = k at h
  cases k with
  | templateHead | lbracket | lbrace | kwFunction => exact Proceeds.proceeds hc h hs
  | number | string | templateWhole | boolean | null | kwThis | identifier | lparen =>
    exact proceeds_advance hc (by rw [ht, hk]; decide) h hs
  | _ => cases h

instance : Finishes r.new := by unfold new; infer_instance
instance : Finishes r.callMember := by unfold callMember; infer_instance

instance : Meets r.postfixed := by
  unfold postfixed
  refine @Meets.bind _ _ _ _ (fun e => .bind inferInstance fun t => ?_) inferInstance
    (fun e => @Local.bind _ _ _ _ (fun t => ?_) inferInstance fun t => ?_) inferInstance fun e =>
      @meets_current _ _ (fun t => ?_) fun u v hu hv => ?_
  iterate 4 dsimp only; split <;> infer_instance
  rw [(ofKind?_border hu).2.1, (ofKind?_border hv).2.1]
  exact ⟨rfl, inferInstanceAs (Meets (pure _))⟩

instance : Meets r.unary := by unfold unary; infer_instance

instance (acc : List (BinaryOp × Expr)) : Meets (r.chainPass acc) := by
  unfold chainPass
  refine @meets_current _ _ (fun t => ?_) fun u v hu hv => ?_
  · split <;> infer_instance
  · rw [(ofKind?_border hu).2.2.1, (ofKind?_border hv).2.2.1]
    exact ⟨rfl, inferInstanceAs (Meets (pure _))⟩

instance : Meets r.binary := by unfold binary; infer_instance

end Rules

end StepBinding.Grammar
