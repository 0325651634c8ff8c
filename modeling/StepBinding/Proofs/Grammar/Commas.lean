import StepBinding.Proofs.Grammar.Border
import StepBinding.Proofs.Grammar.Rows

/-! A step list is cut where a sequence is. Tokens with matching brackets and without step bindings
outside of them are read as an expression up to one border as they are up to another. So the steps
that the commas of a step list give are the expressions of the sequence that is read from the same
tokens, and the list ends where the sequence ends. -/

namespace StepBinding.Grammar

open List hiding span
open Token Construct Steps

/-- No step binding starts among the tokens `s`, before `us`, outside of all brackets. -/
def Unmarked (us s : List Token) : Prop :=
  ∀ t y, s = t ++ y → y ≠ [] → nest [] (kinds t) = some [] → isMarker (y ++ us) = false

section Unmarked

variable {us t y : List Token}

theorem Unmarked.front (h : Unmarked us (t ++ y)) : Unmarked (y ++ us) t := fun x z hz hne hx => by
  rw [← append_assoc]
  exact h x (z ++ y) (by rw [hz, append_assoc]) (append_ne_nil_of_left_ne_nil hne _) hx

theorem Unmarked.suffix (h : Unmarked us (t ++ y)) (ht : nest [] (kinds t) = some []) :
    Unmarked us y := fun x z hz hne hx => by
  refine h (t ++ x) z (by rw [hz, append_assoc]) hne ?_
  rw [kinds_append, nest_append, ht]
  exact hx

end Unmarked

/-- Tokens whose brackets match with what is before them. If no step binding stands outside of the
brackets then a step list passes over them, and it passes over those before the first such step
binding in any case. -/
structure Plain (us s : List Token) : Prop where
  whole : Unmarked us s → ∀ stack, nest [] (kinds s) = some stack →
    Balanced (kinds s) ∧ Flat (kinds s)
  part : ∀ stack, nest [] (kinds s) = some stack → ∀ x y, s = x ++ y → Unmarked (y ++ us) x →
    ∀ q, (after ⟨[], q⟩ (kinds x)).isSome

theorem isSome_after_append {x y : List Token} {q : Nat} (hx : Flat (kinds x))
    (hy : (after ⟨[], q⟩ (kinds y)).isSome) : (after ⟨[], q⟩ (kinds (x ++ y))).isSome := by
  rw [kinds_append, after_append, hx]
  exact hy

theorem exists_nest_front {t y : List Token} {stack : List Kind}
    (h : nest [] (kinds (t ++ y)) = some stack) : ∃ stack', nest [] (kinds t) = some stack' := by
  rw [kinds_append, nest_append, Option.bind_eq_some_iff] at h
  exact h.imp fun _ => And.left

/-- Before other tokens, such tokens close the brackets they open. -/
theorem Plain.front {us t y : List Token} {stack : List Kind} (h : Plain (y ++ us) t)
    (hmark : Unmarked (y ++ us) t) (hstack : nest [] (kinds (t ++ y)) = some stack) :
    Balanced (kinds t) ∧ Flat (kinds t) ∧ nest [] (kinds y) = some stack := by
  rw [kinds_append, nest_append, Option.bind_eq_some_iff] at hstack
  obtain ⟨stack', ht, hy⟩ := hstack
  obtain ⟨hbalanced, hflat⟩ := h.whole hmark stack' ht
  obtain rfl : stack' = [] := Option.some.inj (ht.symm.trans (hbalanced.nest []))
  exact ⟨hbalanced, hflat, hy⟩

theorem Plain.append {us t y : List Token} (h : Plain (y ++ us) t) (h' : Plain us y) :
    Plain us (t ++ y) where
  whole hmark stack hstack := by
    obtain ⟨hbalanced, hflat, hy⟩ := h.front hmark.front hstack
    obtain ⟨hbalanced', hflat'⟩ := h'.whole (hmark.suffix (hbalanced.nest [])) stack hy
    rw [kinds_append]
    exact ⟨hbalanced.append hbalanced', hflat.append hflat'⟩
  part stack hstack x z hsplit hmark q := by
    rcases append_eq_append_iff.mp hsplit with ⟨w, rfl, rfl⟩ | ⟨w, rfl, rfl⟩
    · obtain ⟨hbalanced, hflat, hy⟩ := h.front (by simpa using hmark.front) hstack
      exact isSome_after_append hflat
        (h'.part stack hy w z rfl (hmark.suffix (hbalanced.nest [])) q)
    · obtain ⟨stack', ht⟩ := exists_nest_front hstack
      exact h.part stack' ht x w rfl (by simpa using hmark) q

/-- Such tokens are passed between two cursors. -/
structure Slides (c c' : Cursor) : Prop where
  good : c'.Closed
  tokens : ∃ s, c.rest = s ++ c'.rest ∧ Plain c'.rest s

namespace Slides

variable {c c₁ c₂ c₃ c' : Cursor}

theorem of_passes {ns : List Node} (h : PassesFlat (fun t => t.kind ≠ .endMark) False c ns c') :
    Slides c c' := by
  obtain ⟨ks, hm, -, hsmooth⟩ := h
  obtain ⟨s, hs, rfl, -⟩ := hm.tokens
  refine ⟨hm.good, s, hs, fun _ => hsmooth [], fun stack hstack x y hsplit _ q => ?_⟩
  have hflat := (hsmooth [] stack hstack).2 q
  rw [hsplit, kinds_append, after_append] at hflat
  obtain ⟨d, hd, -⟩ := Option.bind_eq_some_iff.mp hflat
  exact Option.isSome_of_eq_some hd

theorem refl (h : c.Closed) : Slides c c := .of_passes (.refl h)

theorem trans (h : Slides c c₁) (h' : Slides c₁ c₂) : Slides c c₂ := by
  obtain ⟨-, s, hs, hplain⟩ := h
  obtain ⟨hgood, t, ht, hplain'⟩ := h'
  rw [ht] at hs hplain
  exact ⟨hgood, s ++ t, by rw [hs, append_assoc], hplain.append hplain'⟩

/-- What is between a question mark and its colon, and behind. -/
theorem choice (hq : Moves (fun t => t.kind ≠ .endMark) False c [.question] [] c₁) (h : Slides c₁ c₂)
    (hcolon : Moves (fun t => t.kind ≠ .endMark) False c₂ [.colon] [] c₃) (h' : Slides c₃ c') :
    Slides c c' := by
  obtain ⟨us, hus, hkinds, -⟩ := hq.tokens
  obtain ⟨-, s, hs, hplain⟩ := h
  obtain ⟨vs, hvs, hkinds', -⟩ := hcolon.tokens
  obtain ⟨hgood, t, ht, hplain'⟩ := h'
  rw [ht] at hvs
  rw [hvs] at hs hplain
  have hopen : nest [] (kinds us) = some [] := by rw [hkinds]; rfl
  have hshut : nest [] (kinds vs) = some [] := by rw [hkinds']; rfl
  -- the brackets of the two parts match on their own
  have hparts {stack : List Kind} (hstack : nest [] (kinds (us ++ (s ++ (vs ++ t)))) = some stack) :
      ∃ stack', nest [] (kinds s) = some stack' ∧
        (stack' = [] → nest [] (kinds t) = some stack) := by
    rw [kinds_append, nest_append, hopen] at hstack
    change nest [] (kinds (s ++ _)) = _ at hstack
    rw [kinds_append, nest_append, Option.bind_eq_some_iff] at hstack
    obtain ⟨stack', hnest, hrest⟩ := hstack
    refine ⟨stack', hnest, ?_⟩
    rintro rfl
    rwa [kinds_append, nest_append, hshut] at hrest
  refine ⟨hgood, us ++ (s ++ (vs ++ t)), by rw [hus, hs]; simp, fun hmark stack hstack => ?_,
    fun stack hstack x z hsplit hmark q => ?_⟩
  · obtain ⟨stack', hnest, hrest⟩ := hparts hstack
    have hmark := hmark.suffix hopen
    obtain ⟨hbalanced, hflat⟩ := hplain.whole (by rw [← append_assoc]; exact hmark.front) stack' hnest
    obtain rfl : stack' = [] := Option.some.inj (hnest.symm.trans (hbalanced.nest []))
    have hmark := (hmark.suffix hnest).suffix hshut
    obtain ⟨hbalanced', hflat'⟩ := hplain'.whole hmark stack (hrest rfl)
    simp only [kinds_append, hkinds, hkinds']
    exact ⟨.cons rfl (hbalanced.append (.cons rfl hbalanced')), hflat.choice hflat'⟩
  · obtain ⟨stack', hnest, hrest⟩ := hparts hstack
    obtain ⟨u, rfl, hu⟩ := map_eq_singleton_iff.mp hkinds
    obtain ⟨v, rfl, hv⟩ := map_eq_singleton_iff.mp hkinds'
    cases x with
    | nil => rfl
    | cons u' x =>
      obtain ⟨rfl, hrow⟩ : u = u' ∧ s ++ ([v] ++ t) = x ++ z := cons.inj hsplit
      have hmark := @Unmarked.suffix _ [u] _ hmark hopen
      rw [kinds_cons, hu]
      change (after ⟨[], q + 1⟩ (kinds x)).isSome
      rcases append_eq_append_iff.mp hrow with ⟨w, rfl, hw⟩ | ⟨w, rfl, rfl⟩
      · obtain ⟨hbalanced, hflat⟩ := hplain.whole (by
          rw [← append_assoc, hw]
          simpa using hmark.front) stack' hnest
        obtain rfl : stack' = [] := Option.some.inj (hnest.symm.trans (hbalanced.nest []))
        refine isSome_after_append hflat ?_
        cases w with
        | nil => rfl
        | cons v' w =>
          obtain ⟨rfl, rfl⟩ := cons.inj hw
          have hmark := @Unmarked.suffix _ [v] _ (hmark.suffix hnest) hshut
          rw [kinds_cons, hv]
          exact hplain'.part stack (hrest rfl) w z rfl hmark q
      · exact hplain.part stack' hnest x w rfl (by simpa using hmark) (q + 1)

end Slides

/-- A reading that passes such tokens. -/
def Glides {α : Type} (p : Parse α) : Prop :=
  ∀ (c : Cursor) (a : α) (c' : Cursor), c.Closed → Clean False p c a c' → Slides c c'

section Border

variable {us : List Token} (h : Border us)

include h

theorem Border.exists_cons : ∃ u us', us = u :: us' ∧ isBorder u.kind := by
  obtain ⟨u, us, rfl⟩ := exists_cons_of_ne_nil h.stopped.ne_nil
  exact ⟨u, us, rfl, h.head⟩

theorem Border.not_arrow : (us.head?.any fun u => u.kind = .fatArrow) = false := by
  obtain ⟨u, us, rfl, hk⟩ := h.exists_cons
  refine decide_eq_false fun harrow => ?_
  rw [harrow] at hk
  cases hk

/-- A border does not make a marker of a token before it. -/
theorem Border.not_marker (t : Token) : isMarker (t :: us) = false := by
  obtain ⟨u, us, rfl, hk⟩ := h.exists_cons
  refine Bool.and_eq_false_imp.mpr fun _ => decide_eq_false fun hparen => ?_
  rw [hparen] at hk
  cases hk

theorem Border.isMarker : isMarker us = false := by
  obtain ⟨u, us, rfl, hk⟩ := h.exists_cons
  cases us with
  | nil => rfl
  | cons v us =>
    change (u.kind.isDeclarator && _) = false
    cases hkind : u.kind <;> first | rfl | (rw [hkind] at hk; cases hk)

theorem Border.isArrowStart : Rules.isArrowStart us = false := by
  obtain ⟨u, us, rfl, hk⟩ := h.exists_cons
  have hname : u.kind ≠ .identifier := fun heq => by rw [heq] at hk; cases hk
  have hparen : u.kind ≠ .lparen := fun heq => by rw [heq] at hk; cases hk
  simp [Rules.isArrowStart, hname, hparen]

end Border

/-- Borders look alike to tokens with matching brackets. -/
theorem Before.of_borders {us vs s : List Token} (hu : Border us) (hv : Border vs)
    (hs : nest [] (kinds s) = some []) : Before us vs s where
  left := hu.stopped.ne_nil
  right := hv.stopped.ne_nil
  marker y hne _ := by
    match y, hne with
    | [t], _ => exact (hu.not_marker t).trans (hv.not_marker t).symm
    | _ :: _ :: _, _ => rfl
  arrow y hne hy := by
    obtain ⟨t, y, rfl⟩ := exists_cons_of_ne_nil hne
    have harrow : (us.head?.any fun u => u.kind = .fatArrow) =
        vs.head?.any fun v => v.kind = .fatArrow := by rw [hu.not_arrow, hv.not_arrow]
    by_cases hname : t.kind = .identifier
    · cases y with
      | nil => simpa [Rules.isArrowStart, hname] using harrow
      | cons u y => simp [Rules.isArrowStart, hname]
    by_cases hparen : t.kind = .lparen
    · obtain ⟨x, rfl⟩ := hy
      rw [kinds_append, nest_append, Option.bind_eq_some_iff] at hs
      obtain ⟨stack, -, hs⟩ := hs
      change nest stack (t.kind :: kinds y) = _ at hs
      rw [hparen, nest_opener rfl] at hs
      have hafter := @arrowAfter_closed us vs [] stack y hs fun _ => harrow
      simpa [Rules.isArrowStart, Rules.arrowAfter, hname, hparen] using hafter
    · simp [Rules.isArrowStart, hname, hparen]

/-- Tokens `s` with matching brackets before borders, `us` or `vs`, and without step bindings outside
of the brackets. -/
structure Tidy (us vs s : List Token) : Prop where
  left : Border us
  right : Border vs
  nested : nest [] (kinds s) = some []
  unmarked : Unmarked us s
  valid : ∃ ts stop, s ++ us = ts ++ [stop] ∧ stop.kind = .endMark ∧ ∀ t ∈ ts, t.kind ≠ .endMark

namespace Tidy

variable {us vs s t y : List Token} {c : Cursor}

theorem good (h : Tidy us vs s) : (c.onto (s ++ us)).Closed := h.valid

theorem before (h : Tidy us vs s) : Before us vs s := .of_borders h.left h.right h.nested

/-- The rest behind tokens with matching brackets. -/
theorem suffix (h : Tidy us vs (t ++ y)) (ht : nest [] (kinds t) = some []) : Tidy us vs y where
  left := h.left
  right := h.right
  nested := by
    have hnested := h.nested
    rwa [kinds_append, nest_append, ht] at hnested
  unmarked := h.unmarked.suffix ht
  valid := @Cursor.Ends.of_suffix _ (Cursor.onto default (t ++ y ++ us))
    (Cursor.onto default (y ++ us)) t h.valid (append_assoc ..)
    (append_ne_nil_of_right_ne_nil y h.left.stopped.ne_nil)

/-- Tokens with matching brackets up to a border among the tokens. -/
theorem front (h : Tidy us vs (t ++ y)) (ht : nest [] (kinds t) = some [])
    (hy : y.head?.any fun u => isBorder u.kind) : Tidy (y ++ us) (y ++ vs) t where
  left := ⟨h.left.stopped.append, by cases y <;> simp_all⟩
  right := ⟨h.right.stopped.append, by cases y <;> simp_all⟩
  nested := ht
  unmarked := h.unmarked.front
  valid := by
    rw [← append_assoc]
    exact h.valid

theorem swap (h : Tidy us vs s)
    (hv : ∃ ts stop, s ++ vs = ts ++ [stop] ∧ stop.kind = .endMark ∧ ∀ t ∈ ts, t.kind ≠ .endMark) :
    Tidy vs us s where
  left := h.right
  right := h.left
  nested := h.nested
  unmarked t y hy hne ht := by
    rw [← h.before.marker y hne ⟨t, hy.symm⟩]
    exact h.unmarked t y hy hne ht
  valid := hv

/-- A reading that stops before the border leaves nothing open. -/
theorem nest_of_glides {α : Type} {p : Parse α} {a : α} {c₂ : Cursor} (h : Tidy us vs (t ++ y))
    (hp : Glides p) (hok : p (c.onto (t ++ y ++ us)) = .ok a (c₂.onto (y ++ us)))
    (hsound : c₂.faulty = false) : nest [] (kinds t) = some [] := by
  obtain ⟨-, s, hs, hplain⟩ := hp _ _ _ h.good (Clean.of_ok hok hsound)
  obtain rfl : t = s := by
    simp only [Cursor.rest_over, append_assoc] at hs
    exact append_cancel_right hs
  exact (hplain.front h.unmarked.front h.nested).1.nest []

end Tidy

/-- An expression that is read up to a border is read in the same way up to another. -/
structure Level (p : Parse Expr) : Prop where
  agrees : ∀ {us vs s : List Token} {c c₁ : Cursor} {e : Expr}, Tidy us vs s →
    p (c.onto (s ++ us)) = .ok e (c₁.onto us) → c₁.faulty = false →
      p (c.onto (s ++ vs)) = .ok e (c₁.onto vs) ∨ Abnormal (p (c.onto (s ++ vs)))

section Level

variable {α : Type} {p : Parse α} {f : α → Parse Expr}

theorem Level.of_meets {p : Parse Expr} [hm : Meets p] : Level p where
  agrees hs h hsound := hm.meets hs.before hs.left hs.right h hsound

theorem Level.bind [∀ a, Keeps (f a)] [hl : Local p] [∀ a, Local (f a)] [hm : Meets p] (hp : Glides p)
    (hf : ∀ a, Level (f a)) : Level (p >>= f) := by
  refine ⟨fun {us vs s c c₁ e} hs h hsound => ?_⟩
  obtain ⟨a, c₂, s2, ⟨t, rfl⟩, hp', hf'⟩ := (Clean.of_ok h hsound).before
  have ht := hs.nest_of_glides hp hp'.ok hp'.sound
  refine bind_or_abnormal (d := c₂.onto (s2 ++ vs)) ?_ ((hf a).agrees (hs.suffix ht) hf'.ok hsound)
  cases s2 with
  | nil => exact hm.meets hs.before hs.left hs.right hp'.ok hp'.sound
  | cons u s2 => exact hl.agrees hs.before (cons_ne_nil _ _) hp'.ok hp'.sound

theorem Glides.bind {β : Type} {f : α → Parse β} [∀ a, Keeps (f a)] (hp : Glides p)
    (hf : ∀ a, Glides (f a)) : Glides (p >>= f) := fun c b c' hg h => by
  obtain ⟨a, c₁, hp', hf'⟩ := h.bind
  have hslides := hp c a c₁ hg hp'
  exact hslides.trans (hf a c₁ b c' hslides.good hf')

/-- What follows an expression and reads nothing. -/
structure Idle (p : Parse Expr) : Prop where
  rest : ∀ {c c' : Cursor} {e : Expr}, p c = .ok e c' → c'.rest = c.rest
  agrees : ∀ {us vs : List Token} {c c₁ : Cursor} {e : Expr}, Border us → Border vs →
    p (c.onto us) = .ok e (c₁.onto us) → p (c.onto vs) = .ok e (c₁.onto vs)

theorem Idle.of_aside {p : Parse Expr} (hp : Aside p) : Idle p where
  rest h := hp.rest h
  agrees _ _ h := hp.agrees h _

theorem Level.bind_idle {p : Parse Expr} {f : Expr → Parse Expr} [∀ a, Keeps (f a)] (hp : Level p)
    (hf : ∀ a, Idle (f a)) : Level (p >>= f) := by
  refine ⟨fun {us vs s c c₁ e} hs h hsound => ?_⟩
  obtain ⟨a, c₂, hp', hf'⟩ := bind_eq_ok h
  have hs2 : c₂.faulty = false := Keeps.sound inferInstance hf' hsound
  have hrest : c₂.rest = us := ((hf a).rest hf').symm
  rw [Cursor.eq_over hrest] at hp' hf'
  refine (hp.agrees hs hp' hs2).imp (fun hp' => ?_) Abnormal.bind
  rw [bind_of_ok hp']
  exact (hf a).agrees hs.left hs.right hf'

end Level

namespace Rules

set_option linter.unusedSectionVars false
set_option synthInstance.maxSize 1000

variable {r : Rules}

/-- The value that is assigned to an expression. -/
def value (r : Rules) (left : Expr) (op : AssignOp) : Parse Expr := do
  let value ← r.assignment
  return .assign (left.span.through value.span) left op value

/-- The two ways out of a test. -/
def branches (r : Rules) (test : Expr) : Parse Expr := do
  let consequent ← r.assignment
  let _ ← expect .colon "':'"
  let alternate ← r.assignment
  r.assigned (.conditional (test.span.through alternate.span) test consequent alternate)

/-- What follows an expression that is a test, or that a value is assigned to. -/
def continued (r : Rules) (test : Expr) : Parse Expr := do
  if ← isAt .question then
    let _ ← advance
    r.branches test
  else r.assigned test

theorem conditional_assigned : r.conditional >>= r.assigned = r.binary >>= r.continued := by
  unfold conditional
  rw [bind_assoc]
  refine congrArg (r.binary >>= ·) (funext fun test => funext fun c => ?_)
  unfold continued
  change ((if !(c.next.kind == .question) then _ else _ : Parse Expr) >>= r.assigned) c =
    (if c.next.kind == .question then _ else _ : Parse Expr) c
  cases c.next.kind == .question with
  | true => simp [branches, bind_assoc]
  | false => simp

theorem assigned_none (left : Expr) {c : Cursor} (h : AssignOp.ofKind? c.next.kind = none) :
    r.assigned left c = .ok left c := by
  unfold assigned
  rw [bind_of_ok (show current c = .ok c.next c from rfl), h]
  rfl

theorem assigned_some {left : Expr} {c : Cursor} {op : AssignOp}
    (h : AssignOp.ofKind? c.next.kind = some op) (htarget : left.isTarget) :
    r.assigned left c = (advance >>= fun _ => r.value left op) c := by
  unfold assigned
  rw [bind_of_ok (show current c = .ok c.next c from rfl), h]
  dsimp only
  rw [htarget]
  rfl

theorem assigned_ne_ok {left : Expr} {c c' : Cursor} {op : AssignOp} {e : Expr}
    (h : AssignOp.ofKind? c.next.kind = some op) (htarget : left.isTarget = false) :
    r.assigned left c ≠ .ok e c' := by
  unfold assigned
  rw [bind_of_ok (show current c = .ok c.next c from rfl), h]
  dsimp only
  rw [htarget]
  rintro ⟨⟩

/-- Nothing is assigned to an expression that is no target. -/
theorem idle_assigned {left : Expr} (h : left.isTarget = false) : Idle (r.assigned left) where
  rest {c c' e} hok := by
    cases hop : AssignOp.ofKind? c.next.kind with
    | none =>
      rw [assigned_none left hop] at hok
      cases hok
      rfl
    | some op =>
      exact absurd hok (assigned_ne_ok hop h)
  agrees {us vs c c₁ e} hu hv hok := by
    have hnone {ws : List Token} (hw : Border ws) :
        AssignOp.ofKind? (c.onto ws).next.kind = none := by
      obtain ⟨w, ws, rfl⟩ := exists_cons_of_ne_nil hw.stopped.ne_nil
      exact (ofKind?_border hw.head).2.2.2
    rw [assigned_none left (hnone hu)] at hok
    rw [assigned_none left (hnone hv)]
    exact congrArg (overAt vs) hok

variable [Keeps r.assignment] [Keeps r.statement] [Local r.assignment] [Local r.statement]

theorem glides_binary [∀ n, KeepsTo (Cursor.Spares n) r.assignment]
    (hr : Sound (fun t => t.kind ≠ .endMark) False r) :
    Glides r.binary :=
  fun _ _ _ hg h => .of_passes (reads_binary hr hg h).moves

instance (left : Expr) (op : AssignOp) : Keeps (r.value left op) := by unfold value; infer_instance
instance (test : Expr) : Keeps (r.branches test) := by unfold branches; infer_instance
instance (test : Expr) : Keeps (r.continued test) := by unfold continued; infer_instance
instance (test : Expr) : Local (r.branches test) := by unfold branches; infer_instance
instance (test : Expr) : Local (r.continued test) := by unfold continued; infer_instance

theorem glides_assigned (hg : Glides r.assignment) (left : Expr) : Glides (r.assigned left) :=
  fun c e c' hgood h => by
  cases hop : AssignOp.ofKind? c.next.kind with
  | none =>
    have hok := h.ok
    rw [assigned_none left hop] at hok
    cases hok
    exact .refl hgood
  | some op =>
    have hlevel : isLevel c.next.kind ∧ c.next.kind ≠ .endMark := by
      cases hk : c.next.kind <;> rw [hk] at hop <;> cases hop <;> exact ⟨rfl, by decide⟩
    cases htarget : left.isTarget with
    | false => exact absurd h.ok (assigned_ne_ok hop htarget)
    | true =>
      have hok := h.ok
      rw [assigned_some hop htarget] at hok
      obtain ⟨t, c₁, hadv, hvalue⟩ := (Clean.of_ok hok h.sound : Clean False _ _ _ _).bind
      obtain ⟨-, hm, -⟩ := Moves.advance hgood rfl hlevel.2 hadv
      refine (Slides.of_passes (.level hlevel.1 hm)).trans ?_
      obtain ⟨v, -, hv⟩ := hvalue.map_inv
      exact hg _ _ _ hm.good hv

theorem glides_continued (hg : Glides r.assignment) (test : Expr) : Glides (r.continued test) :=
  fun c e c' hgood h => by
  rcases h.branch with ⟨hk, h⟩ | ⟨-, h⟩
  · obtain ⟨t, c₁, hadv, h⟩ := h.bind
    obtain ⟨-, hq, -⟩ := Moves.advance hgood hk (by decide) hadv
    unfold branches at h
    obtain ⟨consequent, c₂, hcon, h⟩ := h.bind
    have hcon := hg _ _ _ hq.good hcon
    obtain ⟨colon, c₃, hcolon, h⟩ := h.bind
    obtain ⟨-, -, hcolon⟩ := Moves.expect hcon.good (by decide) hcolon
    obtain ⟨alternate, c₄, halt, h⟩ := h.bind
    have halt := hg _ _ _ hcolon.good halt
    exact .choice hq hcon hcolon (halt.trans (glides_assigned hg _ _ _ _ halt.good h))
  · exact glides_assigned hg _ _ _ _ hgood h

/-- The consequent ends at a colon. -/
theorem level_branches (hg : Glides r.assignment) (ha : Level r.assignment) (test : Expr) :
    Level (r.branches test) := by
  refine ⟨fun {us vs s c c₁ e} hs h hsound => ?_⟩
  unfold branches at h ⊢
  obtain ⟨consequent, c₂, s2, ⟨t, rfl⟩, ⟨hcon, hs2, -⟩, hrest⟩ := (Clean.of_ok h hsound).before
  obtain ⟨k, c₃, hcolon, halt⟩ := bind_eq_ok hrest.ok
  have hs3 : c₃.faulty = false := Keeps.sound inferInstance halt hsound
  have hleft : us <:+ c₃.rest := Local.shrinks halt hsound
  cases s2 with
  | nil =>
    -- The colon would be the border, which is not passed.
    have hlt := (inferInstance : Finishes (expect .colon "':'")).proceeds
      (show Stopped (c₂.onto us).rest from hs.left.stopped) hcolon hs3
    exact absurd hleft.length_le (Nat.not_le.mpr hlt)
  | cons u s2 =>
    have hk : u.kind = .colon := (Clean.of_ok hcolon hs3).expect_inv.1
    have hexpect (ws : List Token) (hws : ws ≠ []) : expect .colon "':'" (c₂.onto (u :: s2 ++ ws)) =
        .ok u (Cursor.onto { c₂ with last := u } (s2 ++ ws)) := by
      change (if u.kind = .colon then advance else fail _ _ : Parse Token) _ = _
      rw [if_pos hk, cons_append, advance_over c₂ (by simp [hws])]
      rfl
    have hnest := hs.nest_of_glides hg hcon hs2
    have hcon' := ha.agrees (hs.front hnest (by simp [hk, isBorder])) (by
      rwa [← append_assoc]) hs2
    have hs' : Tidy us vs s2 := by
      refine @Tidy.suffix _ _ (t ++ [u]) _ (by simpa using hs) ?_
      rw [kinds_append, nest_append, hnest]
      exact nest_plain (by rw [hk]; rfl)
    rw [hexpect us hs.left.stopped.ne_nil] at hcolon
    cases hcolon
    have halt' := (ha.bind_idle fun _ => idle_assigned rfl).agrees hs' halt hsound
    rw [append_assoc]
    refine bind_or_abnormal (d := c₂.onto (k :: s2 ++ vs)) hcon' ?_
    rwa [bind_of_ok (hexpect vs hs.right.stopped.ne_nil)]

theorem level_continued (hg : Glides r.assignment) (ha : Level r.assignment) (test : Expr) :
    Level (r.continued test) := by
  have hother {c : Cursor} (hc : c.next.kind ≠ .question) :
      r.continued test c = r.assigned test c := by
    change (if c.next.kind == .question then _ else _ : Parse Expr) c = _
    rw [if_neg (by simpa using hc)]
  have hgo {c : Cursor} {t : Token} {ts : List Token} (hc : t.kind = .question) (hne : ts ≠ []) :
      r.continued test (c.onto (t :: ts)) = r.branches test (Cursor.onto { c with last := t } ts) := by
    change (if t.kind == .question then advance >>= _ else _ : Parse Expr) _ = _
    rw [if_pos (by simpa using hc), bind_of_ok (advance_over c hne)]
    rfl
  refine ⟨fun {us vs s c c₁ e} hs h hsound => ?_⟩
  cases s with
  | nil =>
    have hread {ws : List Token} (hw : Border ws) :
        r.continued test (c.onto ws) = .ok test (c.onto ws) := by
      obtain ⟨w, ws, rfl⟩ := exists_cons_of_ne_nil hw.stopped.ne_nil
      have hk : isBorder w.kind := hw.head
      rw [hother (c := c.onto (w :: ws)) fun (hq : w.kind = .question) => by rw [hq] at hk; cases hk]
      exact assigned_none test (c := c.onto (w :: ws)) (ofKind?_border hk).2.2.2
    rw [nil_append, hread hs.left] at h
    rw [nil_append, hread hs.right]
    exact .inl (congrArg (overAt vs) h)
  | cons t s =>
    have hcut (ht : isPlain t.kind) : Tidy us vs s :=
      @Tidy.suffix _ _ [t] _ hs (nest_plain ht)
    by_cases hq : t.kind = .question
    · rw [cons_append, hgo hq (by simp [hs.left.stopped.ne_nil])] at h
      rw [cons_append, hgo hq (by simp [hs.right.stopped.ne_nil])]
      exact (level_branches hg ha test).agrees (hcut (by rw [hq]; rfl)) h hsound
    rw [cons_append] at h ⊢
    rw [hother (c := c.onto (t :: (s ++ us))) hq] at h
    rw [hother (c := c.onto (t :: (s ++ vs))) hq]
    cases hop : AssignOp.ofKind? t.kind with
    | none =>
      rw [assigned_none test (c := c.onto (t :: (s ++ us))) hop] at h
      injection h with _ hcursor
      have hlength := congrArg (List.length ∘ Cursor.rest) hcursor
      simp only [Function.comp_apply, Cursor.rest_over, length_append, length_cons]
        at hlength
      omega
    | some op =>
      have htarget : test.isTarget := by
        cases htarget : test.isTarget with
        | false => exact absurd h (assigned_ne_ok (c := c.onto (t :: (s ++ us))) hop htarget)
        | true => rfl
      have hplain : isPlain t.kind := by
        cases hk : t.kind <;> rw [hk] at hop <;> cases hop <;> rfl
      have hvalue {ws : List Token} (hne : ws ≠ []) : r.assigned test (c.onto (t :: (s ++ ws))) =
          r.value test op (Cursor.onto { c with last := t } (s ++ ws)) := by
        rw [assigned_some (c := c.onto (t :: (s ++ ws))) hop htarget,
          bind_of_ok (advance_over c (by simp [hne]))]
        rfl
      rw [hvalue hs.left.stopped.ne_nil] at h
      rw [hvalue hs.right.stopped.ne_nil]
      have hidle := ha.bind_idle (f := fun value =>
        pure (.assign (test.span.through value.span) test op value)) fun _ => .of_aside inferInstance
      exact hidle.agrees (hcut hplain) h hsound

/-- The parameters of an arrow function and its arrow. -/
def arrowHead : Parse (List String) := do
  let params ← (do
    if ← isAt .identifier then return [(← advance).text]
    else params : Parse (List String))
  let _ ← expect .fatArrow "'=>'"
  return params

/-- What an arrow function that starts at `start` does. -/
def arrowBody (r : Rules) (start : Span) (params : List String) : Parse Expr := do
  if ← isAt .lbrace then
    let (span, body) ← r.block
    return .arrowBlock (← spanFrom start) params span body
  else
    let body ← r.assignment
    return .arrow (← spanFrom start) params body

theorem arrow_eq (c : Cursor) : r.arrow c = (arrowHead >>= r.arrowBody c.next.span) c := by
  unfold arrowHead
  simp only [bind_assoc, pure_bind]
  rfl

instance : Local arrowHead := by unfold arrowHead; infer_instance
instance : Meets arrowHead := by unfold arrowHead; infer_instance

theorem glides_arrowHead : Glides arrowHead := fun c a c' hg h => by
  unfold arrowHead at h
  obtain ⟨names, c₁, hnames, h⟩ := h.bind
  obtain ⟨t, rfl, harrow⟩ := h.map_inv
  have hnames : PassesFlat (fun t => t.kind ≠ .endMark) False c [] c₁ := by
    rcases hnames.branch with ⟨hk, h⟩ | ⟨-, h⟩
    · obtain ⟨t, rfl, hadv⟩ := h.map_inv
      obtain ⟨rfl, hm, -⟩ := Moves.advance hg hk (by decide) hadv
      exact .level rfl hm
    · exact (reads_params hg h).1
  obtain ⟨-, -, hm⟩ := Moves.expect hnames.good (by decide) harrow
  exact .of_passes (hnames.trans (.level rfl hm))

instance (start : Span) (params : List String) : Keeps (r.arrowBody start params) := by
  unfold arrowBody
  infer_instance
instance (start : Span) (params : List String) : Local (r.arrowBody start params) := by
  unfold arrowBody
  infer_instance

theorem glides_arrowBody [∀ n, KeepsTo (Cursor.Spares n) r.assignment]
    (hr : Sound (fun t => t.kind ≠ .endMark) False r) (hg : Glides r.assignment) (start : Span)
    (params : List String) : Glides (r.arrowBody start params) := fun c e c' hgood h => by
  rcases h.branch with ⟨-, h⟩ | ⟨-, h⟩
  · obtain ⟨⟨span, ss⟩, -, hblock⟩ := h.span_inv
    unfold block at hblock
    obtain ⟨ss', -, hbody⟩ := hblock.current.span_inv
    exact .of_passes (reads_body hr hgood hbody).1
  · obtain ⟨body, -, hbody⟩ := h.span_inv
    exact hg _ _ _ hgood hbody

theorem glides_isAt (k : Kind) : Glides (isAt k) := fun c a c' hg h => by
  cases h.ok
  exact .refl hg

theorem level_arrowBody (ha : Level r.assignment) (start : Span) (params : List String) :
    Level (r.arrowBody start params) := by
  unfold arrowBody
  refine .bind (glides_isAt _) fun atBrace => ?_
  cases atBrace with
  | true =>
    rw [if_pos rfl]
    exact .of_meets
  | false =>
    rw [if_neg Bool.false_ne_true]
    exact ha.bind_idle fun _ => .of_aside (.bind inferInstance fun _ => inferInstance)

/-- Where no step binding starts. -/
theorem assignmentRule_cases {c : Cursor} (h : isMarker c.rest = false) :
    r.assignmentRule c = if isArrowStart c.rest then (arrowHead >>= r.arrowBody c.next.span) c
      else (r.binary >>= r.continued) c := by
  rw [assignmentRule_eq, ← conditional_assigned]
  change (if isMarker c.rest = true then r.constructExpr
    else if isArrowStart c.rest = true then r.arrow else _ : Parse Expr) _ = _
  rw [if_neg (by simp [h])]
  split
  · exact arrow_eq _
  · rfl

theorem glides_assignmentRule [∀ n, KeepsTo (Cursor.Spares n) r.assignment]
    (hr : Sound (fun t => t.kind ≠ .endMark) False r) (hg : Glides r.assignment) :
    Glides r.assignmentRule := fun c e c' hgood h => by
  cases hmarker : isMarker c.rest with
  | true =>
    obtain ⟨ks, hm, -⟩ := (reads_assignmentRule hr hgood h).moves
    obtain ⟨s, hs, -⟩ := hm.tokens
    refine ⟨hm.good, s, hs, fun hmark stack hstack => ?_, fun stack _ x y hsplit hmark q => ?_⟩
    · by_cases hne : s = []
      · subst hne
        exact ⟨.nil, .nil⟩
      · have hnone := hmark [] s rfl hne rfl
        rw [← hs, hmarker] at hnone
        cases hnone
    · by_cases hne : x = []
      · subst hne
        rfl
      · have hnone := hmark [] x rfl hne rfl
        rw [← append_assoc, ← hsplit, ← hs, hmarker] at hnone
        cases hnone
  | false =>
    have hok := h.ok
    rw [assignmentRule_cases hmarker] at hok
    split at hok
    · exact glides_arrowHead.bind (glides_arrowBody hr hg _) c e c' hgood (Clean.of_ok hok h.sound)
    · exact (glides_binary hr).bind (glides_continued hg) c e c' hgood (Clean.of_ok hok h.sound)

theorem level_assignmentRule [∀ n, KeepsTo (Cursor.Spares n) r.assignment]
    (hr : Sound (fun t => t.kind ≠ .endMark) False r) (hg : Glides r.assignment)
    (ha : Level r.assignment) : Level r.assignmentRule := by
  refine ⟨fun {us vs s c c₁ e} hs h hsound => ?_⟩
  have hmarker : isMarker (s ++ us) = false ∧ isMarker (s ++ vs) = false := by
    by_cases hne : s = []
    · subst hne
      exact ⟨hs.left.isMarker, hs.right.isMarker⟩
    · have hleft := hs.unmarked [] s rfl hne rfl
      exact ⟨hleft, (hs.before.marker s hne (suffix_refl s)).symm.trans hleft⟩
  have harrow : isArrowStart (s ++ us) = isArrowStart (s ++ vs) := by
    by_cases hne : s = []
    · subst hne
      rw [nil_append, nil_append, hs.left.isArrowStart, hs.right.isArrowStart]
    · exact hs.before.arrow s hne (suffix_refl s)
  rw [assignmentRule_cases (c := c.onto (s ++ us)) hmarker.1, Cursor.rest_over] at h
  rw [assignmentRule_cases (c := c.onto (s ++ vs)) hmarker.2, Cursor.rest_over, ← harrow]
  split at h
  · rename_i hstart
    obtain ⟨t, s, rfl⟩ : ∃ t s', s = t :: s' := by
      refine exists_cons_of_ne_nil fun hnil => ?_
      subst hnil
      rw [nil_append, hs.left.isArrowStart] at hstart
      cases hstart
    rw [if_pos hstart]
    exact (Level.bind glides_arrowHead (level_arrowBody ha t.span)).agrees hs h hsound
  · rename_i hstart
    rw [if_neg hstart]
    exact (Level.bind (glides_binary hr) (level_continued hg ha)).agrees hs h hsound

end Rules

theorem rules_glide (n : Nat) : Glides (rules n).assignment := by
  induction n with
  | zero => exact fun _ _ _ _ h => by cases h.ok
  | succ n ih =>
    exact Rules.glides_assignmentRule (rules_sound n) ih

theorem rules_level (n : Nat) : Level (rules n).assignment := by
  induction n with
  | zero => exact ⟨fun _ h _ => by cases h⟩
  | succ n ih =>
    exact Rules.level_assignmentRule (rules_sound n) (rules_glide n) ih

end StepBinding.Grammar
