import StepBinding.Proofs.Grammar.Local

/-! The token that was read last is looked at only for the end of a range, and a range ends at a token
that was read since its start. So what is read does not depend on the token before its first. -/

namespace StepBinding.Grammar

open Token Construct

variable {α β σ : Type} {q : Prop} {k : Kind}

/-- The cursor with another token before it. -/
def Cursor.since (c : Cursor) (t : Token) : Cursor := { c with last := t }

theorem next_since {c : Cursor} {t : Token} (hne : c.rest ≠ []) : (c.since t).next = c.next := by
  obtain ⟨u, us, hrest⟩ := List.exists_cons_of_ne_nil hne
  simp [Cursor.next, Cursor.since, hrest]

/-- From here the token before is not looked at, and if the reading ends well it is replaced. -/
def RenewsAt (p : Parse α) (c : Cursor) : Prop :=
  ∀ t, p (c.since t) = p c ∨
    ∃ e c', p c = .error e c' ∧ p (c.since t) = .error e (c'.since t) ∧ c'.rest = c.rest

def Renews (p : Parse α) : Prop := ∀ c : Cursor, c.rest ≠ [] → RenewsAt p c

/-- The token before is not looked at; if it is not replaced, no token is read. -/
def Looks (p : Parse α) : Prop :=
  ∀ (c : Cursor) (t : Token), c.rest ≠ [] → p (c.since t) = p c ∨
    (∃ e c', p c = .error e c' ∧ p (c.since t) = .error e (c'.since t) ∧ c'.rest = c.rest) ∨
    ∃ a c', p c = .ok a c' ∧ p (c.since t) = .ok a (c'.since t) ∧ c'.rest = c.rest

section Base

variable {p p1 p2 : Parse α} {f : α → Parse β} {c c' : Cursor}

theorem Renews.looks (hp : Renews p) : Looks p := fun c t hne => (hp c hne t).imp_right .inl

theorem RenewsAt.of_ok (hp : RenewsAt p c) {a : α} (h : p c = .ok a c') (t : Token) :
    p (c.since t) = .ok a c' := by
  rcases hp t with heq | ⟨e, c1, herror, -⟩
  · rw [heq, h]
  · rw [h] at herror
    cases herror

theorem bind_congr_at (h : p c = p c') : (p >>= f) c = (p >>= f) c' := by
  change EStateM.bind p f c = EStateM.bind p f c'
  rw [EStateM.bind, h]
  rfl

/-- What comes after a new token is the same. -/
theorem RenewsAt.bind (hp : RenewsAt p c) : RenewsAt (p >>= f) c := fun t => by
  rcases hp t with heq | ⟨e, c', h, h', hrest⟩
  · exact .inl (bind_congr_at heq)
  · exact .inr ⟨e, c', bind_of_error h, bind_of_error h', hrest⟩

theorem Renews.bind (hp : Renews p) : Renews (p >>= f) := fun c hne => (hp c hne).bind

theorem Looks.renewsAt (hp : Looks p) (hne : c.rest ≠ [])
    (hf : ∀ a (c' : Cursor), c'.rest = c.rest → RenewsAt (f a) c') : RenewsAt (p >>= f) c :=
  fun t => by
    rcases hp c t hne with heq | ⟨e, c', h, h', hrest⟩ | ⟨a, c', h, h', hrest⟩
    · exact .inl (bind_congr_at heq)
    · exact .inr ⟨e, c', bind_of_error h, bind_of_error h', hrest⟩
    · rw [bind_of_ok h, bind_of_ok h', ← hrest]
      exact hf a c' hrest t

theorem Looks.renews (hp : Looks p) (hf : ∀ a, Renews (f a)) : Renews (p >>= f) :=
  fun _ hne => hp.renewsAt hne fun a c' hrest => hf a c' (hrest ▸ hne)

theorem Looks.bind (hp : Looks p) (hf : ∀ a, Looks (f a)) : Looks (p >>= f) := fun c t hne => by
  rcases hp c t hne with heq | ⟨e, c', h, h', hrest⟩ | ⟨a, c', h, h', hrest⟩
  · exact .inl (bind_congr_at heq)
  · exact .inr (.inl ⟨e, c', bind_of_error h, bind_of_error h', hrest⟩)
  · rw [bind_of_ok h, bind_of_ok h', ← hrest]
    exact hf a c' t (hrest ▸ hne)

theorem Renews.ite [Decidable q] (h1 : q → Renews p1) (h2 : ¬q → Renews p2) :
    Renews (if q then p1 else p2) := by
  split
  · exact h1 ‹_›
  · exact h2 ‹_›

theorem Looks.ite [Decidable q] (h1 : q → Looks p1) (h2 : ¬q → Looks p2) :
    Looks (if q then p1 else p2) := by
  split
  · exact h1 ‹_›
  · exact h2 ‹_›

theorem looks_pure {a : α} : Looks (pure a : Parse α) :=
  fun c _ _ => .inr (.inr ⟨a, c, rfl, rfl, rfl⟩)

theorem looks_current : Looks current := fun c t hne => by
  obtain ⟨u, us, hrest⟩ := List.exists_cons_of_ne_nil hne
  have h (c : Cursor) (hrest : c.rest = u :: us) : current c = .ok u c := by
    rw [current, hrest]
    rfl
  exact .inr (.inr ⟨u, c, h c hrest, h (c.since t) hrest, rfl⟩)

theorem looks_isAt : Looks (isAt k) := looks_current.bind fun _ => looks_pure

/-- A look at the tokens that are left. -/
theorem Renews.get {f : Cursor → Parse α} (hf : ∀ c : Cursor, c.rest ≠ [] → RenewsAt (f c) c)
    (hlook : ∀ c t, f (Cursor.since c t) = f c) : Renews (get >>= f) := fun c hne t => by
  change f (c.since t) (c.since t) = f c c ∨ ∃ e c', f c c = _ ∧ f (c.since t) (c.since t) = _ ∧ _
  rw [hlook]
  exact hf c hne t

theorem renews_advance : Renews advance := fun c hne t => by
  left
  obtain ⟨u, us, hrest⟩ := List.exists_cons_of_ne_nil hne
  unfold advance
  rw [show (c.since t).rest = c.rest from rfl, hrest]
  cases us <;> rfl

theorem renews_fail {message : String} {span : Span} : Renews (fail message span : Parse α) :=
  fun c _ _ => .inr ⟨.misplaced, { c with
    diagnostics := c.diagnostics ++ [Diagnostic.error .grammar message span], faulty := true },
    rfl, rfl, rfl⟩

theorem renews_throw {e : Stop} : Renews (throw e : Parse α) := fun c _ _ =>
  .inr ⟨e, c, rfl, rfl, rfl⟩

theorem renews_expect {what : String} : Renews (expect k what) :=
  looks_current.renews fun _ => .ite (fun _ => renews_advance) fun _ => renews_fail

/-- Only the number of tokens bounds the passes. -/
theorem passes_of_length {body : σ → Parse (Pass σ β)} {limit limit' : List Token}
    (h : limit.length = limit'.length) (s : σ) : passes limit body s = passes limit' body s := by
  induction limit generalizing limit' s with
  | nil => cases limit' with
    | nil => rfl
    | cons t limit' => cases h
  | cons t limit ih => cases limit' with
    | nil => cases h
    | cons t' limit' =>
      unfold passes
      refine congrArg (body s >>= ·) (funext fun pass => ?_)
      cases pass with
      | again s => exact ih (Nat.succ.inj h) s
      | leave b => rfl

theorem looks_loop {body : σ → Parse (Pass σ β)} (hbody : ∀ s, Looks (body s)) (s : σ) :
    Looks (loop body s) := by
  have hpasses (limit : List Token) (s : σ) : Looks (passes limit body s) := by
    induction limit generalizing s with
    | nil => exact renews_throw.looks
    | cons t limit ih =>
      refine (hbody s).bind fun pass => ?_
      cases pass with
      | again s => exact ih s
      | leave b => exact looks_pure
  intro c t hne
  have hlimit : passes (t :: c.rest) body s = passes (c.last :: c.rest) body s :=
    passes_of_length rfl s
  have hloop : loop body s (c.since t) = passes (c.last :: c.rest) body s (c.since t) :=
    congrFun hlimit (c.since t)
  rw [hloop]
  exact hpasses _ s c t hne

end Base

namespace Rules

variable {r : Rules} {c : Cursor}

theorem renews_params : Renews params := renews_expect.bind

theorem renews_body : Renews r.body := renews_expect.bind

theorem renews_block : Renews r.block := looks_current.renews fun _ => renews_body.bind

theorem looks_step {tokens : List Token} : Looks (r.step tokens) := fun c t _ => by
  unfold step
  cases tokens with
  | nil => exact .inr (.inr ⟨none, c, rfl, rfl, rfl⟩)
  | cons first later =>
    dsimp only [Cursor.since]
    right
    split
    · exact .inr ⟨_, _, rfl, rfl, rfl⟩
    · exact .inr ⟨_, _, rfl, rfl, rfl⟩
    · exact .inl ⟨_, _, rfl, rfl, rfl⟩

theorem looks_stepList {steps : List (List Token)} : Looks (r.stepList steps) := by
  fun_induction stepList r steps with
  | case1 => exact looks_pure
  | case2 later ih => exact ih
  | case3 tokens later hne ih =>
    refine looks_step.bind fun e => ?_
    split <;> exact ih.bind fun _ => looks_pure

theorem looks_note {ds : List Diagnostic} : Looks (note ds) :=
  fun _ _ _ => .inr (.inr ⟨(), _, rfl, rfl, rfl⟩)

theorem looks_readSteps {equals : Token} {following : List Token} {split : Steps.Split} :
    Looks (r.readSteps equals following split) :=
  .ite (fun _ => looks_note.bind fun _ => looks_pure) fun _ => looks_note.bind fun _ =>
    looks_stepList.bind fun _ => looks_pure

/-- Tokens are passed on the way to what is left. -/
theorem renews_skipTo {left : List Token} (h : left.length < c.rest.length) :
    RenewsAt (skipTo left) c := fun t => by
  left
  have hne : c.rest.take (c.rest.length - left.length) ≠ [] := by
    intro hnil
    have hlength := congrArg List.length hnil
    rw [List.length_take, List.length_nil] at hlength
    omega
  obtain ⟨u, us, hus⟩ := List.exists_cons_of_ne_nil hne
  rw [skipTo, modify_run, modify_run]
  simp only [Cursor.since, hus]
  rfl

/-- Behind its tokens a step binding has read the last of them. -/
theorem renews_construct {only : Bool} (hmark : isMarker c.rest) :
    RenewsAt (r.construct only) c := by
  obtain ⟨k, p, ts, hrest, -, -⟩ := exists_of_isMarker hmark
  have hpos := @Head.length_pos only c.next c.rest.tail (by simp [hrest])
  have hnext (t : Token) : (c.since t).next = c.next := next_since (by simp [hrest])
  have hle := (Steps.rest_suffix {}
    (c.rest.drop (Head.read only c.next c.rest.tail).length)).length_le
  rw [List.length_drop] at hle
  have hlt : (Steps.split (c.rest.drop (Head.read only c.next c.rest.tail).length)).rest.length <
      c.rest.length := by
    have : 0 < c.rest.length := by simp [hrest]
    exact Nat.lt_of_le_of_lt hle (by omega)
  have hfinish (head : Head) (equals : Token) (following : List Token) (index : Nat) (c2 : Cursor)
      (hlt : (Steps.split following).rest.length < c2.rest.length) :
      RenewsAt (r.finish head equals following index) c2 := by
    unfold finish
    split
    · exact (renews_skipTo hlt).bind
    · refine looks_readSteps.renewsAt (fun hnil => by simp [hnil] at hlt) fun a c' hrest => ?_
      exact RenewsAt.bind (renews_skipTo (hrest ▸ hlt))
  intro t
  rw [construct_eq, construct_eq]
  dsimp only
  rw [hnext]
  exact hfinish _ _ _ _ { c with
    log := c.log.enter (Head.read only c.next c.rest.tail).form
      (Head.read only c.next c.rest.tail).span
      ((Head.read only c.next c.rest.tail).binding.map Token.text)
    diagnostics := c.diagnostics ++ (Head.read only c.next c.rest.tail).errors } hlt t

theorem renews_arrow : Renews r.arrow := by
  refine looks_current.renews fun t => Renews.bind ?_
  exact looks_isAt.renews fun _ => .ite (fun _ => renews_advance.bind) fun _ => renews_params

theorem renews_primary : Renews r.primary := by
  refine looks_current.renews fun t => ?_
  split
  case h_13 => exact renews_fail
  all_goals exact renews_advance.bind

theorem renews_callMember : Renews r.callMember := by
  refine Renews.bind (looks_isAt.renews fun _ => .ite (fun _ => ?_) fun _ => renews_primary)
  exact renews_advance.bind

theorem looks_operators : Looks (loop operatorPass []) :=
  looks_loop (fun _ => looks_current.bind fun _ => .ite (fun _ => renews_advance.bind.looks) fun _ =>
    looks_pure) []

theorem renews_unary : Renews r.unary :=
  looks_operators.renews fun _ => Renews.bind (Renews.bind renews_callMember)

theorem renews_conditional : Renews r.conditional := Renews.bind (Renews.bind renews_unary)

theorem renews_assignmentRule : Renews r.assignmentRule := by
  rw [assignmentRule_eq]
  refine .get (fun c hne => ?_) fun _ _ => rfl
  split
  · exact (renews_construct ‹_›).bind
  · split
    · exact renews_arrow c hne
    · exact renews_conditional.bind c hne

variable (hr : Renews r.assignment)

include hr

theorem renews_expression : Renews r.expression := Renews.bind hr

theorem renews_statementRule : Renews r.statementRule := by
  refine looks_current.renews fun t => .ite (fun _ => ?_) fun _ => ?_
  · refine .get (fun c hne => ?_) fun _ _ => rfl
    split
    · exact (renews_construct ‹_›).bind
    · exact Renews.bind renews_advance.bind c hne
  · split
    case h_9 => exact renews_block.bind
    case h_11 => exact (renews_expression hr).bind
    all_goals exact renews_advance.bind

end Rules

theorem rules_renew (n : Nat) : Renews (rules n).assignment ∧ Renews (rules n).statement := by
  induction n with
  | zero => exact ⟨renews_throw, renews_throw⟩
  | succ n ih => exact ⟨Rules.renews_assignmentRule, Rules.renews_statementRule ih.1⟩

end StepBinding.Grammar
