import StepBinding.Proofs.Grammar.Accepted

/-! Readings that come to an end. A reading either gives a result or stops at a misplaced token: no
bound is exhausted and no edit of the log is refused. On the way tokens are only passed, and the end
mark is never passed. A loop ends because each of its passes that goes on reads a token. Most rules
end because their parts do: what counts is how many tokens are left at most, and whether the next
one is known not to be the end mark. -/

namespace StepBinding.Grammar

open List Token Construct

variable {tokens : List Token}

namespace Cursor

/-- Reading has gone on from `c` to `c'`. -/
structure To (c c' : Cursor) : Prop where
  rest : c'.rest <:+ c.rest
  left : c'.rest ≠ []

variable {c c1 c2 : Cursor}

theorem To.refl (h : c.rest ≠ []) : c.To c := ⟨suffix_refl _, h⟩

theorem To.trans (h : c.To c1) (h' : c1.To c2) : c.To c2 := ⟨h'.rest.trans h.rest, h'.left⟩

theorem To.length (h : c.To c1) : c1.rest.length ≤ c.rest.length := h.rest.length_le

theorem To.ends {P : Token → Prop} (h : c.To c1) (hc : c.Ends P) : c1.Ends P := by
  obtain ⟨ts, hts⟩ := h.rest
  exact hc.of_suffix hts.symm h.left

/-- The next token is the same as long as no token is passed. -/
theorem To.next (h : c.To c1) (hlen : c1.rest.length = c.rest.length) : c1.next = c.next := by
  have heq := h.rest.eq_of_length hlen
  obtain ⟨t, ts, hts⟩ := exists_cons_of_ne_nil h.left
  simp [Cursor.next, ← heq, hts]

end Cursor

section Goes

variable {α β σ : Type}

/-- No token need be passed. -/
def free (_ : α) : Nat := 0

/-- A token is passed. -/
def costly (_ : α) : Nat := 1

/-- A token is passed if the loop goes on. -/
def Pass.cost : Pass σ β → Nat
  | .again _ => 1
  | .leave _ => 0

class Small (D : α → Nat) : Prop where
  le : ∀ a, D a ≤ 1

instance : Small (free (α := α)) := ⟨fun _ => Nat.zero_le _⟩
instance : Small (costly (α := α)) := ⟨fun _ => .refl⟩
instance : Small (Pass.cost (σ := σ) (β := β)) := ⟨fun p => by cases p <;> simp [Pass.cost]⟩

/-- Reading gave a result after at least the given number of tokens, or stopped at a misplaced
token. -/
def Ended (D : α → Nat) (c : Cursor) : EStateM.Result Stop Cursor α → Prop
  | .ok a c' => c.To c' ∧ c'.rest.length + D a ≤ c.rest.length
  | .error .misplaced c' => c.To c'
  | .error _ _ => False

/-- Reading ends where at most `m` tokens are left, or one more if `s`, and the next one is not the
end mark if `k`. -/
class Goes (m : Nat) (s k : Bool) (D : α → Nat) (p : Parse α) : Prop where
  run : ∀ {c : Cursor}, c.Closed → c.rest.length ≤ m + s.toNat →
    (k = true → c.next.kind ≠ .endMark) → Ended D c (p c)

variable {m : Nat} {s k : Bool} {D D' : α → Nat} {E : β → Nat} {p : Parse α} {f : α → Parse β}
  {c c1 : Cursor}

theorem Ended.mono {o : EStateM.Result Stop Cursor α} (h : Ended D c o) (hD : ∀ a, D' a ≤ D a) :
    Ended D' c o := by
  cases o with
  | ok a c' => exact ⟨h.1, Nat.le_trans (Nat.add_le_add_left (hD a) _) h.2⟩
  | error e c' => cases e <;> exact h

/-- Tokens may have been passed before. -/
theorem Ended.after {o : EStateM.Result Stop Cursor α} (h : Ended D c1 o) (hto : c.To c1)
    (hD : ∀ a, c1.rest.length + D' a ≤ c.rest.length + D a) : Ended D' c o := by
  cases o with
  | ok a c' =>
    have := h.2
    have := hD a
    exact ⟨hto.trans h.1, by omega⟩
  | error e c' =>
    cases e with
    | misplaced => exact hto.trans h
    | _ => exact h

/-- The second part starts where the first one ends. -/
theorem Ended.bind {F : β → Nat} (h : Ended D c (p c))
    (hf : ∀ {a c1}, p c = .ok a c1 → c.To c1 → c1.rest.length + D a ≤ c.rest.length →
      Ended F c1 (f a c1)) (hE : ∀ a b, E b ≤ D a + F b) : Ended E c ((p >>= f) c) := by
  cases hp : p c with
  | ok a c1 =>
    rw [hp] at h
    have h' := hf hp h.1 h.2
    rw [bind_of_ok hp]
    have := h.2
    exact h'.after h.1 fun b => by have := hE a b; omega
  | error e c1 =>
    rw [hp] at h
    rw [bind_of_error hp]
    cases e <;> exact h

theorem ended_pure (hne : c.rest ≠ []) {a : α} (ha : D a = 0) : Ended D c ((pure a : Parse α) c) :=
  ⟨.refl hne, by rw [ha]; exact .refl⟩

instance (a : α) : Goes m s k free (pure a : Parse α) := ⟨fun hc _ _ => ended_pure hc.ne_nil rfl⟩

instance (b : β) : Goes m s k (Pass.cost (σ := σ)) (pure (.leave b) : Parse (Pass σ β)) :=
  ⟨fun hc _ _ => ended_pure hc.ne_nil rfl⟩

theorem Goes.weaken (h : Goes m s k D p) (hD : ∀ a, D' a ≤ D a) : Goes m s k D' p :=
  ⟨fun hc hl hk => (h.run hc hl hk).mono hD⟩

instance (priority := 100) [h : Goes m s k costly p] : Goes m s k free p :=
  h.weaken fun _ => Nat.zero_le _

instance (priority := 90) [h : Goes m s false D p] : Goes m s true D p :=
  ⟨fun hc hl _ => h.run hc hl nofun⟩

instance (priority := 80) [h : Goes m true k D p] : Goes m false k D p :=
  ⟨fun hc hl hk => h.run hc (Nat.le_trans hl (Nat.le_add_right ..)) hk⟩

/-- A reading that only looks. -/
class Peeks (p : Parse α) : Prop where
  run : ∀ c, ∃ a, p c = .ok a c

instance : Peeks current := ⟨fun _ => ⟨_, rfl⟩⟩
instance : Peeks (get : Parse Cursor) := ⟨fun _ => ⟨_, rfl⟩⟩
instance (n : Nat) : Peeks (peek n) := ⟨fun _ => ⟨_, rfl⟩⟩
instance (start : Span) : Peeks (spanFrom start) := ⟨fun _ => ⟨_, rfl⟩⟩
instance (k : Kind) : Peeks (isAt k) := ⟨fun _ => ⟨_, rfl⟩⟩
instance (ks : List Kind) : Peeks (isAtAny ks) := ⟨fun _ => ⟨_, rfl⟩⟩
instance (a : α) : Peeks (pure a : Parse α) := ⟨fun _ => ⟨_, rfl⟩⟩

theorem Goes.bind_look [h : Peeks p] (hf : ∀ a, Goes m s k E (f a)) : Goes m s k E (p >>= f) where
  run {c} hc hl hk := by
    obtain ⟨a, hp⟩ := h.run c
    rw [bind_of_ok hp]
    exact (hf a).run hc hl hk

instance (priority := 1100) [Peeks p] [∀ a, Goes m s k E (f a)] : Goes m s k E (p >>= f) :=
  .bind_look fun _ => inferInstance

/-- A kind that is not that of the end mark. -/
class Proper (k : Kind) : Prop where
  ne : k ≠ .endMark

instance (priority := 1200) (κ : Kind) (f : Bool → Parse β) [hκ : Proper κ]
    [h : Goes m s true E (f true)] [h' : Goes m s k E (f false)] :
    Goes m s k E (isAt κ >>= f) where
  run {c} hc hl hk := by
    change Ended E c (f (c.next.kind == κ) c)
    cases hb : c.next.kind == κ with
    | true => exact h.run hc hl fun _ => by rw [eq_of_beq hb]; exact hκ.ne
    | false => exact h'.run hc hl hk

instance (priority := 1200) (f : Bool → Parse β) [h : Goes m s k E (f true)]
    [h' : Goes m s true E (f false)] : Goes m s k E (isAt .endMark >>= f) where
  run {c} hc hl hk := by
    change Ended E c (f (c.next.kind == .endMark) c)
    cases hb : c.next.kind == Kind.endMark with
    | true => exact h.run hc hl hk
    | false => exact h'.run hc hl fun _ => by simpa using hb

/-- The next token is looked at, which may be the end mark. -/
theorem Goes.current {f : Token → Parse β} (h : ∀ {t}, t.kind = .endMark → Goes m s k E (f t))
    (h' : ∀ {t}, t.kind ≠ .endMark → Goes m s true E (f t)) : Goes m s k E (current >>= f) where
  run {c} hc hl hk := by
    change Ended E c (f c.next c)
    by_cases ht : c.next.kind = .endMark
    · exact (h ht).run hc hl hk
    · exact (h' ht).run hc hl fun _ => ht

/-- After a token that was passed fewer tokens are left. -/
theorem Goes.bind_costly [hE : Small E] (hp : Goes m s k costly p)
    (hf : ∀ a, Goes m false false free (f a)) : Goes m s k E (p >>= f) where
  run {c} hc hl hk := by
    refine (hp.run hc hl hk).bind (fun {a c1} _ hto hlen => (hf a).run (hto.ends hc) ?_ nofun)
      fun _ b => hE.le b
    change c1.rest.length + 1 ≤ _ at hlen
    have := s.toNat_le
    simp
    omega

theorem Goes.bind_free (hp : Goes m s k free p) (hf : ∀ a, Goes m s false E (f a)) :
    Goes m s k E (p >>= f) where
  run hc hl hk := (hp.run hc hl hk).bind (fun {a _} _ hto _ =>
    (hf a).run (hto.ends hc) (Nat.le_trans hto.length hl) nofun) fun _ _ => Nat.le_add_left ..

instance (priority := 1000) [Small E] [Goes m s k costly p] [∀ a, Goes m false false free (f a)] :
    Goes m s k E (p >>= f) :=
  .bind_costly inferInstance fun _ => inferInstance

instance (priority := 900) [Goes m s k free p] [∀ a, Goes m s false E (f a)] :
    Goes m s k E (p >>= f) :=
  .bind_free inferInstance fun _ => inferInstance

section Ite

variable {q : Parse α}

instance (b : Prop) [Decidable b] [Goes m s k D p] [Goes m s k D q] :
    Goes m s k D (if b then p else q) := by
  split <;> infer_instance

instance (priority := 1200) [h : Goes m s k D p] : Goes m s k D (if true = true then p else q) := h
instance (priority := 1200) [h : Goes m s k D q] : Goes m s k D (if false = true then p else q) := h
instance (priority := 1200) [h : Goes m s k D q] : Goes m s k D (if (!true) = true then p else q) := h
instance (priority := 1200) [h : Goes m s k D p] : Goes m s k D (if (!false) = true then p else q) :=
  h

end Ite

/-- A reading that leaves the tokens as they are. -/
theorem goes_of_rest (h : ∀ c, ∃ a c', p c = .ok a c' ∧ c'.rest = c.rest) : Goes m s k free p where
  run {c} hc hl hk := by
    obtain ⟨a, c', hp, hrest⟩ := h c
    rw [hp]
    exact ⟨⟨hrest ▸ suffix_refl _, hrest ▸ hc.ne_nil⟩, Nat.le_of_eq (by rw [hrest]; rfl)⟩

instance (message : String) (span : Span) : Goes m s k free (report message span) :=
  goes_of_rest fun _ => ⟨_, _, rfl, rfl⟩

theorem ended_fail {message : String} {span : Span} (hc : c.Closed) :
    Ended D c (fail message span c) :=
  show c.To _ from ⟨suffix_refl _, hc.ne_nil⟩

instance (message : String) (span : Span) : Goes m s k D (fail message span : Parse α) :=
  ⟨fun hc _ _ => ended_fail hc⟩

theorem ended_advance (hc : c.Closed) : Ended free c (advance c) ∧
    (c.next.kind ≠ .endMark → Ended costly c (advance c)) := by
  unfold advance
  rcases hc.next_cases with ⟨he, hrest⟩ | ⟨-, ts, hrest, hne⟩
  · rw [hrest]
    have hto : c.To { c with rest := [c.next], last := c.next } := ⟨hrest ▸ suffix_refl _, nofun⟩
    exact ⟨⟨hrest ▸ hto, Nat.le_of_eq (by rw [hrest]; rfl)⟩, fun h => absurd he h⟩
  · obtain ⟨u, us, rfl⟩ := exists_cons_of_ne_nil hne
    rw [hrest]
    have hto : c.To { c with rest := u :: us, last := c.next } := ⟨hrest ▸ suffix_cons .., hne⟩
    exact ⟨⟨hto, hto.length⟩, fun _ => ⟨hto, by simp [hrest, costly]⟩⟩

instance : Goes m s k free advance := ⟨fun hc _ _ => (ended_advance hc).1⟩
instance : Goes m s true costly advance := ⟨fun hc _ hk => (ended_advance hc).2 (hk rfl)⟩

instance (κ : Kind) (what : String) [hκ : Proper κ] : Goes m s k costly (expect κ what) where
  run {c} hc hl hk := by
    change Ended costly c ((if c.next.kind = κ then advance else fail _ _ : Parse Token) c)
    split
    · exact (ended_advance hc).2 (by rename_i h; rw [h]; exact hκ.ne)
    · exact ended_fail hc

/-- A loop ends where its passes do. -/
instance (body : σ → Parse (Pass σ β)) (x : σ) [h : ∀ x, Goes m s false Pass.cost (body x)] :
    Goes m s k free (loop body x) where
  run {c} hc hl hk := by
    clear hk
    change Ended free c (passes (c.last :: c.rest) body x c)
    have hlimit : c.rest.length < (c.last :: c.rest).length := by simp
    generalize c.last :: c.rest = limit at hlimit
    induction limit generalizing x c with
    | nil => cases hlimit
    | cons t limit ih =>
      unfold passes
      refine Ended.bind (F := free) ((h x).run hc hl nofun) (fun {step c1} _ hto hlen => ?_)
        fun _ _ => Nat.zero_le _
      cases step with
      | again y =>
        change c1.rest.length + 1 ≤ _ at hlen
        simp only [length_cons] at hlimit
        exact ih y (hto.ends hc) (by omega) (by omega)
      | leave b => exact ended_pure hto.left rfl

end Goes

section Kinds

instance : Proper .comma := ⟨nofun⟩
instance : Proper .semicolon := ⟨nofun⟩
instance : Proper .colon := ⟨nofun⟩
instance : Proper .question := ⟨nofun⟩
instance : Proper .assign := ⟨nofun⟩
instance : Proper .fatArrow := ⟨nofun⟩
instance : Proper .dot := ⟨nofun⟩
instance : Proper .identifier := ⟨nofun⟩
instance : Proper .lparen := ⟨nofun⟩
instance : Proper .rparen := ⟨nofun⟩
instance : Proper .lbracket := ⟨nofun⟩
instance : Proper .rbracket := ⟨nofun⟩
instance : Proper .lbrace := ⟨nofun⟩
instance : Proper .rbrace := ⟨nofun⟩
instance : Proper .templateTail := ⟨nofun⟩
instance : Proper .kwNew := ⟨nofun⟩
instance : Proper .kwElse := ⟨nofun⟩

end Kinds

namespace Rules

-- A rule is an instance by its parts, and the longest rules have many parts.
set_option synthInstance.maxSize 2000

variable {α : Type} {m : Nat} {s : Bool} {c c1 : Cursor}

instance : Goes m s false free semicolon := by unfold semicolon; infer_instance

instance (close : Kind) (trailing : Bool) (item : Parse α) [Goes m false false costly item]
    (acc : List α) : Goes m false false Pass.cost (commaPass close trailing item acc) := by
  unfold commaPass; dsimp only; infer_instance

instance (close : Kind) (closeName : String) (trailing : Bool) (item : Parse α) [Proper close]
    [Goes m false false costly item] :
    Goes m false false costly (commaList close closeName trailing item) := by
  unfold commaList; infer_instance

instance : Goes m s false costly params := by unfold params; infer_instance

instance (object : Expr) : Goes m s true costly (member object) := by
  unfold member; dsimp only; infer_instance

instance (t : Token) (operand : Expr) : Goes m s false free (applyPrefixed t operand) := by
  unfold applyPrefixed
  dsimp only
  split <;> infer_instance

instance (ts : List Token) (e : Expr) : Goes m s false free (applyAll ts e) := by
  fun_induction applyAll ts e <;> infer_instance

instance (acc : List Token) : Goes m s false Pass.cost (operatorPass acc) := by
  unfold operatorPass
  refine .current (fun {t} ht => ?_) fun _ => inferInstance
  rw [if_neg (by rw [ht]; decide)]
  infer_instance

/-- One token less before the next statement, unless that comes next. -/
def skipPass : Unit → Parse (Pass Unit Unit) := fun () => do
  if ← isAt .endMark then return .leave ()
  if ← isAt .semicolon then
    let _ ← advance
    return .leave ()
  if ← isAt .rbrace then return .leave ()
  let _ ← advance
  return .again ()

/-- Reading goes on behind the next semicolon or before a closing brace. -/
def skipStatement : Parse Unit := loop skipPass ()

instance (x : Unit) : Goes m s false Pass.cost (skipPass x) := by unfold skipPass; infer_instance

/-- What is passed to go on behind a statement that could not be read. -/
theorem ended_recover {n : Nat} (hc : c.Closed) (hle : c.rest.length ≤ n)
    (hk : c.rest.length = n → c.next.kind ≠ .endMark) :
    Ended (fun _ => c.rest.length + 1 - n) c (recover n c) := by
  have hskip : Goes c.rest.length false false free skipStatement := by
    unfold skipStatement; infer_instance
  change Ended _ c ((if (decide (c.rest.length = n) && !(c.next.kind == .endMark)) = true then
    advance >>= fun _ => skipStatement else skipStatement : Parse Unit) c)
  split
  · rename_i h
    rw [Bool.and_eq_true, decide_eq_true_eq] at h
    refine Ended.bind (F := free) ((ended_advance hc).2 (hk h.1)) (fun {t c1} _ hto _ => ?_)
      fun _ _ => ?_
    · exact hskip.run (hto.ends hc) hto.length nofun
    · change _ ≤ 1 + 0
      omega
  · rename_i h
    have hlt : c.rest.length < n := by
      rcases Nat.lt_or_eq_of_le hle with hlt | heq
      · exact hlt
      · exact absurd (by simpa [heq] using hk heq) h
    exact (hskip.run hc .refl nofun).mono fun _ => by omega

theorem ended_tryCatch {p : Parse α} {handler : Stop → Parse α} {D : α → Nat} (hp : Ended D c (p c))
    (hm : ∀ {c1}, c.To c1 → Ended D c (handler .misplaced c1)) :
    Ended D c (tryCatch p handler c) := by
  change Ended D c (EStateM.tryCatch p handler c)
  unfold EStateM.tryCatch
  cases hr : p c with
  | ok b c1 => rw [hr] at hp; exact hp
  | error e c1 =>
    rw [hr] at hp
    cases e with
    | misplaced => exact hm hp
    | _ => exact hp.elim

/-- The log is as it was. -/
def SameLog (c c' : Cursor) : Prop := c'.log = c.log

instance : Lawful SameLog where
  refl _ := rfl
  trans h h' := Eq.trans h' h
  move _ _ _ := rfl
  report _ _ _ := rfl
  note _ _ _ := rfl
  step _ {_ _} h hlog _ := Eq.trans h hlog

theorem edit_of_none {g : Log → Edited} (h : (g c.log).refusal = none) :
    edit g c = .ok () { c with log := (g c.log).log } := by
  unfold edit
  dsimp only
  rw [h]

/-- An edit that is not refused. -/
theorem ended_edit {g : Log → Edited} {f : Unit → Parse α} {D : α → Nat} (hne : c.rest ≠ [])
    (hnone : (g c.log).refusal = none)
    (h : Ended D { c with log := (g c.log).log } (f () { c with log := (g c.log).log })) :
    Ended D c ((edit g >>= f) c) := by
  rw [bind_of_ok (edit_of_none hnone)]
  exact h.after ⟨suffix_refl _, hne⟩ fun _ => .refl

/-- The steps of a step binding have fewer tokens than are left, also with an end mark of their own. -/
theorem length_step {only : Bool} {n : Nat} (hc : c.Closed) (hmark : isMarker c.rest)
    (hn : (Head.read only c.next c.rest.tail).length = n) {ts : List Token}
    (hts : ts ∈ (Steps.split (c.rest.drop n)).steps) : ts.length + 1 < c.rest.length := by
  obtain ⟨htake, u, vs, hleft, -⟩ :=
    @exists_extent (fun t => t.kind ≠ .endMark) _ c only hc hmark _ hn
  obtain ⟨us, hus, hk⟩ := Steps.exists_taken {} (c.rest.drop n)
  have hle := Steps.Split.length_le hts
  rw [← show Steps.kinds us = (Steps.split (c.rest.drop n)).taken from hk, Steps.kinds,
    length_map] at hle
  have hlength := congrArg List.length (take_append_drop n c.rest)
  rw [hus, length_append, length_append] at hlength
  have hpos := length_pos_iff.mpr htake
  have hpos' : 0 < (Steps.split (c.rest.drop n)).rest.length := by simp [hleft]
  change _ + (us.length + (Steps.split (c.rest.drop n)).rest.length) = _ at hlength
  omega

section Given

variable {r : Rules}

section Assignment

variable [Goes m false false costly r.assignment]

instance (acc : List Expr) : Goes m false false Pass.cost (r.sequencePass acc) := by
  unfold sequencePass; infer_instance

instance [Goes m s false costly r.assignment] : Goes m s false costly r.expression := by
  unfold expression; infer_instance

instance : Goes m false false costly r.wholeStep := by unfold wholeStep; infer_instance

instance : Goes m s false costly r.property := by
  unfold property
  dsimp only
  refine .current (fun {t} ht => ?_) fun _ => inferInstance
  rw [if_neg (by rw [ht]; decide)]
  infer_instance

instance : Goes m s true costly r.object := by unfold object; infer_instance
instance : Goes m s true costly r.array := by unfold array; infer_instance

instance (acc : List String × List Expr) : Goes m false false Pass.cost (r.templatePass acc) := by
  unfold templatePass; infer_instance

instance : Goes m s true costly r.template := by
  unfold template
  refine .bind_costly inferInstance fun start => .bind_free inferInstance fun parts => ?_
  split
  infer_instance

instance : Goes m s true costly r.args := by unfold args; infer_instance
instance (object : Expr) : Goes m s true costly (r.index object) := by unfold index; infer_instance

instance (e : Expr) : Goes m false false Pass.cost (r.memberPass e) := by
  unfold memberPass; infer_instance

instance (e : Expr) : Goes m false false Pass.cost (r.callPass e) := by
  unfold callPass; infer_instance

instance (keyword name : Token) : Goes m false false free (r.initializer keyword name) := by
  unfold initializer; infer_instance

instance (keyword : Token) : Goes m s false costly (r.declarator keyword) := by
  unfold declarator; infer_instance

instance (keyword : Token) (acc : List Declarator) :
    Goes m false false Pass.cost (r.declaratorPass keyword acc) := by
  unfold declaratorPass; infer_instance

instance : Goes m s true costly r.declaration := by unfold declaration; infer_instance
instance : Goes m s false costly r.test := by unfold test; infer_instance
instance : Goes m s true costly r.returnStmt := by unfold returnStmt; infer_instance

instance (stop : Kind) : Goes m false false free (r.optional stop) := by
  unfold optional; infer_instance

instance : Goes m false false free r.forInit := by
  unfold forInit
  dsimp only
  have (tokens : List Token) : Goes m false false free (do
      if (← current).kind.isDeclarator && !Construct.isMarker tokens then
        return some (← r.declaration)
      let e ← r.expression
      return some (.expr e.span e) : Parse (Option Stmt)) := by
    refine .current (fun {t} ht => ?_) fun _ => inferInstance
    rw [if_neg (by rw [ht]; exact nofun)]
    infer_instance
  infer_instance

end Assignment

section Statement

variable [Goes m false false costly r.statement]

/-- A statement is read, or a token is passed. -/
instance (stop : Kind) : Goes m false true costly (r.statement? stop) where
  run {c} hc hl hk := by
    unfold statement?
    change Ended costly c ((tryCatch _ _ : Parse (Option Stmt)) c)
    refine ended_tryCatch ((inferInstance : Goes m false false costly
      (do return some (← r.statement) : Parse (Option Stmt))).run hc hl nofun) fun {c1} hto => ?_
    have hrecover := ended_recover (n := c.rest.length) (hto.ends hc) hto.length
      fun hlen => by rw [hto.next hlen]; exact hk rfl
    refine Ended.after (D := fun _ => c1.rest.length + 1 - c.rest.length) (.bind (F := free) hrecover
      (fun {u c2} _ hto' _ => ?_) fun _ _ => .refl) hto fun a => ?_
    · have : Goes c2.rest.length false false free (do
          if stop = .endMark && (← isAt .rbrace) then
            report "unexpected '\x7d'" (← current).span
            let _ ← advance
          return none : Parse (Option Stmt)) := by
        dsimp only
        infer_instance
      exact this.run (hto'.ends (hto.ends hc)) .refl nofun
    · have := hto.length
      change _ + 1 ≤ _
      omega

instance (stop : Kind) (acc : List Stmt) : Goes m false false Pass.cost (r.statementPass stop acc) where
  run {c} hc hl hk := by
    unfold statementPass
    change Ended _ c ((if [stop, .endMark].contains c.next.kind = true then _ else _ : Parse _) c)
    split
    · exact ended_pure hc.ne_nil rfl
    · rename_i hne
      have : Goes m false true Pass.cost (do
          match ← r.statement? stop with
          | some s => return .again (s :: acc)
          | none => return .again acc : Parse (Pass (List Stmt) (List Stmt))) := by
        refine .bind_costly inferInstance fun s => ?_
        cases s <;> infer_instance
      exact this.run hc hl fun _ hend => hne (by simp [hend])

instance (stop : Kind) : Goes m false false free (r.statements stop) := by
  unfold statements; infer_instance

instance : Goes m s false costly r.body := by unfold body; infer_instance
instance : Goes m s false costly r.block := by unfold block; infer_instance
instance : Goes m s true costly r.functionExpr := by unfold functionExpr; infer_instance
instance : Goes m s true costly r.functionDecl := by unfold functionDecl; infer_instance

end Statement

variable [Goes m false false costly r.assignment] [Goes m false false costly r.statement]

instance : Goes m s false costly r.arrow := by
  unfold arrow
  dsimp only
  infer_instance

instance : Goes m s false costly r.primary := by
  unfold primary
  refine .current (fun {t} ht => ?_) fun {t} _ => ?_
  · rw [ht]
    infer_instance
  · split <;> infer_instance

instance : Goes m s true costly r.new := by unfold new; infer_instance
instance : Goes m s false costly r.callMember := by unfold callMember; infer_instance

instance : Goes m s false costly r.postfixed := by
  unfold postfixed
  refine .bind_costly inferInstance fun e => .bind_look fun t => ?_
  split <;> infer_instance

instance : Goes m s false costly r.unary := by unfold unary; infer_instance

instance (acc : List (BinaryOp × Expr)) : Goes m false false Pass.cost (r.chainPass acc) := by
  unfold chainPass
  refine .current (fun {t} ht => ?_) fun {t} _ => ?_
  · rw [ht]
    exact inferInstanceAs (Goes m false false Pass.cost (pure (.leave acc.reverse)))
  · split <;> infer_instance

instance : Goes m s false costly r.binary := by unfold binary; infer_instance
instance : Goes m s false costly r.conditional := by unfold conditional; infer_instance
instance : Goes m s true costly r.ifStmt := by unfold ifStmt; infer_instance
instance : Goes m s true costly r.whileStmt := by unfold whileStmt; infer_instance
instance : Goes m s true costly r.forStmt := by unfold forStmt; dsimp only; infer_instance

section Construct

set_option linter.unusedSectionVars false

/-- A step is read from its own tokens, and what is wrong with it stays inside. -/
theorem exists_step (hkinds : ∀ t ∈ tokens, t.kind ≠ .endMark) (hlen : tokens.length < m)
    (c : Cursor) : ∃ a c', r.step tokens c = .ok a c' := by
  unfold step
  cases tokens with
  | nil => exact ⟨_, _, rfl⟩
  | cons first more =>
    dsimp only
    generalize hsub0 : ({ rest := first :: more ++ [_], last := first, log := c.log } : Cursor) = sub0
    have hclosed : sub0.Closed := hsub0 ▸ ⟨_, _, rfl, rfl, hkinds⟩
    have hrun : Ended costly sub0 (r.wholeStep sub0) :=
      Goes.run (m := m) (s := false) (k := false) hclosed (by
        rw [← hsub0]
        simpa [Nat.succ_le_iff] using hlen) nofun
    split
    · exact ⟨_, _, rfl⟩
    · exact ⟨_, _, rfl⟩
    · rename_i other sub hne hsub
      rw [hsub] at hrun
      cases other with
      | misplaced => exact absurd rfl hne
      | _ => exact hrun.elim

theorem exists_readSteps (equals : Token) {following : List Token}
    (hlen : ∀ ts ∈ (Steps.split following).steps, ts.length < m) (c : Cursor) :
    ∃ p c', r.readSteps equals following (Steps.split following) c = .ok p c' := by
  have hlist (lists : List (List Token)) (hkinds : ∀ ts ∈ lists, ∀ t ∈ ts, t.kind ≠ .endMark)
      (hlen : ∀ ts ∈ lists, ts.length < m) (c : Cursor) : ∃ p c', r.stepList lists c = .ok p c' := by
    fun_induction stepList r lists generalizing c with
    | case1 => exact ⟨_, _, rfl⟩
    | case2 later ih =>
      exact ih (fun ts hts => hkinds ts (mem_cons_of_mem _ hts))
        (fun ts hts => hlen ts (mem_cons_of_mem _ hts)) c
    | case3 tokens later hne ih =>
      obtain ⟨a, c1, hstep⟩ := exists_step (r := r) (hkinds tokens mem_cons_self)
        (hlen tokens mem_cons_self) c
      obtain ⟨q, c2, hlater⟩ := ih (fun ts hts => hkinds ts (mem_cons_of_mem _ hts))
        (fun ts hts => hlen ts (mem_cons_of_mem _ hts)) c1
      rw [bind_of_ok hstep]
      cases a <;> exact ⟨_, _, bind_of_ok hlater⟩
  unfold readSteps
  split
  · exact ⟨_, _, rfl⟩
  · obtain ⟨q, c1, hok⟩ := hlist _ (fun ts hts t ht => (Steps.mem_of_mem_steps hts ht).2) hlen
      { c with diagnostics := c.diagnostics ++ emptySteps (Steps.split following) following }
    exact ⟨_, _, bind_of_ok hok⟩

variable [Keeps r.assignment] [∀ n, KeepsTo (Cursor.Spares n) r.assignment]

/-- A step binding is read to its end, and none of its edits is refused. -/
theorem ended_construct {only : Bool} (hr : Sound (fun t => t.kind ≠ .endMark) False r)
    (hc : c.Closed) (hmark : isMarker c.rest) (hl : c.rest.length ≤ m + 1) :
    Ended costly c (r.construct only c) := by
  rw [construct_eq]
  have hextent := @exists_extent (fun t => t.kind ≠ .endMark) _ c only hc hmark _ rfl
  have hshort {ts : List Token} := @length_step c only _ hc hmark rfl ts
  have hempty : (Head.read only c.next c.rest.tail).hasSteps = false →
      (Head.read only c.next c.rest.tail).errors ≠ [] := Head.errors_ne_nil
  generalize Head.read only c.next c.rest.tail = head at *
  dsimp only
  generalize hc2 : ({ c with
    log := c.log.enter head.form head.span (head.binding.map Token.text)
    diagnostics := c.diagnostics ++ head.errors } : Cursor) = c2
  obtain ⟨htake, u, vs, hleft, -⟩ := hextent
  have hrest2 : c2.rest = c.rest := by rw [← hc2]
  have hsize2 : c2.log.size = c.log.size + 1 := by rw [← hc2]; exact Log.size_enter ..
  have hget2 : c2.log.get? c.log.size = some
      { index := c.log.size, form := head.form, span := head.span,
        binding := head.binding.map Token.text } := by
    rw [← hc2]
    exact (Log.get?_enter _).trans (if_pos rfl)
  have hlength : (Steps.split (c.rest.drop head.length)).rest.length + 1 ≤ c.rest.length := by
    have hle := (Steps.rest_suffix {} (c.rest.drop head.length)).length_le
    have hpos := length_pos_iff.mpr htake
    rw [length_take] at hpos
    rw [length_drop] at hle
    change (Steps.split _).rest.length ≤ _ at hle
    omega
  have hskip {c3 : Cursor} (hrest3 : c3.rest = c.rest) :
      ∃ c4, skipTo (Steps.split (c.rest.drop head.length)).rest c3 = .ok () c4 ∧
        c4.log = c3.log ∧ c.To c4 ∧ c4.rest.length + 1 ≤ c.rest.length := by
    refine ⟨_, rfl, rfl, ⟨?_, fun hnil => ?_⟩, hlength⟩
    · exact (Steps.rest_suffix {} _).trans (drop_suffix ..)
    · cases hleft.symm.trans hnil
  unfold finish
  split
  · rename_i hno
    obtain ⟨c4, hok4, hlog4, hto4, hlen4⟩ := hskip hrest2
    have hc4 := hto4.ends hc
    have hlast {c5 : Cursor} (hc5 : c5.Closed) (hlog : SameLog c4 c5) : Ended free c5 ((do
        let span ← spanFrom head.keyword.span
        edit fun log => log.rejectWith c.log.size (head.errors.map Diagnostic.code)
        pure (.rejected head.form span c.log.size) : Parse Outcome) c5) := by
      have hget5 := hget2
      rw [← show c5.log = c2.log from Eq.trans hlog hlog4] at hget5
      exact ended_edit (g := fun log => log.rejectWith _ _) hc5.ne_nil
        (Log.refusal_rejectWith hget5 (by rintro ⟨⟩)) (by apply ended_pure; exacts [hc5.ne_nil, rfl])
    unfold abandon
    rw [bind_of_ok hok4]
    refine Ended.after (D := free) ?_ hto4 fun _ => hlen4
    dsimp only
    split
    · change Ended free c4 ((if (c4.next.kind == .semicolon) = true then _ else _ : Parse _) c4)
      split
      · exact (ended_advance hc4).1.bind (fun {t c5} hadv hto _ =>
          hlast (hto.ends hc4) (KeepsTo.of_ok hadv)) fun _ _ => Nat.zero_le _
      · exact hlast hc4 rfl
    · exact hlast hc4 rfl
  · have hsteps (ts : List Token) (hts : ts ∈ (Steps.split (c.rest.drop head.length)).steps) :
        ts.length < m := by
      have := hshort hts
      omega
    obtain ⟨⟨steps, codes⟩, c3, hok3⟩ := exists_readSteps (r := r)
      ((c.rest[head.length - 1]?).getD c.next) hsteps c2
    have hread := reads_readSteps hr (fun _ _ => id) hok3 False.elim
    have hgrows := extends_of_spares hok3
    obtain ⟨c4, hok4, hlog4, hto4, hlen4⟩ := hskip (hread.rest.trans hrest2)
    have hc4 := hto4.ends hc
    have hget4 := (hgrows.get? c.log.size (by omega)).trans hget2
    rw [bind_of_ok hok3]
    dsimp only
    rw [bind_of_ok hok4]
    refine Ended.after (D := free) ?_ hto4 fun _ => hlen4
    rw [← hlog4] at hget4
    unfold conclude
    dsimp only
    change Ended free c4 ((if _ then _ else _ : Parse Outcome) c4)
    split
    · refine ended_edit (g := fun log => log.advance _ _) hc4.ne_nil (Log.refusal_advance hget4 rfl) ?_
      exact Goes.run (m := c4.rest.length) (s := false) (k := false) hc4 .refl nofun
    · have hlast {c5 : Cursor} (hc5 : c5.Closed) (hlog : SameLog c4 c5) {span : Span} :
          Ended free c5 ((do
            edit fun log => log.rejectAll
              ((head.errors.map Diagnostic.code ++ codes).headD .grammar) (Tree.constructs steps)
            edit fun log => log.rejectWith c.log.size (head.errors.map Diagnostic.code ++ codes)
            pure (.rejected head.form span c.log.size) : Parse Outcome) c5) := by
        have hbounds {i : Nat} (hi : i ∈ Tree.constructs steps) := hread.filed.mem_bounds hi
        have hlog5 : c5.log = c3.log := Eq.trans hlog hlog4
        have hnone : (c5.log.rejectAll ((head.errors.map Diagnostic.code ++ codes).headD .grammar)
            (Tree.constructs steps)).refusal = none :=
          Log.refusal_rejectAll fun i hi => hlog5 ▸ (hbounds hi).2
        have hnot : c.log.size ∉ Tree.constructs steps := fun hi => by
          have := (hbounds hi).1
          omega
        have hget5 := Log.get?_rejectAll hnone c.log.size
        rw [show c5.log.get? c.log.size = _ from (congrArg (Log.get? · _) hlog).trans hget4,
          Option.map_some, if_neg (fun h => hnot h.1)] at hget5
        refine ended_edit (g := fun log => log.rejectAll _ _) hc5.ne_nil hnone ?_
        exact ended_edit (g := fun log => log.rejectWith _ _) hc5.ne_nil
          (Log.refusal_rejectWith hget5 (by rintro ⟨⟩)) (by apply ended_pure; exacts [hc5.ne_nil, rfl])
      split
      · exact ((inferInstance : Goes c4.rest.length false false free semicolon).run hc4 .refl
          nofun).bind (fun {t c5} hsemi hto _ => hlast (hto.ends hc4) (KeepsTo.of_ok hsemi))
          fun _ _ => Nat.zero_le _
      · exact hlast hc4 rfl

theorem ended_assignmentRule (hr : Sound (fun t => t.kind ≠ .endMark) False r) :
    Goes m true false costly r.assignmentRule where
  run {c} hc hl _ := by
    unfold assignmentRule
    change Ended costly c ((if isMarker c.rest then r.constructExpr else
      if isArrowStart c.rest then r.arrow else _ : Parse Expr) c)
    split
    · unfold constructExpr
      exact (ended_construct hr hc ‹_› hl).bind (F := free) (fun {o _} _ hto _ => by
        cases o <;> exact ended_pure hto.left rfl) fun _ _ => .refl
    split
    · exact Goes.run (m := m) (s := true) (k := false) hc hl nofun
    · refine (?_ : Goes m true false costly _).run hc hl nofun
      refine .bind_costly inferInstance fun left => .bind_look fun t => ?_
      split <;> infer_instance

theorem ended_statementRule (hr : Sound (fun t => t.kind ≠ .endMark) False r)
    [Goes m true false costly r.assignment] : Goes m true false costly r.statementRule where
  run {c} hc hl _ := by
    unfold statementRule
    change Ended costly c ((if c.next.kind.isDeclarator then
      (do if isMarker (← get).rest then r.constructStmt else _) else _ : Parse Stmt) c)
    split
    · rename_i hdecl
      change Ended costly c ((if isMarker c.rest then r.constructStmt else _ : Parse Stmt) c)
      split
      · unfold constructStmt
        refine (ended_construct hr hc ‹_› hl).bind (F := free) (fun {o c1} _ hto _ => ?_)
          fun _ _ => .refl
        have hrun {p : Parse Stmt} (h : Goes c1.rest.length false false free p) :
          Ended free c1 (p c1) :=
          h.run (hto.ends hc) .refl nofun
        cases o with
        | accepted head span index steps =>
          dsimp only
          cases head.result <;> exact hrun inferInstance
        | rejected form span index =>
          dsimp only
          exact hrun inferInstance
      · exact Goes.run (m := m) (s := true) (k := true) hc hl fun _ => ne_endMark hdecl (by decide)
    · generalize hnext : c.rest.headD c.last = t
      refine @Goes.run _ m true (t.kind != .endMark) costly _ ?_ c hc hl fun h => by
        rw [show c.next = t from hnext]
        simpa using h
      split
      case h_9 hk =>
        rw [hk]
        change Goes m true true costly _
        refine .bind_costly inferInstance fun b => ?_
        split
        infer_instance
      case h_11 =>
        have : Goes m true (t.kind != .endMark) costly r.expression :=
          ⟨fun hc hl _ => Goes.run (m := m) (s := true) (k := false) hc hl nofun⟩
        infer_instance
      all_goals
        rename_i hk
        rw [hk]
        exact inferInstanceAs (Goes m true true costly _)

end Construct

end Given

end Rules

section Steady

variable {α β σ : Type}

/-- A reading that never stops at a misplaced token. -/
class Steady (p : Parse α) : Prop where
  ne_misplaced : ∀ c c', p c ≠ .error .misplaced c'

theorem steady_of_ok {p : Parse α} (h : ∀ c, ∃ a c', p c = .ok a c') : Steady p where
  ne_misplaced c c' hp := by
    obtain ⟨a, c1, hok⟩ := h c
    cases hok.symm.trans hp

theorem Steady.bind {p : Parse α} {f : α → Parse β} (hp : Steady p) (hf : ∀ a, Steady (f a)) :
    Steady (p >>= f) where
  ne_misplaced c c' h := by
    cases hr : p c with
    | ok a c1 =>
      rw [bind_of_ok hr] at h
      exact (hf a).ne_misplaced c1 c' h
    | error e c1 =>
      rw [bind_of_error hr] at h
      cases h
      exact hp.ne_misplaced c c' hr

instance (p : Parse α) [h : Peeks p] : Steady p := steady_of_ok fun c => (h.run c).imp fun _ h => ⟨c, h⟩
instance (message : String) (span : Span) : Steady (report message span) :=
  steady_of_ok fun _ => ⟨(), _, rfl⟩

instance : Steady advance := steady_of_ok fun c => by
  unfold advance
  split <;> exact ⟨_, _, rfl⟩

instance (p : Parse α) (f : α → Parse β) [Steady p] [∀ a, Steady (f a)] : Steady (p >>= f) :=
  .bind inferInstance fun _ => inferInstance

instance (q : Prop) [Decidable q] (p1 p2 : Parse α) [Steady p1] [Steady p2] :
    Steady (if q then p1 else p2) := by
  split <;> infer_instance

instance (body : σ → Parse (Pass σ β)) [∀ s, Steady (body s)] (s : σ) : Steady (loop body s) := by
  refine .bind inferInstance fun c => ?_
  generalize c.last :: c.rest = limit
  induction limit generalizing s with
  | nil => exact ⟨fun _ _ h => by cases h⟩
  | cons t limit ih =>
    unfold passes
    refine .bind inferInstance fun step => ?_
    cases step with
    | again s' => exact ih s'
    | leave b => infer_instance

theorem steady_tryCatch {p : Parse α} {handler : Stop → Parse α} (hm : Steady (handler .misplaced))
    (ho : ∀ e ≠ .misplaced, handler e = throw e) : Steady (tryCatch p handler) where
  ne_misplaced c c' h := by
    change EStateM.tryCatch p handler c = _ at h
    unfold EStateM.tryCatch at h
    cases hr : p c with
    | ok a c1 => rw [hr] at h; cases h
    | error e c1 =>
      rw [hr] at h
      by_cases he : e = .misplaced
      · subst he
        exact hm.ne_misplaced _ _ h
      · dsimp only at h
        rw [ho e he] at h
        cases h
        exact he rfl

set_option synthInstance.maxSize 1000 in
instance (unread : Nat) : Steady (Rules.recover unread) := by
  unfold Rules.recover
  refine .bind inferInstance fun c => .bind inferInstance fun atEnd => ?_
  dsimp only
  infer_instance

/-- What cannot be read of a list of statements is left out, and reading goes on. -/
instance (r : Rules) (stop : Kind) : Steady (r.statement? stop) := by
  refine .bind inferInstance fun c => steady_tryCatch ?_ fun e he => ?_
  · dsimp only
    infer_instance
  · cases e with
    | misplaced => exact absurd rfl he
    | _ => rfl

instance (r : Rules) (stop : Kind) (acc : List Stmt) : Steady (r.statementPass stop acc) := by
  unfold Rules.statementPass
  refine .bind inferInstance fun atEnd => ?_
  split
  · infer_instance
  · refine .bind inferInstance fun s => ?_
    cases s <;> infer_instance

instance (r : Rules) (stop : Kind) : Steady (r.statements stop) := by
  unfold Rules.statements; infer_instance

theorem Ended.exists_ok {D : α → Nat} {p : Parse α} [hs : Steady p] {c : Cursor}
    (h : Ended D c (p c)) : ∃ a c', p c = .ok a c' ∧
      Ended D c (.ok a c' : EStateM.Result Stop Cursor α) := by
  cases hread : p c with
  | ok a c' => exact ⟨a, c', rfl, hread ▸ h⟩
  | error why c' =>
    rw [hread] at h
    cases why with
    | misplaced => exact absurd hread (hs.ne_misplaced _ _)
    | _ => exact h.elim

end Steady

/-- The bound on the uses of the knot is enough. -/
theorem rules_go (n : Nat) {m : Nat} :
    (2 * m < n → Goes m false false costly (rules n).assignment) ∧
      (2 * m + 1 < n → Goes m false false costly (rules n).statement) := by
  induction n generalizing m with
  | zero => exact ⟨nofun, nofun⟩
  | succ n ih =>
    cases m with
    | zero =>
      -- There is always the end mark.
      have hnone {α : Type} {p : Parse α} : Goes 0 false false costly p :=
        ⟨fun {c} hc hl => absurd (length_pos_iff.mpr hc.ne_nil) (Nat.not_lt.mpr hl)⟩
      exact ⟨fun _ => hnone, fun _ => hnone⟩
    | succ m =>
      refine ⟨fun hn => ?_, fun hn => ?_⟩
      · have := (ih (m := m)).1 (by omega)
        have := (ih (m := m)).2 (by omega)
        exact ⟨(Rules.ended_assignmentRule (rules_spare n).1).run⟩
      · have : Goes m true false costly (rules n).assignment := ⟨((ih (m := m + 1)).1 (by omega)).run⟩
        have := (ih (m := m)).2 (by omega)
        exact ⟨(Rules.ended_statementRule (rules_spare n).1).run⟩

section Bounded

variable {c c' : Cursor} {n : Nat}

theorem ended_assignment (hc : c.Closed) (hn : 2 * c.rest.length < n) :
    Ended costly c ((rules n).assignment c) :=
  ((rules_go n).1 hn).run hc .refl nofun

theorem ended_statement (hc : c.Closed) (hn : 2 * c.rest.length + 1 < n) :
    Ended costly c ((rules n).statement c) :=
  ((rules_go n).2 hn).run hc .refl nofun

theorem ended_statement? (hc : c.Closed) (hn : 2 * c.rest.length + 1 < n) (stop : Kind)
    (hk : c.next.kind ≠ .endMark) : Ended costly c ((rules n).statement? stop c) := by
  have := (rules_go n).2 hn
  exact Goes.run (m := c.rest.length) (s := false) (k := true) hc .refl fun _ => hk

/-- Statements are always read: what is misplaced in one of them does not stop the others. -/
theorem exists_statements (hc : c.Closed) (hn : 2 * c.rest.length + 1 < n) (stop : Kind) :
    ∃ ss c', (rules n).statements stop c = .ok ss c' ∧ c.To c' := by
  have := (rules_go n).2 hn
  have hrun : Ended free c ((rules n).statements stop c) :=
    Goes.run (m := c.rest.length) (s := false) (k := false) hc .refl nofun
  obtain ⟨ss, c', hread, hto⟩ := hrun.exists_ok
  exact ⟨ss, c', hread, hto.1⟩

end Bounded

namespace Program

open StepBinding.Tree

/-- A token stream is always read to its end, and if there is a module the log tells the same of its
step bindings. -/
theorem exists_ofTokens (file : String) (hclosed : (Cursor.start tokens).Closed) :
    ∃ p, ofTokens file tokens = .ok p ∧ ∀ m, p.module? = some m →
      (numbers (walkStmts m.body)).Pairwise (· < ·) ∧
      ∀ n ∈ walkStmts m.body, Recorded p.log n := by
  obtain ⟨body, c, hread, -⟩ :=
    exists_statements (n := 2 * tokens.length + 2) hclosed (by simp [Cursor.start]) .endMark
  obtain ⟨p, hp⟩ : ∃ p, ofTokens file tokens = .ok p := by
    unfold ofTokens
    unfold Cursor.start at hread
    dsimp only
    rw [hread]
    exact ⟨_, rfl⟩
  refine ⟨p, hp, fun m hm => ?_⟩
  obtain ⟨ks, c, hmoves, hlog, -⟩ := moves_ofTokens hclosed hp hm
  have hfiled := hmoves.enters.filed
  rw [walks_stmts, hlog] at hfiled
  exact ⟨hfiled.sorted, hfiled.recorded⟩

end Program

end StepBinding.Grammar
