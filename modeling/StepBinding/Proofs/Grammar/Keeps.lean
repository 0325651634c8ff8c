import StepBinding.Grammar.Program
import StepBinding.Proofs.Construct.Heads
import StepBinding.Proofs.Construct.Records

/-! Reading forgets nothing that it has gathered. A faulty cursor stays faulty, diagnostics and
records are only added, and reading stops at a misplaced token only after an error was reported. So a
reading that ends with a cursor that is not faulty met no token out of place on the way, and
every part of it ended the same way. -/

namespace StepBinding.Grammar

open List Token Construct

variable {codes : List Code} {c c' c'' : Cursor} {e : Stop} {es : List Expr}

/-- Codes for which a step binding can be rejected. -/
class Reasons (codes : List Code) : Prop where
  noWarning : .shadowing ∉ codes

theorem Reasons.headD (h : Reasons codes) : codes.headD .grammar ≠ .shadowing := by
  cases codes with
  | nil => decide
  | cons code codes => exact fun hcode => h.noWarning (hcode ▸ mem_cons_self)

instance (codes codes' : List Code) [h : Reasons codes] [h' : Reasons codes'] :
    Reasons (codes ++ codes') where
  noWarning hmem := (mem_append.mp hmem).elim h.noWarning h'.noWarning

instance (only : Bool) (keyword : Token) (rest : List Token) :
    Reasons ((Head.read only keyword rest).errors.map Diagnostic.code) where
  noWarning hmem := by
    obtain ⟨d, hd, hcode⟩ := mem_map.mp hmem
    exact (Head.isError_of_mem_errors hd).2 hcode

namespace Cursor

/-- A faulty cursor holds the error that made it faulty. -/
def Honest (c : Cursor) : Prop := c.faulty = true → ∃ d ∈ c.diagnostics, d.isError = true

/-- What was gathered up to `c` is still there in `c'`. -/
structure Leads (c c' : Cursor) : Prop where
  faulty : c.faulty = true → c'.faulty = true
  diagnostics : c.diagnostics <+: c'.diagnostics
  honest : c.Honest → c'.Honest
  reasons : Reasons (c.diagnostics.map Diagnostic.code) → Reasons (c'.diagnostics.map Diagnostic.code)
  log : c.log.Leads c'.log

theorem Leads.refl (c : Cursor) : c.Leads c := ⟨id, prefix_refl _, id, id, .refl _⟩

theorem Leads.trans {c₁ c₂ c₃ : Cursor} (h : c₁.Leads c₂) (h' : c₂.Leads c₃) : c₁.Leads c₃ :=
  ⟨h'.faulty ∘ h.faulty, h.diagnostics.trans h'.diagnostics, h'.honest ∘ h.honest,
    h'.reasons ∘ h.reasons, h.log.trans h'.log⟩

/-- Moving among the tokens and adding to the log leaves what was gathered. -/
theorem Leads.of_eq (hf : c'.faulty = c.faulty) (hd : c'.diagnostics = c.diagnostics)
    (hl : c.log.Leads c'.log) : c.Leads c' where
  faulty h := hf.trans h
  diagnostics := hd ▸ prefix_refl _
  honest h hc' := by rw [hd]; exact h (hf.symm.trans hc')
  reasons h := by rwa [hd]
  log := hl

/-- Diagnostics may be added that are no warnings. -/
theorem Leads.of_append {ds : List Diagnostic} (hf : c'.faulty = c.faulty)
    (hd : c'.diagnostics = c.diagnostics ++ ds) (hds : Reasons (ds.map Diagnostic.code))
    (hl : c.log.Leads c'.log) : c.Leads c' where
  faulty h := hf.trans h
  diagnostics := ⟨ds, hd.symm⟩
  reasons h := by
    rw [hd, map_append]
    infer_instance
  log := hl
  honest h hc' := by
    obtain ⟨d, hd', he⟩ := h (hf.symm.trans hc')
    exact ⟨d, hd ▸ mem_append_left _ hd', he⟩

end Cursor

/-- A relation between cursors that is kept where tokens are passed, diagnostics are added and a
step is read aside. -/
class Lawful (R : Cursor → Cursor → Prop) : Prop where
  refl : ∀ c, R c c
  trans : ∀ {c₁ c₂ c₃}, R c₁ c₂ → R c₂ c₃ → R c₁ c₃
  move : ∀ c rest last, R c { c with rest, last }
  report : ∀ c message span, R c
    { c with diagnostics := c.diagnostics ++ [Diagnostic.error .grammar message span], faulty := true }
  note : ∀ c ds, Reasons (ds.map Diagnostic.code) →
    R c { c with diagnostics := c.diagnostics ++ ds }
  step : ∀ c {sub₀ sub}, R sub₀ sub → sub₀.log = c.log → sub₀.diagnostics = [] →
    R c { c with diagnostics := c.diagnostics ++ sub.diagnostics, log := sub.log }

instance : Lawful Cursor.Leads where
  refl := .refl
  trans := .trans
  move c rest last := .of_eq rfl rfl (.refl _)
  report c message span := {
    faulty := fun _ => rfl
    diagnostics := ⟨_, rfl⟩
    honest := fun _ _ => ⟨_, mem_append_right _ (mem_singleton_self _), rfl⟩
    reasons := fun h => by
      have : Reasons [Code.grammar] := ⟨by decide⟩
      rw [map_append]
      exact inferInstanceAs (Reasons (c.diagnostics.map Diagnostic.code ++ [Code.grammar]))
    log := .refl _ }
  note c ds h := .of_append rfl rfl h (.refl _)
  step c {sub₀ sub} h hlog hnil :=
    .of_append rfl rfl (h.reasons ⟨by rw [hnil]; exact nofun⟩) (hlog ▸ h.log)

/-- A reading that keeps to a relation, and reports every token out of place. -/
class KeepsTo (R : Cursor → Cursor → Prop) {α : Type} (p : Parse α) : Prop where
  of_ok : ∀ {c a c'}, p c = .ok a c' → R c c'
  of_misplaced : ∀ {c c'}, p c = .error .misplaced c' → R c c' ∧ c'.faulty = true

/-- A reading that forgets nothing and reports every token out of place. -/
abbrev Keeps {α : Type} (p : Parse α) : Prop := KeepsTo Cursor.Leads p

section Base

variable {α β : Type} {R : Cursor → Cursor → Prop} [Lawful R]

/-- A reading that never stops and moves only among the tokens. -/
theorem keeps_of_eq {p : Parse α} (h : ∀ c, ∃ a rest last, p c = .ok a { c with rest, last }) :
    KeepsTo R p where
  of_ok {c a c'} hp := by
    obtain ⟨b, rest, last, h⟩ := h c
    cases h.symm.trans hp
    exact Lawful.move c rest last
  of_misplaced {c c'} hp := by
    obtain ⟨b, rest, last, h⟩ := h c
    cases h.symm.trans hp

instance (a : α) : KeepsTo R (pure a : Parse α) := keeps_of_eq fun c => ⟨a, c.rest, c.last, rfl⟩

theorem bind_eq_ok {p : Parse α} {f : α → Parse β} {b : β} (h : (p >>= f) c = .ok b c'') :
    ∃ a c', p c = .ok a c' ∧ f a c' = .ok b c'' := by
  change EStateM.bind p f c = _ at h
  unfold EStateM.bind at h
  cases hm : p c with
  | ok a c' => rw [hm] at h; exact ⟨a, c', rfl, h⟩
  | error e c' => rw [hm] at h; cases h

theorem bind_eq_error {p : Parse α} {f : α → Parse β} (h : (p >>= f) c = .error e c'') :
    p c = .error e c'' ∨ ∃ a c', p c = .ok a c' ∧ f a c' = .error e c'' := by
  change EStateM.bind p f c = _ at h
  unfold EStateM.bind at h
  cases hm : p c with
  | ok a c' => rw [hm] at h; exact .inr ⟨a, c', rfl, h⟩
  | error e c' => rw [hm] at h; cases h; exact .inl rfl

theorem bind_of_ok {p : Parse α} {f : α → Parse β} {a : α} (h : p c = .ok a c') :
    (p >>= f) c = f a c' := by
  change EStateM.bind p f c = _
  rw [EStateM.bind, h]

theorem bind_of_error {p : Parse α} {f : α → Parse β} (h : p c = .error e c') :
    (p >>= f) c = .error e c' := by
  change EStateM.bind p f c = _
  rw [EStateM.bind, h]

theorem modify_run (g : Cursor → Cursor) : (modify g : Parse Unit) c = .ok () (g c) :=
  rfl

/-- The second part has to keep to the relation after what the first part can give it. -/
theorem KeepsTo.bind_of {p : Parse α} {f : α → Parse β} (hp : KeepsTo R p)
    (hf : ∀ {c a c'}, p c = .ok a c' → KeepsTo R (f a)) : KeepsTo R (p >>= f) where
  of_ok h := by
    obtain ⟨a, c', hm, h⟩ := bind_eq_ok h
    exact Lawful.trans (hp.of_ok hm) ((hf hm).of_ok h)
  of_misplaced {c c''} h := by
    change EStateM.bind p f c = _ at h
    unfold EStateM.bind at h
    cases hm : p c with
    | ok a c' =>
      rw [hm] at h
      obtain ⟨hl, hc⟩ := (hf hm).of_misplaced h
      exact ⟨Lawful.trans (hp.of_ok hm) hl, hc⟩
    | error e c' => rw [hm] at h; cases h; exact hp.of_misplaced hm

theorem KeepsTo.bind {p : Parse α} {f : α → Parse β} (hp : KeepsTo R p)
    (hf : ∀ a, KeepsTo R (f a)) : KeepsTo R (p >>= f) :=
  hp.bind_of fun {_ a _} _ => hf a

instance (p : Parse α) (f : α → Parse β) [KeepsTo R p] [∀ a, KeepsTo R (f a)] :
    KeepsTo R (p >>= f) :=
  .bind inferInstance fun _ => inferInstance

instance (c : Prop) [Decidable c] (p q : Parse α) [KeepsTo R p] [KeepsTo R q] :
    KeepsTo R (if c then p else q) := by
  split <;> infer_instance

instance : KeepsTo R (get : Parse Cursor) := keeps_of_eq fun c => ⟨c, c.rest, c.last, rfl⟩

omit [Lawful R] in
theorem keeps_modify {f : Cursor → Cursor} (hf : ∀ c, R c (f c)) :
    KeepsTo R (modify f : Parse PUnit) where
  of_ok h := by cases h; exact hf _
  of_misplaced h := by cases h

omit [Lawful R] in
theorem keeps_throw (he : e ≠ .misplaced) : KeepsTo R (throw e : Parse α) where
  of_ok h := by cases h
  of_misplaced h := by cases h; exact absurd rfl he

instance : KeepsTo R (throw .exhausted : Parse α) := keeps_throw nofun

omit [Lawful R] in
/-- Reading may go on after a misplaced token, and only then. -/
theorem tryCatch_cases {p : Parse α} {h : Stop → Parse α} (ho : ∀ e ≠ .misplaced, h e = throw e)
    (c : Cursor) : (∃ c₁, p c = .error .misplaced c₁ ∧ tryCatch p h c = h .misplaced c₁) ∨
      (tryCatch p h c = p c ∧ ∀ c₁, p c ≠ .error .misplaced c₁) := by
  change (∃ c₁, _ ∧ EStateM.tryCatch p h c = _) ∨ (EStateM.tryCatch p h c = _ ∧ _)
  unfold EStateM.tryCatch
  cases hr : p c with
  | ok b c₁ => exact .inr ⟨rfl, nofun⟩
  | error e c₁ =>
    by_cases he : e = .misplaced
    · exact .inl ⟨c₁, by rw [he], by rw [← he]; rfl⟩
    · exact .inr ⟨congrFun (ho e he) c₁, fun _ heq => he (by cases heq; rfl)⟩

theorem keeps_tryCatch {p : Parse α} {h : Stop → Parse α} (hp : KeepsTo R p)
    (hm : KeepsTo R (h .misplaced)) (ho : ∀ e ≠ .misplaced, h e = throw e) :
    KeepsTo R (tryCatch p h : Parse α) where
  of_ok {c a c'} hc := by
    rcases tryCatch_cases ho c with ⟨c₁, hr, heq⟩ | ⟨heq, -⟩ <;> rw [heq] at hc
    · exact Lawful.trans (hp.of_misplaced hr).1 (hm.of_ok hc)
    · exact hp.of_ok hc
  of_misplaced {c c'} hc := by
    rcases tryCatch_cases ho c with ⟨c₁, hr, heq⟩ | ⟨heq, -⟩ <;> rw [heq] at hc
    · obtain ⟨hl, hf⟩ := hm.of_misplaced hc
      exact ⟨Lawful.trans (hp.of_misplaced hr).1 hl, hf⟩
    · exact hp.of_misplaced hc

end Base

section Cursor

variable {α σ β : Type} {R : Cursor → Cursor → Prop} [Lawful R]

instance : KeepsTo R current := keeps_of_eq fun _ => ⟨_, _, _, rfl⟩
instance (n : Nat) : KeepsTo R (peek n) := keeps_of_eq fun _ => ⟨_, _, _, rfl⟩
instance (k : Kind) : KeepsTo R (isAt k) := by unfold isAt; infer_instance
instance (ks : List Kind) : KeepsTo R (isAtAny ks) := by unfold isAtAny; infer_instance

instance : KeepsTo R advance := keeps_of_eq fun c => by
  unfold advance
  split <;> exact ⟨_, _, _, rfl⟩

instance (message : String) (span : Span) : KeepsTo R (report message span) :=
  keeps_modify fun c => Lawful.report c message span

instance (ds : List Diagnostic) [h : Reasons (ds.map Diagnostic.code)] : KeepsTo R (note ds) :=
  keeps_modify fun c => Lawful.note c ds h

instance (message : String) (span : Span) : KeepsTo R (fail message span : Parse α) where
  of_ok h := by cases h
  of_misplaced h := by cases h; exact ⟨Lawful.report _ message span, rfl⟩

instance (k : Kind) (what : String) : KeepsTo R (expect k what) := by
  unfold expect; infer_instance

instance (start : Span) : KeepsTo R (spanFrom start) := keeps_of_eq fun _ => ⟨_, _, _, rfl⟩

theorem keeps_edit {f : Log → Edited}
    (hf : ∀ {log}, (f log).refusal = none → log.Leads (f log).log) : Keeps (edit f) where
  of_ok {c a c'} h := by
    unfold edit at h
    dsimp only at h
    split at h <;> cases h
    exact .of_eq rfl rfl (hf ‹_›)
  of_misplaced {c c'} h := by
    unfold edit at h
    dsimp only at h
    split at h <;> cases h

instance (i : Nat) : Keeps (edit fun log => log.advance i .parsed) :=
  keeps_edit Log.leads_advance_parsed

instance (i : Nat) (codes : List Code) [h : Reasons codes] :
    Keeps (edit fun log => log.rejectWith i codes) :=
  keeps_edit (Log.leads_rejectWith h.noWarning)

instance (codes : List Code) (is : List Nat) [h : Reasons codes] :
    Keeps (edit fun log => log.rejectAll (codes.headD .grammar) is) :=
  keeps_edit (Log.leads_rejectAll h.headD)

instance : KeepsTo R semicolon := by unfold semicolon; infer_instance

instance (rest : List Token) : KeepsTo R (skipTo rest) :=
  keeps_modify fun c => Lawful.move c rest _

instance (limit : List Token) (body : σ → Parse (Pass σ β)) [∀ s, KeepsTo R (body s)] (s : σ) :
    KeepsTo R (passes limit body s) := by
  induction limit generalizing s with
  | nil => unfold passes; infer_instance
  | cons t limit ih =>
    unfold passes
    refine .bind inferInstance fun step => ?_
    cases step <;> infer_instance

instance (body : σ → Parse (Pass σ β)) [∀ s, KeepsTo R (body s)] (s : σ) :
    KeepsTo R (loop body s) := by
  unfold loop; infer_instance

instance (close : Kind) (trailing : Bool) (item : Parse α) [KeepsTo R item] (acc : List α) :
    KeepsTo R (commaPass close trailing item acc) := by
  unfold commaPass; infer_instance

instance (close : Kind) (closeName : String) (trailing : Bool) (item : Parse α)
    [KeepsTo R item] : KeepsTo R (commaList close closeName trailing item) := by
  unfold commaList; infer_instance

end Cursor

namespace Rules

-- A rule is an instance by its parts, and the longest rules have many parts.
set_option synthInstance.maxSize 2000

section Given

variable {r : Rules} {R : Cursor → Cursor → Prop} [Lawful R]

instance (unread : Nat) : KeepsTo R (recover unread) := by
  unfold recover
  refine .bind inferInstance fun c => .bind inferInstance fun atEnd => ?_
  dsimp only
  infer_instance

instance : KeepsTo R params := by unfold params; infer_instance

instance (object : Expr) : KeepsTo R (member object) := by unfold member; dsimp only; infer_instance

instance (t : Token) (operand : Expr) : KeepsTo R (applyPrefixed t operand) := by
  unfold applyPrefixed
  dsimp only
  split <;> infer_instance

instance (ts : List Token) (e : Expr) : KeepsTo R (applyAll ts e) := by
  fun_induction applyAll ts e <;> infer_instance

instance (acc : List Token) : KeepsTo R (operatorPass acc) := by
  unfold operatorPass; infer_instance

section Statement

variable [KeepsTo R r.statement]

instance (stop : Kind) : KeepsTo R (r.statement? stop) := by
  unfold statement?
  refine .bind inferInstance fun c => keeps_tryCatch inferInstance ?_ ?_
  · dsimp only
    infer_instance
  · intro e he
    cases e with
    | misplaced => exact absurd rfl he
    | _ => rfl

instance (stop : Kind) (acc : List Stmt) : KeepsTo R (r.statementPass stop acc) := by
  unfold statementPass
  refine .bind inferInstance fun atEnd => ?_
  split
  · infer_instance
  · refine .bind inferInstance fun s => ?_
    cases s <;> infer_instance

instance (stop : Kind) : KeepsTo R (r.statements stop) := by unfold statements; infer_instance
instance : KeepsTo R r.body := by unfold body; infer_instance
instance : KeepsTo R r.block := by unfold block; infer_instance

end Statement

section Assignment

variable [KeepsTo R r.assignment]

instance (acc : List Expr) : KeepsTo R (r.sequencePass acc) := by unfold sequencePass; infer_instance
instance : KeepsTo R r.expression := by unfold expression; infer_instance

instance : KeepsTo R r.wholeStep := by unfold wholeStep; infer_instance

instance (tokens : List Token) : KeepsTo R (r.step tokens) where
  of_ok {c a c'} h := by
    unfold step at h
    split at h
    · cases h; exact Lawful.refl _
    · dsimp only at h
      split at h
      · rename_i hsub
        cases h
        exact Lawful.step c (KeepsTo.of_ok hsub) rfl rfl
      · rename_i hsub
        cases h
        exact Lawful.step c (KeepsTo.of_misplaced hsub).1 rfl rfl
      · cases h
  of_misplaced {c c'} h := by
    unfold step at h
    split at h
    · cases h
    · dsimp only at h
      split at h <;> cases h
      rename_i hne _
      exact absurd rfl hne

instance (steps : List (List Token)) : KeepsTo R (r.stepList steps) := by
  fun_induction stepList r steps with
  | case1 => infer_instance
  | case2 later ih => infer_instance
  | case3 tokens later hne ih =>
    refine .bind inferInstance fun e => ?_
    split <;> infer_instance

omit [KeepsTo R r.assignment] in
instance (split : Steps.Split) (following : List Token) :
    Reasons ((emptySteps split following).map Diagnostic.code) where
  noWarning hmem := by
    obtain ⟨d, hd, hcode⟩ := mem_map.mp hmem
    obtain ⟨place, -, rfl⟩ := mem_map.mp hd
    exact absurd hcode (by decide : Code.emptyPipeline ≠ .shadowing)

instance (equals : Token) (following : List Token) (split : Steps.Split) :
    KeepsTo R (r.readSteps equals following split) := by
  have (message label : String) :
      KeepsTo R (note [Diagnostic.error .emptyPipeline message equals.span label]) :=
    have : Reasons [Code.emptyPipeline] := ⟨by decide⟩
    keeps_modify fun c => Lawful.note c _ this
  unfold readSteps; dsimp only; infer_instance

instance : KeepsTo R r.property := by unfold property; dsimp only; infer_instance
instance : KeepsTo R r.object := by unfold object; infer_instance
instance : KeepsTo R r.array := by unfold array; infer_instance
instance (acc : List String × List Expr) : KeepsTo R (r.templatePass acc) := by
  unfold templatePass; infer_instance

instance : KeepsTo R r.template := by
  unfold template
  refine .bind inferInstance fun start => .bind inferInstance fun parts => ?_
  split
  infer_instance

instance : KeepsTo R r.args := by unfold args; infer_instance
instance (object : Expr) : KeepsTo R (r.index object) := by unfold index; infer_instance
instance (e : Expr) : KeepsTo R (r.memberPass e) := by unfold memberPass; infer_instance
instance (e : Expr) : KeepsTo R (r.callPass e) := by unfold callPass; infer_instance

instance (keyword name : Token) : KeepsTo R (r.initializer keyword name) := by
  unfold initializer; infer_instance

instance (keyword : Token) : KeepsTo R (r.declarator keyword) := by unfold declarator; infer_instance

instance (keyword : Token) (acc : List Declarator) : KeepsTo R (r.declaratorPass keyword acc) := by
  unfold declaratorPass; infer_instance

instance : KeepsTo R r.declaration := by unfold declaration; infer_instance

instance : KeepsTo R r.test := by unfold test; infer_instance
instance : KeepsTo R r.returnStmt := by unfold returnStmt; infer_instance
instance (stop : Kind) : KeepsTo R (r.optional stop) := by unfold optional; infer_instance
instance : KeepsTo R r.forInit := by unfold forInit; dsimp only; infer_instance

end Assignment

section Construct

/-- What is wrong with steps are errors. -/
theorem reasons_stepList {lists : List (List Token)} (h : r.stepList lists c = .ok (es, codes) c') :
    Reasons codes := by
  fun_induction stepList r lists generalizing c es codes with
  | case1 => cases h; exact ⟨nofun⟩
  | case2 later ih => exact ih h
  | case3 tokens later hne ih =>
    obtain ⟨a, c₁, -, h⟩ := bind_eq_ok h
    split at h
    · obtain ⟨⟨es', codes'⟩, c₂, hlater, h⟩ := bind_eq_ok h
      cases h
      exact ih hlater
    · obtain ⟨⟨es', codes'⟩, c₂, hlater, h⟩ := bind_eq_ok h
      cases h
      exact ⟨not_mem_cons_of_ne_of_not_mem (by decide) (ih hlater).noWarning⟩

theorem reasons_readSteps {equals : Token} {following : List Token} {split : Steps.Split}
    (h : r.readSteps equals following split c = .ok (es, codes) c') : Reasons codes := by
  unfold readSteps at h
  dsimp only at h
  split at h
  · obtain ⟨u, c₁, -, h⟩ := bind_eq_ok h
    cases h
    exact ⟨by decide⟩
  · obtain ⟨u, c₁, -, h⟩ := bind_eq_ok h
    obtain ⟨⟨es', wrong⟩, c₂, hlist, h⟩ := bind_eq_ok h
    cases h
    have := reasons_stepList hlist
    infer_instance

instance (head : Head) (following : List Token) (index : Nat)
    [KeepsTo R (edit fun log => log.rejectWith index (head.errors.map Diagnostic.code))] :
    KeepsTo R (abandon head following index) := by
  unfold abandon; dsimp only; infer_instance

instance (head : Head) (index : Nat) (steps : List Expr) (codes : List Code)
    [KeepsTo R (edit fun log => log.advance index .parsed)]
    [KeepsTo R (edit fun log => log.rejectAll (codes.headD .grammar) (Tree.constructs steps))]
    [KeepsTo R (edit fun log => log.rejectWith index codes)] :
    KeepsTo R (conclude head index steps codes) := by
  unfold conclude; dsimp only; infer_instance

/-- The end of a step binding, from its steps on. -/
theorem keeps_end [Keeps r.assignment] {head : Head} {equals : Token} {following : List Token}
    {split : Steps.Split} {index : Nat} [Reasons (head.errors.map Diagnostic.code)] :
    Keeps (do
      let (steps, codes) ← r.readSteps equals following split
      skipTo split.rest
      conclude head index steps (head.errors.map Diagnostic.code ++ codes)) :=
  .bind_of inferInstance fun {c a c'} h => by
    obtain ⟨steps, codes⟩ := a
    have := reasons_readSteps h
    infer_instance

instance [Keeps r.assignment] (only : Bool) : Keeps (r.construct only) := by
  unfold construct
  refine .bind inferInstance fun c => .bind inferInstance fun keyword =>
    .bind inferInstance fun c' =>
    .bind (keeps_modify fun c => .of_eq rfl rfl Log.leads_enter) fun _ => ?_
  dsimp only
  have := @keeps_end
  infer_instance

variable [∀ only, KeepsTo R (r.construct only)]

instance : KeepsTo R r.constructExpr := by
  unfold constructExpr
  refine .bind inferInstance fun outcome => ?_
  split <;> infer_instance

instance : KeepsTo R r.constructStmt := by
  unfold constructStmt
  refine .bind inferInstance fun outcome => ?_
  split
  · split <;> infer_instance
  · infer_instance

end Construct

variable [KeepsTo R r.assignment] [KeepsTo R r.statement]

instance : KeepsTo R r.arrow := by
  unfold arrow
  infer_instance

instance : KeepsTo R r.functionExpr := by unfold functionExpr; infer_instance

instance : KeepsTo R r.primary := by
  unfold primary
  refine .bind inferInstance fun t => ?_
  split <;> infer_instance

instance : KeepsTo R r.new := by unfold new; infer_instance
instance : KeepsTo R r.callMember := by unfold callMember; infer_instance

instance : KeepsTo R r.postfixed := by
  unfold postfixed
  refine .bind inferInstance fun e => .bind inferInstance fun t => ?_
  split <;> infer_instance

instance : KeepsTo R r.unary := by unfold unary; infer_instance

instance (acc : List (BinaryOp × Expr)) : KeepsTo R (r.chainPass acc) := by
  unfold chainPass
  refine .bind inferInstance fun t => ?_
  split <;> infer_instance

instance : KeepsTo R r.binary := by unfold binary; infer_instance

instance : KeepsTo R r.conditional := by unfold conditional; infer_instance

instance : KeepsTo R r.functionDecl := by unfold functionDecl; infer_instance
instance : KeepsTo R r.ifStmt := by unfold ifStmt; infer_instance
instance : KeepsTo R r.whileStmt := by unfold whileStmt; infer_instance
instance : KeepsTo R r.forStmt := by unfold forStmt; dsimp only; infer_instance

variable [∀ only, KeepsTo R (r.construct only)]

instance : KeepsTo R r.assignmentRule := by
  unfold assignmentRule
  have (op : Option AssignOp) (left : Expr) : KeepsTo R (match op with
      | none => return left
      | some op => do
        if !left.isTarget then fail "invalid assignment target" left.span
        let _ ← advance
        let value ← r.assignment
        return .assign (left.span.through value.span) left op value : Parse Expr) := by
    cases op <;> infer_instance
  dsimp only
  infer_instance

instance : KeepsTo R r.statementRule := by
  unfold statementRule
  refine .bind inferInstance fun t => ?_
  split
  · infer_instance
  · split <;> infer_instance

end Given

end Rules

theorem rules_keeps (n : Nat) : Keeps (rules n).assignment ∧ Keeps (rules n).statement := by
  induction n with
  | zero => exact ⟨keeps_throw nofun, keeps_throw nofun⟩
  | succ n ih =>
    have h1 := ih.1
    have h2 := ih.2
    exact ⟨inferInstanceAs (Keeps (rules n).assignmentRule),
      inferInstanceAs (Keeps (rules n).statementRule)⟩

instance (n : Nat) : Keeps (rules n).assignment := (rules_keeps n).1
instance (n : Nat) : Keeps (rules n).statement := (rules_keeps n).2

end StepBinding.Grammar
