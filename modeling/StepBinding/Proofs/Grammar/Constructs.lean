import StepBinding.Proofs.Grammar.Sound

/-! What the rule for step bindings reads. A step binding that is accepted has a head in which
nothing is wrong and at least one step, and each of its steps is read from the tokens that the
cut of the step list gives it. Whatever rejects a step binding is an error. In any case only its
own record and those of its steps are edited. -/

namespace StepBinding.Grammar

open List Token Construct Steps StepBinding.Tree Node

variable {tokens following : List Token} {codes : List Code} {only : Bool} {α : Type}
  {f : Log → Edited} {es : List Expr} {n : Node} {head : Head} {index : Nat}

/-- The records of the first `n` step bindings are left as they are. -/
def Cursor.Spares (n : Nat) (c c' : Cursor) : Prop :=
  n ≤ c.log.size → n ≤ c'.log.size ∧ ∀ i < n, c'.log.get? i = c.log.get? i

instance (n : Nat) : Lawful (Cursor.Spares n) where
  refl c hn := ⟨hn, fun _ _ => rfl⟩
  trans h h' hn :=
    have h := h hn
    have h' := h' h.1
    ⟨h'.1, fun i hi => (h'.2 i hi).trans (h.2 i hi)⟩
  move c rest last hn := ⟨hn, fun _ _ => rfl⟩
  report c message span hn := ⟨hn, fun _ _ => rfl⟩
  note c ds h hn := ⟨hn, fun _ _ => rfl⟩
  step c {sub0 sub} h hlog _ hn := by
    have := h (by rw [hlog]; exact hn)
    rwa [hlog] at this

/-- A reading that leaves all records as they are that it finds. -/
theorem extends_of_spares {p : Parse α} [∀ n, KeepsTo (Cursor.Spares n) p] {c c' : Cursor} {a : α}
    (h : p c = .ok a c') : c.log.Extends c'.log :=
  have := (KeepsTo.of_ok (R := Cursor.Spares c.log.size) h) .refl
  ⟨this.1, this.2⟩

namespace Rules

variable {a : Option Expr} {o : Outcome}

section Spares

variable {n : Nat} {head : Head} {index : Nat}

theorem spares_edit (hf : ∀ {log}, (f log).refusal = none →
    (f log).log.size = log.size ∧ ∀ i < n, (f log).log.get? i = log.get? i) :
    KeepsTo (Cursor.Spares n) (edit f) where
  of_ok {c a c'} h hn := by
    unfold edit at h
    dsimp only at h
    split at h <;> cases h
    have := hf ‹_›
    exact ⟨by rw [this.1]; exact hn, this.2⟩
  of_misplaced {c c'} h := by
    unfold edit at h
    dsimp only at h
    split at h <;> cases h

theorem spares_rejectWith (h : n ≤ index) (codes : List Code) :
    KeepsTo (Cursor.Spares n) (edit fun log => log.rejectWith index codes) :=
  spares_edit fun hnone => ⟨Log.size_rejectWith .., fun i hi => by
    rw [(Log.get?_rejectWith hnone).2]
    simp [Nat.ne_of_gt (Nat.lt_of_lt_of_le hi h)]⟩

theorem spares_abandon (h : n ≤ index) (following : List Token) :
    KeepsTo (Cursor.Spares n) (abandon head following index) := by
  have := @spares_rejectWith n index h
  infer_instance

theorem spares_conclude {steps : List Expr} (h : n ≤ index) (hs : ∀ i ∈ constructs steps, n ≤ i)
    (codes : List Code) : KeepsTo (Cursor.Spares n) (conclude head index steps codes) := by
  have := @spares_rejectWith n index h
  have : KeepsTo (Cursor.Spares n) (edit fun log => log.advance index .parsed) :=
    spares_edit fun hnone => ⟨Log.size_advance .., fun i hi => by
      rw [(Log.get?_advance hnone).2]
      simp [Nat.ne_of_gt (Nat.lt_of_lt_of_le hi h)]⟩
  have (code : Code) :
      KeepsTo (Cursor.Spares n) (edit fun log => log.rejectAll code (constructs steps)) :=
    spares_edit fun hnone => ⟨Log.size_rejectAll .., fun i hi => by
      have hnot : i ∉ constructs steps := fun hmem => absurd (hs i hmem) (Nat.not_le.mpr hi)
      rw [Log.get?_rejectAll hnone]
      simp [hnot]⟩
  infer_instance

end Spares

set_option linter.unusedSectionVars false

variable {P : Token → Prop} [Inside P] {calm : Prop} {c c1 c2 c' : Cursor} {r : Rules}
  [Keeps r.assignment]

section Steps

/-- What a step that was read has to do with its tokens. -/
def Fits (calm : Prop) (ts : List Token) (e : Expr) : Prop :=
  Laid ts [.expr e] ∧ (calm → Balanced (kinds ts) ∧ Shows e.showsComma (kinds ts))

/-- Steps were read from their tokens; the codes tell of those that are no expressions. -/
structure ReadsSteps (P : Token → Prop) (calm : Prop) (c : Cursor) (lists : List (List Token))
    (es : List Expr) (codes : List Code) (c' : Cursor) : Prop where
  rest : c'.rest = c.rest
  last : c'.last = c.last
  filed : Filed c.log (walkExprs es) c'.log
  wrong : codes ≠ [] → .grammar ∈ codes ∧ ¬calm
  enters : codes = [] → Enters P calm c.log (walkExprs es) c'.log
  fits : codes = [] → List.Forall₂ (Fits calm) lists es

theorem step_rest (h : r.step tokens c = .ok a c') : c'.rest = c.rest ∧ c'.last = c.last := by
  unfold step at h
  split at h
  · cases h
    exact ⟨rfl, rfl⟩
  · dsimp only at h
    split at h <;> cases h <;> exact ⟨rfl, rfl⟩

variable (hr : Sound P calm r)

include hr

/-- One step is read from its own tokens; what is wrong with it is an error. -/
theorem reads_step (hne : tokens ≠ []) (hP : ∀ t ∈ tokens, P t) (hok : r.step tokens c = .ok a c')
    (hs : calm → c'.Silent) :
    (a = none → ¬calm) ∧
      ∀ e ∈ a, Enters P calm c.log (walkExpr e) c'.log ∧ Fits calm tokens e := by
  obtain ⟨first, more, rfl⟩ := exists_cons_of_ne_nil hne
  unfold step at hok
  dsimp only at hok
  generalize hsub0 : ({ rest := first :: more ++ [_], last := first, log := c.log } : Cursor) = sub0
    at hok
  have hhonest : sub0.Honest := by rw [← hsub0]; rintro ⟨⟩
  have hgood : sub0.Ends P := by
    rw [← hsub0]
    exact ⟨_, _, rfl, rfl, hP⟩
  -- A faulty step would leave an error behind.
  have hcalm {sub : Cursor} (hl : sub0.Leads sub) (hf : sub.faulty)
      (hd : c'.diagnostics = c.diagnostics ++ sub.diagnostics) : ¬calm := by
    intro hc
    obtain ⟨d, hmem, he⟩ := hl.honest hhonest hf
    have := hs hc d (hd ▸ mem_append_right _ hmem)
    rw [he] at this
    cases this
  split at hok
  · rename_i e sub hsub
    cases hfaulty : sub.faulty with
    | true =>
      rw [hfaulty] at hok
      cases hok
      exact ⟨fun _ => hcalm (KeepsTo.of_ok hsub) hfaulty rfl, by rintro _ ⟨⟩⟩
    | false =>
      rw [hfaulty] at hok
      cases hok
      refine ⟨by rintro ⟨⟩, ?_⟩
      rintro _ ⟨⟩
      have hclean : Clean calm r.wholeStep sub0 e sub :=
        ⟨hsub, hfaulty, fun hc d hd => hs hc d (mem_append_right _ hd)⟩
      unfold wholeStep at hclean
      obtain ⟨e', sub1, he, hclean⟩ := hclean.bind
      rcases hclean.current.ite with ⟨hend, hclean⟩ | ⟨-, hclean⟩
      · obtain ⟨rfl, rfl⟩ := hclean.pure_inv
        have he := hr.assignment hgood he
        obtain ⟨ks, hm, hb, -⟩ := he.moves
        obtain ⟨ts, hts, rfl, -, hlaid⟩ := hm.tokens
        have heq : ts = first :: more := by
          rcases he.good.next_cases with ⟨-, hrest⟩ | ⟨hP, -⟩
          · rw [← hsub0, hrest] at hts
            exact ((append_inj' hts rfl).1).symm
          · exact absurd hend (Inside.ne_endMark hP)
        have henters := hm.enters
        rw [walks_cons, walks_nil, append_nil, ← hsub0] at henters
        exact ⟨henters, heq ▸ ⟨hlaid, hb⟩⟩
      · exact hclean.not_fail.elim
  · rename_i sub hsub
    cases hok
    obtain ⟨hleads, hfaulty⟩ : sub0.Leads sub ∧ sub.faulty := KeepsTo.of_misplaced hsub
    exact ⟨fun _ => hcalm hleads hfaulty rfl, by rintro _ ⟨⟩⟩
  · cases hok

variable [∀ n, KeepsTo (Cursor.Spares n) r.assignment]

/-- The steps of a list are read one by one, those without tokens being left out. -/
theorem reads_stepList {lists : List (List Token)} (hP : ∀ ts ∈ lists, ∀ t ∈ ts, P t)
    (hok : r.stepList lists c = .ok (es, codes) c') (hs : calm → c'.Silent) :
    ReadsSteps P calm c (lists.filter (!·.isEmpty)) es codes c' := by
  induction lists generalizing c es codes with
  | nil =>
    cases hok
    exact ⟨rfl, rfl, .nil, fun h => absurd rfl h, fun _ => .refl _, fun _ => .nil⟩
  | cons ts later ih =>
    obtain ⟨hts, hlater⟩ := forall_mem_cons.mp hP
    cases ts with
    | nil => exact ih hlater hok
    | cons t ts =>
      unfold stepList at hok
      obtain ⟨a, c1, hstep, hok⟩ := bind_eq_ok hok
      have hrest := step_rest hstep
      have hgrows := extends_of_spares hstep
      cases a with
      | some e =>
        obtain ⟨⟨es, codes⟩, c2, hok, hpair⟩ := bind_eq_ok hok
        cases hpair
        have hread := reads_step hr (cons_ne_nil t ts) hts hstep fun hc =>
          (KeepsTo.of_ok (R := Cursor.Leads) hok).silent (hs hc)
        obtain ⟨henters, hfits⟩ := hread.2 e rfl
        have hlater := ih hlater hok
        exact ⟨hlater.rest.trans hrest.1, hlater.last.trans hrest.2,
          henters.filed.append hgrows hlater.filed (extends_of_spares hok), hlater.wrong,
          fun hc => henters.trans (hlater.enters hc), fun hc => .cons hfits (hlater.fits hc)⟩
      | none =>
        obtain ⟨⟨es, codes⟩, c2, hok, hpair⟩ := bind_eq_ok hok
        cases hpair
        have hread := reads_step hr (cons_ne_nil t ts) hts hstep fun hc =>
          (KeepsTo.of_ok (R := Cursor.Leads) hok).silent (hs hc)
        have hlater := ih hlater hok
        exact ⟨hlater.rest.trans hrest.1, hlater.last.trans hrest.2,
          hlater.filed.weaken hgrows.size, fun _ => ⟨mem_cons_self, hread.1 rfl⟩, nofun, nofun⟩

omit hr in
/-- Steps that lie in their tokens lie in all tokens of the list. -/
theorem laid_steps {first : List Token} {later : List (Token × List Token)}
    (h : List.Forall₂ (Fits calm) (first :: later.map Prod.snd) es) :
    Laid (first ++ later.flatMap fun p => p.1 :: p.2) (es.map .expr) := by
  induction later generalizing first es with
  | nil =>
    cases h with
    | cons h hnil =>
      cases hnil
      simpa using h.1
  | cons p later ih =>
    cases h with
    | @cons _ e _ es h hlater =>
      have := h.1.append ((ih hlater).left [p.1])
      simpa using this

/-- The steps of a step binding were read without a problem. -/
structure StepsFit (P : Token → Prop) (calm : Prop) (c : Cursor) (following : List Token)
    (steps : List Expr) (c' : Cursor) : Prop where
  enters : Enters P calm c.log (walkExprs steps) c'.log
  laid : ∃ us, following = us ++ (split following).rest ∧ kinds us = (split following).taken ∧
    Laid us (steps.map .expr)
  nonempty : steps ≠ []
  hidden : calm → ∀ e ∈ steps, e.showsComma = false
  taken : calm → Balanced (split following).taken ∧
    Shows (decide (1 < steps.length)) (split following).taken

omit hr in
theorem stepsFit_of_reads {steps : List Expr}
    (h : ReadsSteps P calm c (split following).steps steps [] c') :
    StepsFit P calm c following steps c' := by
  have hfits := h.fits rfl
  have hlen : (split following).later.length + 1 = steps.length := hfits.length_eq
  have hhidden (hc : calm) {ts : List Token} {e : Expr} (hts : ts ∈ (split following).steps)
      (h : Fits calm ts e) : e.showsComma = false := by
    have hshows := (h.2 hc).2
    cases hcomma : e.showsComma with
    | false => rfl
    | true =>
      rw [hcomma] at hshows
      exact absurd hshows.1 (steps_not_parted hts)
  have hpass (hc : calm) {ts : List Token} (hts : ts ∈ (split following).steps) :
      Balanced (kinds ts) ∧ Flat (kinds ts) := by
    obtain ⟨e, -, he⟩ := exists_mem_of_forall₂ hfits hts
    have hshows := he.2 hc
    rw [hhidden hc hts he] at hshows
    exact hshows
  refine ⟨h.enters rfl, ?_, ?_, fun hc e he => ?_, fun hc => ⟨?_, ?_⟩⟩
  · obtain ⟨later, hlater, hcommas, hts⟩ := exists_commas {} following
    exact ⟨_, hts, kinds_commas hlater hcommas, laid_steps (by rw [hlater]; exact hfits)⟩
  · rintro rfl
    cases hlen
  · obtain ⟨ts, hts, he⟩ := exists_mem_of_forall₂ hfits.flip he
    exact hhidden hc hts he
  · exact Split.balanced_taken fun ts hts => (hpass hc hts).1
  · have hshows := Split.shows_taken fun step hstep => (hpass hc hstep).2
    have : decide (1 < steps.length) = !(split following).later.isEmpty := by
      cases hl : (split following).later <;> simp [← hlen, hl]
    rwa [this]

/-- What became of the steps of a step binding. -/
structure StepsRead (P : Token → Prop) (calm : Prop) (c : Cursor) (following : List Token)
    (steps : List Expr) (codes : List Code) (c' : Cursor) : Prop where
  rest : c'.rest = c.rest
  last : c'.last = c.last
  filed : Filed c.log (walkExprs steps) c'.log
  wrong : codes ≠ [] → ¬calm
  settled : .grammar ∈ codes ∨ ∀ i, c.log.size ≤ i → i < c'.log.size →
    i ∈ constructs steps ∨ c'.log.Settled i
  fits : codes = [] → StepsFit P calm c following steps c'

omit hr in
/-- A calm reading reports no error on the way. -/
theorem not_calm_of_note {p : Parse α} [Keeps p] {a : α} {d : Diagnostic} (hd : d ∈ c.diagnostics)
    (he : d.isError) (h : p c = .ok a c') (hs : calm → c'.Silent) : ¬calm := by
  intro hc
  have := (KeepsTo.of_ok (R := Cursor.Leads) h).silent (hs hc) d hd
  rw [he] at this
  cases this

/-- The steps are read without a problem, or an error is reported. -/
theorem reads_readSteps {equals : Token} {steps : List Expr}
    (hP : ∀ t ∈ following, t.kind ≠ .endMark → P t)
    (hok : r.readSteps equals following (split following) c = .ok (steps, codes) c')
    (hs : calm → c'.Silent) : StepsRead P calm c following steps codes c' := by
  unfold readSteps at hok
  split at hok
  · cases hok
    refine ⟨rfl, rfl, .nil, fun _ hc => ?_, .inr fun i hle hlt => absurd hlt (Nat.not_lt.mpr hle),
      nofun⟩
    cases hs hc _ (mem_append_right _ mem_cons_self)
  dsimp only at hok
  obtain ⟨u, c2, hnote, hok⟩ := bind_eq_ok hok
  cases hnote
  obtain ⟨⟨es, wrong⟩, c1, hlist, hpair⟩ := bind_eq_ok hok
  cases hpair
  have hmem : ∀ ts ∈ (split following).steps, ∀ t ∈ ts, P t := fun ts hts t ht =>
    have hin := mem_of_mem_steps hts ht
    hP t hin.1 hin.2
  have hread := reads_stepList hr hmem hlist hs
  refine ⟨hread.rest, hread.last, hread.filed, fun hcodes => ?_, ?_, fun hcodes => ?_⟩
  · by_cases hholes : emptySteps (split following) following = []
    · exact (hread.wrong fun hwrong => hcodes (by rw [hholes, hwrong]; rfl)).2
    · obtain ⟨d, hd⟩ := exists_mem_of_ne_nil _ hholes
      refine not_calm_of_note (mem_append_right _ hd) ?_ hlist hs
      obtain ⟨place, -, rfl⟩ := mem_map.mp hd
      rfl
  · by_cases hwrong : wrong = []
    · exact .inr (hread.enters hwrong).settled
    · exact .inl (mem_append_right _ (hread.wrong hwrong).1)
  · obtain ⟨hholes, rfl⟩ := append_eq_nil_iff.mp hcodes
    have hne := Split.ne_nil_of_emptySteps (map_eq_nil_iff.mp (map_eq_nil_iff.mp hholes))
    rw [filter_eq_self.mpr fun ts hts => by simpa using hne ts hts] at hread
    exact stepsFit_of_reads ⟨hread.rest, hread.last, hread.filed, hread.wrong, hread.enters, hread.fits⟩

end Steps

section Construct

set_option synthInstance.maxSize 2000

/-- The rule for step bindings once the head is read. -/
def finish (r : Rules) (head : Head) (equals : Token) (following : List Token) (index : Nat) :
    Parse Outcome :=
  if !head.hasSteps then abandon head following index
  else do
    let (steps, codes) ← r.readSteps equals following (Steps.split following)
    skipTo (Steps.split following).rest
    conclude head index steps (head.errors.map Diagnostic.code ++ codes)

omit [Keeps r.assignment] in
theorem construct_eq (only : Bool) (c : Cursor) :
    r.construct only c =
      let head := Head.read only c.next c.rest.tail
      r.finish head ((c.rest[head.length - 1]?).getD c.next) (c.rest.drop head.length) c.log.size
        { c with
          log := c.log.enter head.form head.span (head.binding.map Token.text)
          diagnostics := c.diagnostics ++ head.errors } := rfl

namespace Outcome

def form : Outcome → Form
  | .accepted head .. => head.form
  | .rejected form .. => form

def span : Outcome → Span
  | .accepted _ span .. | .rejected _ span _ => span

def steps : Outcome → List Expr
  | .accepted _ _ _ steps => steps
  | .rejected .. => []

/-- The nodes that are made of a step binding. -/
inductive Stands : Outcome → Node → Prop
  | expr {head : Head} {span : Span} {index : Nat} {steps : List Expr} (h : head.form = .expression) :
      Stands (.accepted head span index steps)
        (.expr (.steps span (qualifier head) (bindingName head) steps index none))
  | stmt {head : Head} {span : Span} {index : Nat} {steps : List Expr} {name : Token}
      (h : head.form = .declaration) (hname : head.result = some name) :
      Stands (.accepted head span index steps)
        (.stmt (.steps span (qualifier head) (bindingName head) name.text steps index none))
  | rejectedExpr {form : Form} {span : Span} {index : Nat} :
      Stands (.rejected form span index) (.expr (.rejected span form index))
  | rejectedStmt {form : Form} {span : Span} {index : Nat} :
      Stands (.rejected form span index) (.stmt (.rejected span form index))

theorem Stands.span (h : o.Stands n) : n.span = o.span := by cases h <;> rfl

theorem Stands.children (h : o.Stands n) : n.children = o.steps.map .expr := by
  cases h <;> rfl

end Outcome

/-- What was read of a step binding, whichever node is made of it. -/
structure ReadsConstruct (P : Token → Prop) (calm : Prop) (only : Bool) (c : Cursor) (o : Outcome)
    (c' : Cursor) : Prop where
  moves : ∀ {n}, o.Stands n → ∃ ks, Moves P calm c ks [n] c' ∧
    (calm → Balanced ks ∧ (o.form = .expression → Shows (decide (1 < o.steps.length)) ks)) ∧
      EvenTo c'.next.kind ks
  ended : o.form = .expression → o.span = c.next.span.through c'.last.span ∧ c'.next.kind ≠ .comma
  form : only = true → o.form = .expression
  result : ∀ {head span index steps}, o = .accepted head span index steps →
    (head.form = .expression ∧ head.result = none) ∨
      (head.form = .declaration ∧ ∃ name, head.result = some name)
  unended : calm → ∃ ts, Unended (kinds ts) ∧
    c.rest = ts ++ (split (c.rest.drop (Head.read only c.next c.rest.tail).length)).rest

/-- A declaration may end with a semicolon. -/
def Trails (P : Token → Prop) (form : Form) (c c' : Cursor) : Prop :=
  ∃ ls, Crosses P c ls [] c' ∧ Balanced ls ∧ (form = .expression → ls = [])

theorem Trails.refl {form : Form} (hg : c.Ends P) : Trails P form c c :=
  ⟨[], .refl hg, .nil, fun _ => rfl⟩

theorem edit_inv {u : Unit} (h : Clean calm (edit f) c u c') :
    (f c.log).refusal = none ∧ c' = { c with log := (f c.log).log } := by
  have hok := h.ok
  unfold edit at hok
  dsimp only at hok
  split at hok <;> cases hok
  exact ⟨‹_›, rfl⟩

/-- The end of a step binding with steps: problems reject it. -/
theorem conclude_inv {steps : List Expr} [hreasons : Reasons codes] (hg : c.Ends P)
    (h : Clean calm (conclude head index steps codes) c o c') :
    Trails P head.form c c' ∧
      ((codes = [] ∧ o = .accepted head (head.keyword.span.through c.last.span) index steps ∧
          (c.log.advance index .parsed).refusal = none ∧
          c'.log = (c.log.advance index .parsed).log) ∨
        (codes ≠ [] ∧ o = .rejected head.form (head.keyword.span.through c.last.span) index ∧
          c.log.Rejects index codes (constructs steps) c'.log)) := by
  have hsemi {c1 c2 : Cursor} {u : Unit} (h : Clean calm semicolon c1 u c2)
      (hr : c1.rest = c.rest) (hl : c1.last = c.last) (hform : head.form = .declaration) :
      Trails P head.form c c2 ∧ c2.log = c1.log := by
    have hg1 : c1.Ends P := by unfold Cursor.Ends; rw [hr]; exact hg
    obtain ⟨ls, hm, hb, hlog⟩ := semicolon_inv hg1 h
    obtain ⟨ts, hts, hk, hlast, hlaid⟩ := hm.tokens
    exact ⟨⟨ls, ⟨hm.good, ts, hr ▸ hts, hk, hl ▸ hlast, hlaid⟩, hb,
      fun he => by rw [he] at hform; cases hform⟩, hlog⟩
  have hstay {c1 : Cursor} (hr : c1.rest = c.rest) (hl : c1.last = c.last) :
      Trails P head.form c c1 :=
    ⟨[], (Crosses.refl hg).congr_right hr hl, .nil, fun _ => rfl⟩
  unfold conclude at h
  dsimp only at h
  rcases h.spanFrom.ite with ⟨hnil, h⟩ | ⟨hne, h⟩
  · have hnil := isEmpty_iff.mp hnil
    obtain ⟨u, c2, hedit, h⟩ := h.bind
    obtain ⟨hrefusal, rfl⟩ := edit_inv hedit
    rcases h.ite with ⟨hform, h⟩ | ⟨-, h⟩
    · obtain ⟨u, rfl, hs⟩ := h.map_inv
      obtain ⟨htrails, hlog⟩ := hsemi hs rfl rfl hform
      exact ⟨htrails, .inl ⟨hnil, rfl, hrefusal, hlog⟩⟩
    · obtain ⟨rfl, rfl⟩ := h.pure_inv
      exact ⟨hstay rfl rfl, .inl ⟨hnil, rfl, hrefusal, rfl⟩⟩
  · have hne : codes ≠ [] := fun hnil => hne (by rw [hnil]; rfl)
    have hlast {c1 : Cursor} (ht : Trails P head.form c c1) (hl : c1.log = c.log)
        (h : Clean calm (do
          edit fun log => log.rejectAll (codes.headD .grammar) (Tree.constructs steps)
          edit fun log => log.rejectWith index codes
          pure (.rejected head.form (head.keyword.span.through c.last.span) index)) c1 o c') :
        Trails P head.form c c' ∧
          o = .rejected head.form (head.keyword.span.through c.last.span) index ∧
          c.log.Rejects index codes (constructs steps) c'.log := by
      obtain ⟨u, c2, hall, h⟩ := h.bind
      obtain ⟨u, rfl, hwith⟩ := h.map_inv
      obtain ⟨hnone, rfl⟩ := edit_inv hall
      obtain ⟨hnone', rfl⟩ := edit_inv hwith
      obtain ⟨ls, hcrosses, hb⟩ := ht
      rw [← hl]
      exact ⟨⟨ls, hcrosses.congr_right rfl rfl, hb⟩, rfl,
        Log.rejects_of_edits hne hreasons.headD hreasons.noWarning hnone hnone'⟩
    rcases h.ite with ⟨hform, h⟩ | ⟨-, h⟩
    · obtain ⟨u, c1, hs, h⟩ := h.bind
      obtain ⟨htrails, hlog⟩ := hsemi hs rfl rfl hform
      obtain ⟨ht, ho⟩ := hlast htrails hlog h
      exact ⟨ht, .inr ⟨hne, ho⟩⟩
    · obtain ⟨ht, ho⟩ := hlast (.refl hg) rfl h
      exact ⟨ht, .inr ⟨hne, ho⟩⟩

/-- The end of a step binding without steps, behind the tokens it takes. -/
theorem abandon_inv [hreasons : Reasons (head.errors.map Diagnostic.code)] (hne : head.errors ≠ [])
    (hg : ∀ {c1}, skipTo (split following).rest c = .ok () c1 → c1.Ends P)
    (h : Clean calm (abandon head following index) c o c') :
    ∃ c1, skipTo (split following).rest c = .ok () c1 ∧ Trails P head.form c1 c' ∧
      o = .rejected head.form (head.keyword.span.through c'.last.span) index ∧
      c.log.Rejects index (head.errors.map Diagnostic.code) [] c'.log := by
  unfold abandon at h
  dsimp only at h
  obtain ⟨u, c1, hskip, h⟩ := h.bind
  have hg1 := hg hskip.ok
  have hlog1 : c1.log = c.log := by cases hskip.ok; rfl
  have hlast {c2 : Cursor} (ht : Trails P head.form c1 c2) (hl : c2.log = c1.log)
      (h : Clean calm (do
        let span ← spanFrom head.keyword.span
        edit fun log => log.rejectWith index (head.errors.map Diagnostic.code)
        pure (.rejected head.form span index)) c2 o c') :
      Trails P head.form c1 c' ∧
        o = .rejected head.form (head.keyword.span.through c'.last.span) index ∧
        c.log.Rejects index (head.errors.map Diagnostic.code) [] c'.log := by
    obtain ⟨u, rfl, hedit⟩ := h.spanFrom.map_inv
    obtain ⟨hrefusal, rfl⟩ := edit_inv hedit
    obtain ⟨ls, hcrosses, hb⟩ := ht
    rw [← hlog1, ← hl]
    exact ⟨⟨ls, hcrosses.congr_right rfl rfl, hb⟩, rfl, @Log.rejects_of_edits _ _ .grammar _ []
      (by simpa using hne) (by decide) hreasons.noWarning rfl hrefusal⟩
  refine ⟨c1, hskip.ok, ?_⟩
  rcases h.ite with ⟨hform, h⟩ | ⟨-, h⟩
  · rcases h.branch with ⟨hk, h⟩ | ⟨-, h⟩
    · obtain ⟨t, c2, hadv, h⟩ := h.bind
      obtain ⟨-, hm, hlog⟩ := Moves.advance hg1 hk (by decide) hadv
      exact hlast ⟨_, hm.toCrosses, .plain rfl, fun he => by rw [he] at hform; cases hform⟩ hlog h
    · exact hlast (.refl hg1) rfl h
  · exact hlast (.refl hg1) rfl h

section Log

variable {log log1 log2 : Log} {n : Node} {ns : List Node} {form : Form} {span : Span}

/-- The node of a step binding that is accepted, and what its steps have entered. -/
theorem enters_accepted {name : String} (hi : construct? n = some log.size)
    (hn : ∀ {log' r}, log'.get? log.size = some r → r.Accepted form name → Recorded log' n)
    (hs : Shaped P calm n) (h : Enters P calm (log.enter form span (some name)) ns log1)
    (hnone : (log1.advance log.size .parsed).refusal = none) :
    Enters P calm log (n :: ns) (log1.advance log.size .parsed).log := by
  have hget := (Log.get?_advance hnone).2
  have hsize := Log.size_advance log1 log.size .parsed
  have henter := Log.size_enter log form span (some name)
  have hle := h.grows.size
  have hother {i : Nat} (hne : log.size ≠ i) :
      (log1.advance log.size .parsed).log.get? i = log1.get? i := by
    rw [hget]
    simp [hne]
  have hown : (log1.advance log.size .parsed).log.get? log.size =
      some { index := log.size, form, span, binding := some name, state := .parsed } := by
    rw [hget, h.grows.get? _ (by omega), Log.get?_enter]
    simp
  refine ⟨⟨by omega, fun i hlt => ?_⟩, ?_, fun i hge hlt => ?_, fun hc => ?_,
    forall_mem_cons.mpr ⟨hs, h.shaped⟩⟩
  · rw [hother (Nat.ne_of_gt hlt), h.grows.get? i (by omega), Log.get?_enter,
      if_neg (Nat.ne_of_lt hlt)]
  · refine Filed.cons (number?_of_construct? hi) (hn hown ⟨rfl, rfl, rfl, rfl⟩)
      (h.filed.congr (Nat.le_of_eq hsize.symm) fun i hi => hother ?_) (by omega) (by omega)
    have := (h.filed.bounds i hi).1
    omega
  · rw [marks, filterMap_cons_some hi]
    rcases Nat.eq_or_lt_of_le hge with rfl | hge
    · exact .inl mem_cons_self
    · exact (h.settled i (by omega) (hsize ▸ hlt)).imp (mem_cons_of_mem _)
        (Log.leads_advance_parsed hnone).settled
  · rw [marks, filterMap_cons_some hi]
    change _ :: marks ns = _
    rw [h.whole hc, hsize, henter, ← List.range'_succ]
    congr 1
    omega

/-- The node of a step binding that is rejected: all that was entered with it is settled. -/
theorem enters_rejected {binding : Option String} {is : List Nat} (hi : number? n = some log.size)
    (hn : ∀ {log' r}, log'.get? log.size = some r → r.Refused → Recorded log' n)
    (hs : Shaped P calm n) (hcalm : ¬calm) (hne : codes ≠ [])
    (h : (log.enter form span binding).Extends log1) (his : ∀ j ∈ is, log.size ≤ j)
    (hin : .grammar ∈ codes ∨ ∀ j, log.size < j → j < log1.size → j ∈ is ∨ log1.Settled j)
    (hrejects : log1.Rejects log.size codes is log2) : Enters P calm log [n] log2 := by
  have hlt : log.size < log1.size := by
    have := h.size
    rw [Log.size_enter] at this
    omega
  have hsize := hrejects.size
  obtain ⟨r, hr, hstate, hcodes⟩ := hrejects.own hlt
  have hrecorded : Recorded log2 n := hn hr ⟨hstate, fun hnil => hne (subset_nil.mp (hnil ▸ hcodes))⟩
  refine ⟨⟨by omega, fun i hi => ?_⟩, .cons hi hrecorded (@Filed.nil log2 _) (by omega)
    .refl, fun i hge hlt' => .inr (hrejects.settled hlt hin hge (hsize ▸ hlt')),
    fun hc => absurd hc hcalm, fun m hm => mem_singleton.mp hm ▸ hs⟩
  rw [hrejects.outer his i hi]
  exact ((Log.extends_enter form span binding).trans h).get? i hi

end Log

/-- What a step binding takes of the tokens, up to the end of its steps, leaves something open only
before the end mark or what closes something else. -/
theorem exists_extent (only : Bool) (hg : c.Ends P) (hmark : isMarker c.rest) {n : Nat}
    (hn : (Head.read only c.next c.rest.tail).length = n) :
    c.rest.take n ≠ [] ∧ ∃ u vs, (split (c.rest.drop n)).rest = u :: vs ∧ u.kind ≠ .comma ∧
      ∀ {us}, kinds us = (split (c.rest.drop n)).taken →
        EvenTo u.kind (kinds (c.rest.take n ++ us)) := by
  obtain ⟨k, p, ts, hrest, hdecl, hp⟩ := exists_of_isMarker hmark
  obtain ⟨init, stop, hinit, hstop, -⟩ := hg
  have hnext : c.next = k := by simp [Cursor.next, hrest]
  have hpos : 0 < n := by
    rw [← hn, hrest]
    exact Head.length_pos (cons_ne_nil p ts)
  rw [hnext] at hn
  rw [hrest] at hn ⊢
  -- The end mark is left over.
  have hmem : stop ∈ (k :: p :: ts).drop n := by
    cases init with
    | nil => rw [hinit] at hrest; cases hrest
    | cons t init =>
      rw [hinit, cons_append] at hrest
      obtain ⟨rfl, htail⟩ := List.cons.inj hrest
      have hle := @Head.length_read_le only t init stop hstop
      rw [htail] at hle
      rw [tail_cons] at hn
      rw [hn] at hle
      rw [← htail, ← cons_append, drop_append_of_le_length (by
        rw [← htail] at hle
        simpa using hle)]
      simp
  obtain ⟨u, vs, hu⟩ := exists_cons_of_ne_nil (rest_ne_nil (d := {}) hmem hstop)
  refine ⟨by simp [Nat.ne_of_gt hpos], u, vs, hu, head_rest_ne_comma (by rw [hu]; rfl),
    fun {us} hus => ?_⟩
  rw [kinds_append, hus]
  rcases @Head.even_read only k p ts hdecl hp with hopen | heven
  · -- Without the end of its marker a step binding takes all tokens.
    have hlength : n = (p :: ts).length := by rw [← hn, tail_cons, Head.read, hopen]
    have hdrop : (k :: p :: ts).drop n = [stop] := by
      rw [← hrest, hinit] at hmem ⊢
      have hall : init.length + 1 = n + 1 := by
        have := congrArg List.length (hinit.symm.trans hrest)
        simpa [hlength] using this
      rw [← Nat.succ.inj hall]
      simp
    rw [hdrop, splitFrom_stop (by rw [hstop]; exact role_endMark _)] at hu
    cases hu
    exact fun _ _ _ => .inr (.inl hstop)
  · rw [tail_cons] at hn
    rw [hn] at heven
    exact .append_even heven (evenTo_split hu)

/-- Tokens are passed over. -/
theorem crosses_skip {k : Nat} {us left : List Token} {ns : List Node} (hg : c.Ends P)
    (hr : c1.rest = c.rest) (hl : c1.last = c.last) (hus : c.rest.drop k = us ++ left)
    (hne : left ≠ []) (hlaid : Laid us ns) (h : skipTo left c1 = .ok () c2) :
    Crosses P c (kinds (c.rest.take k ++ us)) ns c2 := by
  have hrest : c.rest = (c.rest.take k ++ us) ++ left := by
    rw [append_assoc, ← hus, take_append_drop]
  have hpassed : c1.rest.take (c1.rest.length - left.length) = c.rest.take k ++ us := by
    rw [hr]
    conv => lhs; rw [hrest]
    have hlength := congrArg List.length hrest
    exact take_left' (by simp only [length_append] at hlength ⊢; omega)
  cases h
  refine ⟨hg.of_suffix hrest hne, _, hrest, rfl, ?_, hlaid.left _⟩
  change (c1.rest.take (c1.rest.length - left.length)).getLastD c1.last = _
  rw [hpassed, hl]

/-- The node of a step binding, which may end before its semicolon or behind it. -/
theorem readsConstruct_of {ks : List Kind} (h : Crosses P c ks (o.steps.map .expr) c1)
    (hleft : c1.rest = (split (c.rest.drop (Head.read only c.next c.rest.tail).length)).rest)
    (hne : ks ≠ []) (he : EvenTo c1.next.kind ks) (hcomma : c1.next.kind ≠ .comma)
    (ht : Trails P o.form c1 c')
    (hspan : o.span = c.next.span.through c1.last.span ∨ o.span = c.next.span.through c'.last.span)
    (henters : ∀ {n}, o.Stands n → Enters P calm c.log (walk n) c'.log)
    (hks : calm → Balanced ks ∧ Shows (decide (1 < o.steps.length)) ks)
    (form : only → o.form = .expression)
    (result : ∀ {head span index steps}, o = .accepted head span index steps →
      (head.form = .expression ∧ head.result = none) ∨
        (head.form = .declaration ∧ ∃ name, head.result = some name)) :
    ReadsConstruct P calm only c o c' := by
  obtain ⟨ls, hls, hb, hnil⟩ := ht
  refine ⟨fun {n} hn => ⟨ks ++ ls, ⟨?_, ?_⟩, fun hc => ⟨(hks hc).1.append hb, fun hform => ?_⟩,
    hls.evenTo h.good he (hb.even.to _)⟩, fun hform => ?_, form, result, fun hc => ?_⟩
  · have hchildren := hn.children
    rcases hspan with hspan | hspan
    · have := ((hchildren ▸ h).node (hn.span.trans hspan) hne).trans hls
      rwa [append_nil] at this
    · have hall := h.trans hls
      rw [append_nil] at hall
      exact (hchildren ▸ hall).node (hn.span.trans hspan) (by simp [hne])
  · rw [walks_cons, walks_nil, append_nil]
    exact henters hn
  · rw [hnil hform, append_nil]
    exact (hks hc).2
  · rw [hnil hform] at hls
    obtain ⟨ts, hts, hkinds, hlast, -⟩ := hls.tokens
    cases map_eq_nil_iff.mp hkinds
    have hnext : c'.next.kind = c1.next.kind := by
      obtain ⟨us, stop, hus, -⟩ := hls.good
      rw [nil_append] at hts
      simp [Cursor.next, hts, hus]
    rw [show c'.last = c1.last from hlast] at hspan ⊢
    exact ⟨hspan.elim id id, hnext ▸ hcomma⟩
  · obtain ⟨ts, hts, rfl, -⟩ := h.tokens
    exact ⟨ts, (hks hc).2.unended, hleft ▸ hts⟩

section Names

variable {only : Bool} {k p : Token} {ts : List Token} {head : Head}

/-- The kinds of the tokens of a head in which nothing is wrong. -/
theorem kinds_head (hp : p.kind = .lparen) (h : Head.Reads only k head (p :: ts) following) :
    ∃ ks, kinds ((k :: p :: ts).take head.length) =
        [k.kind] ++ (.lparen :: ([.identifier] ++ [.rparen])) ++ ks ∧ Balanced ks ∧ Flat ks := by
  cases h with
  | expression _ hn hq he hform hbinding hresult hlength =>
    exact ⟨[.assign], by simp [hlength, hp, hn, hq, he], .plain rfl, .level rfl⟩
  | declaration honly _ hn hq hres he hform hbinding hresult hlength =>
    exact ⟨[.identifier] ++ [.assign], by simp [hlength, hp, hn, hq, hres, he],
      (Balanced.plain rfl).append (.plain rfl), (Flat.level rfl).append (.level rfl)⟩

/-- The names in a head in which nothing is wrong. -/
theorem names_head (h : Head.Reads only k head (p :: ts) following) :
    (∃ name ∈ p :: ts, name.kind = .identifier ∧ head.binding = some name) ∧
      ((head.form = .expression ∧ head.result = none) ∨
        (head.form = .declaration ∧
          ∃ name ∈ p :: ts, name.kind = .identifier ∧ head.result = some name)) := by
  cases h with
  | expression hp hn hq he hform hbinding hresult hlength =>
    exact ⟨⟨_, by simp, hn, hbinding⟩, .inl ⟨hform, hresult⟩⟩
  | declaration honly hp hn hq hres he hform hbinding hresult hlength =>
    exact ⟨⟨_, by simp, hn, hbinding⟩, .inr ⟨hform, _, by simp, hres, hresult⟩⟩

end Names

variable [∀ n, KeepsTo (Cursor.Spares n) r.assignment]

/-- A step binding is rejected for an error, or accepted. -/
theorem reads_construct (hr : Sound P calm r) (hg : c.Ends P) (hmark : isMarker c.rest)
    (h : Clean calm (r.construct only) c o c') : ReadsConstruct P calm only c o c' := by
  obtain ⟨k, p, ts, hrest, hdecl, hp⟩ := exists_of_isMarker hmark
  have hnext : c.next = k := by simp [Cursor.next, hrest]
  have hok := h.ok
  rw [construct_eq] at hok
  have hreasons : Reasons ((Head.read only c.next c.rest.tail).errors.map Diagnostic.code) :=
    inferInstance
  have hform (h : only) : (Head.read only c.next c.rest.tail).form = .expression :=
    h ▸ Head.form_read
  have herror (d : Diagnostic) (hd : d ∈ (Head.read only c.next c.rest.tail).errors) :
      d.isError := (Head.isError_of_mem_errors hd).1
  have hkeyword : (Head.read only c.next c.rest.tail).keyword = c.next := Head.keyword_read
  have hextent := @exists_extent P _ c only hg hmark _ rfl
  have hread : (Head.read only c.next c.rest.tail).hasSteps →
      (Head.read only c.next c.rest.tail).errors = [] →
        ∃ following, Head.Reads only k (Head.read only c.next c.rest.tail) (p :: ts) following := by
    rw [hnext, hrest]
    exact Head.reads_of_hasSteps hp
  have hempty : (Head.read only c.next c.rest.tail).hasSteps = false →
      (Head.read only c.next c.rest.tail).errors ≠ [] := Head.errors_ne_nil
  generalize hhead : Head.read only c.next c.rest.tail = head at *
  dsimp only at hok
  obtain ⟨htake, u, vs, hleft, hcomma, heven⟩ := hextent
  generalize hc2 : ({ c with
    log := c.log.enter head.form head.span (head.binding.map Token.text)
    diagnostics := c.diagnostics ++ head.errors } : Cursor) = c2 at hok
  have hcalm {α : Type} {q : Parse α} [Keeps q] {a : α} {c3 : Cursor} (hne : head.errors ≠ [])
      (hok : q c2 = .ok a c3) (hs : calm → c3.Silent) : ¬calm := by
    obtain ⟨d, hd⟩ := exists_mem_of_ne_nil _ hne
    exact not_calm_of_note (by rw [← hc2]; exact mem_append_right _ hd) (herror d hd) hok hs
  have hlog2 : c2.log = c.log.enter head.form head.span (head.binding.map Token.text) := by rw [← hc2]
  have hsize2 : c2.log.size = c.log.size + 1 := hlog2 ▸ Log.size_enter ..
  -- Up to the end of the steps.
  have hskip {us : List Token} {ns : List Node} {c3 c4 : Cursor}
      (hus : c.rest.drop head.length = us ++ (split (c.rest.drop head.length)).rest)
      (hk : kinds us = (split (c.rest.drop head.length)).taken) (hlaid : Laid us ns)
      (hrest3 : c3.rest = c.rest) (hlast3 : c3.last = c.last)
      (h : skipTo (split (c.rest.drop head.length)).rest c3 = .ok () c4) :
      Crosses P c (kinds (c.rest.take head.length ++ us)) ns c4 ∧
        c4.rest = (split (c.rest.drop (Head.read only c.next c.rest.tail).length)).rest ∧
          EvenTo c4.next.kind (kinds (c.rest.take head.length ++ us)) ∧ c4.next.kind ≠ .comma := by
    have hnext4 : c4.next = u := by
      cases h
      change List.headD _ _ = _
      simp [hleft]
    rw [hnext4, hhead]
    exact ⟨crosses_skip hg hrest3 hlast3 hus (by simp [hleft]) hlaid h, by cases h; rfl,
      heven hk, hcomma⟩
  have hne {us : List Token} : kinds (c.rest.take head.length ++ us) ≠ [] := by
    simp only [kinds_append, ne_eq, append_eq_nil_iff, not_and]
    exact fun hnil => absurd (map_eq_nil_iff.mp hnil) htake
  have hrejected {span : Span} {codes : List Code} {is : List Nat} {log : Log} (hcalm : ¬calm)
      (hcodes : codes ≠ []) (hgrows : c2.log.Extends log) (his : ∀ j ∈ is, c.log.size ≤ j)
      (hin : .grammar ∈ codes ∨ ∀ j, c.log.size < j → j < log.size → j ∈ is ∨ log.Settled j)
      (hrejects : log.Rejects c.log.size codes is c'.log) {n : Node}
      (hn : Outcome.Stands (.rejected head.form span c.log.size) n) :
      Enters P calm c.log (walk n) c'.log := by
    have hshaped : Shaped P calm n := ⟨fun _ => by cases hn <;> trivial, fun hc => absurd hc hcalm⟩
    cases hn <;> exact enters_rejected rfl (fun hr href => ⟨_, hr, href⟩) hshaped hcalm hcodes
      (hlog2 ▸ hgrows) his hin hrejects
  obtain ⟨us, hus, hk⟩ := exists_taken {} (c.rest.drop head.length)
  have h : Clean calm (r.finish head ((c.rest[head.length - 1]?).getD c.next)
    (c.rest.drop head.length) c.log.size) c2 o c' := ⟨hok, h.sound, h.silent⟩
  have hend (equals : Token) := @keeps_end r _ head equals (c.rest.drop head.length)
    (split (c.rest.drop head.length)) c.log.size _
  unfold finish at h
  rcases h.ite with ⟨hno, h⟩ | ⟨hyes, h⟩
  · have herrors := hempty (by simpa using hno)
    have hcalm := hcalm herrors h.ok h.silent
    obtain ⟨c3, hok3, htrails, rfl, hrejects⟩ := abandon_inv herrors (fun h =>
      (hskip hus hk (.nil _) (by rw [← hc2]) (by rw [← hc2]) h).1.good) h
    obtain ⟨hcrosses, hrest3, heven, hcomma⟩ :=
      hskip hus hk (.nil _) (by rw [← hc2]) (by rw [← hc2]) hok3
    exact readsConstruct_of (o := .rejected ..) hcrosses hrest3 hne heven hcomma htrails
      (.inr (by rw [← hkeyword]; rfl))
      (@hrejected _ _ [] _ hcalm (by simpa using herrors) (.refl _) (forall_mem_nil _)
        (.inr fun j hlt hlt' => absurd hlt' (by omega)) hrejects)
      (fun hc => absurd hc hcalm) hform (by rintro _ _ _ _ ⟨⟩)
  · have hwhole := h
    obtain ⟨⟨steps, codes⟩, c3, hsteps, h⟩ := h.bind_at fun {a c1} h => by
      obtain ⟨steps, codes⟩ := a
      have := reasons_readSteps h
      infer_instance
    have hcodes := reasons_readSteps hsteps.ok
    have hgrows := extends_of_spares hsteps.ok
    have hread3 := reads_readSteps hr (fun t ht hk => hg.of_mem (mem_of_mem_drop ht) hk)
      hsteps.ok hsteps.silent
    obtain ⟨u, c4, hok4, h⟩ := h.bind
    have hlog4 : c4.log = c3.log := by cases hok4.ok; rfl
    have hrest3 : c3.rest = c.rest := hread3.rest.trans (by rw [← hc2])
    have hlast3 : c3.last = c.last := hread3.last.trans (by rw [← hc2])
    obtain ⟨hcrosses, hrest4, heven4, hcomma4⟩ := hskip hus hk (.nil _) hrest3 hlast3 hok4.ok
    obtain ⟨htrails, ⟨hnone, rfl, hrefusal, hlog'⟩ | ⟨hsome, rfl, hrejects⟩⟩ :=
      conclude_inv hcrosses.good h
    · obtain ⟨herrors, rfl⟩ := append_eq_nil_iff.mp hnone
      have hfit := hread3.fits rfl
      obtain ⟨following, hreads⟩ := hread (by simpa using hyes) (map_eq_nil_iff.mp herrors)
      obtain ⟨⟨name, hmem, hname, hbinding⟩, hresult⟩ := names_head hreads
      obtain ⟨hs, hheadKinds, hbal, hflat⟩ := kinds_head hp hreads
      obtain ⟨us, hus, hk, hlaid⟩ := hfit.laid
      obtain ⟨hcrosses, hrest4, heven4, hcomma4⟩ := hskip hus hk hlaid hrest3 hlast3 hok4.ok
      have hvalid {t : Token} (ht : t ∈ p :: ts) (hk : t.kind = .identifier)
          (hv : ∀ t, P t → Stream.Valid t) : IsName t.text :=
        (hv _ (hg.of_mem (by rw [hrest]; exact mem_cons_of_mem _ ht)
          (by rw [hk]; decide))).name hk
      have hnamed (hv : ∀ t, P t → Stream.Valid t) : IsName (bindingName head) := by
        rw [bindingName, hbinding]
        exact hvalid hmem hname hv
      have hqualifier : (qualifier head).Known := by
        unfold qualifier
        rw [hkeyword, hnext]
        cases hk : k.kind <;> trivial
      have henters : Enters P calm (c.log.enter head.form head.span (some (bindingName head)))
          (walkExprs steps) c4.log := by
        have hname : head.binding.map Token.text = some (bindingName head) := by
          rw [bindingName, hbinding]
          rfl
        rw [hlog4, ← hname, ← hlog2]
        exact hfit.enters
      refine readsConstruct_of (o := .accepted ..) hcrosses hrest4 hne heven4 hcomma4 htrails
        (.inl (by rw [← hkeyword]; rfl)) (fun {n} hn => ?_) (fun hc => ?_) hform ?_
      · rw [hlog']
        cases hn with
        | expr hexpr =>
          refine enters_accepted rfl ?_
            ⟨fun hv => ⟨hqualifier, hnamed hv, hfit.nonempty⟩, fun hc => ⟨rfl, hfit.hidden hc⟩⟩
            henters hrefusal
          exact fun hr hacc => ⟨hfit.nonempty, _, hr, hexpr ▸ hacc⟩
        | @stmt _ _ _ _ result hdecl hres =>
          have hresult (hv : ∀ t, P t → Stream.Valid t) : IsName result.text := by
            rcases hresult with ⟨-, hnone⟩ | ⟨-, name, hmem, hname, hsome⟩
            · rw [hres] at hnone
              cases hnone
            · cases hres.symm.trans hsome
              exact hvalid hmem hname hv
          refine enters_accepted rfl ?_ ⟨fun hv => ⟨hqualifier, hnamed hv, hresult hv, hfit.nonempty⟩,
            fun hc => ⟨rfl, hfit.hidden hc⟩⟩ henters hrefusal
          exact fun hr hacc => ⟨hfit.nonempty, _, hr, hdecl ▸ hacc⟩
      · obtain ⟨hbal', hshows⟩ := hfit.taken hc
        have hlevel : isLevel k.kind := by
          cases hk : k.kind <;> first | rfl | (rw [hk] at hdecl; cases hdecl)
        rw [← hrest] at hheadKinds
        rw [kinds_append, hk, hheadKinds]
        exact ⟨(((Balanced.plain (isPlain_of_isLevel hlevel)).append
          (.enclose rfl rfl (.plain rfl))).append hbal).append hbal',
          hshows.append_left
            (((Flat.level hlevel).append (.enclose rfl rfl (.plain rfl))).append hflat)⟩
      · rintro _ _ _ _ ⟨⟩
        exact hresult.imp_right fun h => ⟨h.1, h.2.imp fun _ h => h.2.2⟩
    · have hcalm : ¬calm := by
        by_cases herrors : head.errors = []
        · exact hread3.wrong fun hnil => hsome (by rw [herrors, hnil]; rfl)
        · have := hend ((c.rest[head.length - 1]?).getD c.next)
          exact hcalm herrors hwhole.ok hwhole.silent
      refine readsConstruct_of (o := .rejected ..) hcrosses hrest4 hne heven4 hcomma4 htrails
        (.inl (by rw [← hkeyword]; rfl)) (hrejected hcalm hsome (hlog4 ▸ hgrows) (fun j hj => ?_) ?_
        hrejects) (fun hc => absurd hc hcalm) hform (by rintro _ _ _ _ ⟨⟩)
      · have := (hread3.filed.mem_bounds hj).1
        omega
      · rw [hlog4]
        exact hread3.settled.imp (mem_append_right _) fun h j hj => h j (by omega)

/-- A step binding leaves the records that were there before its own. -/
theorem spares_construct {n : Nat} (hr : Sound (fun t => t.kind ≠ .endMark) False r) :
    KeepsTo (Cursor.Spares n) (r.construct only) := by
  have henter {c : Cursor} (head : Head) : c.Spares n { c with
      log := c.log.enter head.form head.span (head.binding.map Token.text)
      diagnostics := c.diagnostics ++ head.errors } := fun hn =>
    have hgrows := @Log.extends_enter c.log head.form head.span (head.binding.map Token.text)
    ⟨Nat.le_trans hn hgrows.size, fun i hi => hgrows.get? i (Nat.lt_of_lt_of_le hi hn)⟩
  have hconclude {head : Head} {equals : Token} {following : List Token} {steps : List Expr}
      {codes : List Code} {index : Nat} {c c1 : Cursor} (hn : n ≤ index) (hc : index ≤ c.log.size)
      (h : r.readSteps equals following (split following) c = .ok (steps, codes) c1) :
      KeepsTo (Cursor.Spares n) (do
        skipTo (split following).rest
        conclude head index steps (head.errors.map Diagnostic.code ++ codes)) := by
    have hread := reads_readSteps hr (fun _ _ => id) h False.elim
    have := @spares_conclude _ head _ _ hn
      fun i hi => Nat.le_trans hn (Nat.le_trans hc (hread.filed.mem_bounds hi).1)
    infer_instance
  constructor
  · intro c o c' h hn
    rw [construct_eq] at h
    refine Lawful.trans (henter (Head.read only c.next c.rest.tail)) ?_ hn
    dsimp only at h
    unfold finish at h
    split at h
    · exact (spares_abandon hn _).of_ok h
    · obtain ⟨⟨steps, codes⟩, c1, hsteps, h⟩ := bind_eq_ok h
      exact Lawful.trans (KeepsTo.of_ok hsteps)
        ((hconclude hn (by rw [Log.size_enter]; omega) hsteps).of_ok h)
  · intro c c' h
    refine ⟨fun hn => ?_, (KeepsTo.of_misplaced (R := Cursor.Leads) h).2⟩
    rw [construct_eq] at h
    refine Lawful.trans (henter (Head.read only c.next c.rest.tail)) ?_ hn
    dsimp only at h
    unfold finish at h
    split at h
    · exact ((spares_abandon hn _).of_misplaced h).1
    · rcases bind_eq_error h with hsteps | ⟨⟨steps, codes⟩, c1, hsteps, h⟩
      · exact (KeepsTo.of_misplaced hsteps).1
      · exact Lawful.trans (KeepsTo.of_ok hsteps)
          ((hconclude hn (by rw [Log.size_enter]; omega) hsteps).of_misplaced h).1

end Construct

end Rules

end StepBinding.Grammar
