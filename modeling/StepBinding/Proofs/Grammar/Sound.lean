import StepBinding.Proofs.Grammar.Reading

/-! What the rules of the grammar read. Given that the two rules all others come back to read
well-formed trees, every rule does. Besides the form of the tree it is told which tokens were
passed, as far as brackets and commas go, where the nodes lie in them, and which step bindings
were entered in the log. -/

namespace StepBinding

open List

variable {u : Unit} {ts : List Token} {op : BinaryOp} {es : List Expr} {ss : List Stmt}

/-- An expression none of whose step lists shows. The range of a binary node is that of its
operands. -/
def Expr.Tight : Expr → Prop
  | .steps .. | .arrow .. | .conditional .. | .assign .. => False
  | .binary s l _ r => s = l.span.through r.span ∧ r.Tight
  | _ => True

theorem Expr.Tight.shows {e : Expr} (h : e.Tight) : e.showsComma = false ∧ e.endsInSteps = false := by
  cases e <;> first | exact ⟨rfl, rfl⟩ | exact h.elim

namespace Grammar

open Token Construct Steps StepBinding.Tree Node

variable {e o operand right tree : Expr} {k stop : Kind} {c₃ c₀ : Cursor} {trailing : Bool}
  {closeName : String}

section Relations

variable (P : Token → Prop) (calm : Prop) (c : Cursor)

/-- Tokens with matching brackets are passed, if no error was met; in any case they leave nothing open
where they nest with the token behind them. -/
def Passes (ns : List Node) (c' : Cursor) : Prop :=
  ∃ ks, Moves P calm c ks ns c' ∧ (calm → Balanced ks) ∧ EvenTo c'.next.kind ks

/-- Tokens that a step list passes over outside of all brackets are passed. -/
def PassesFlat (ns : List Node) (c' : Cursor) : Prop :=
  ∃ ks, Moves P calm c ks ns c' ∧ (calm → Balanced ks ∧ Flat ks) ∧ Smooth ks

/-- An expression was read. -/
structure ReadsExpr (e : Expr) (c' : Cursor) : Prop where
  moves : ∃ ks, Moves P calm c ks [.expr e] c' ∧
    (calm → Balanced ks ∧ Shows e.showsComma ks) ∧ EvenTo c'.next.kind ks
  span : e.span = c.next.span.through c'.last.span
  comma : e.endsInSteps = true → c'.next.kind ≠ .comma

/-- An expression was read none of whose step lists shows. -/
structure ReadsTight (e : Expr) (c' : Cursor) : Prop where
  moves : PassesFlat P calm c [.expr e] c'
  span : e.span = c.next.span.through c'.last.span
  tight : e.Tight

/-- An expression that may be a sequence was read. -/
structure ReadsSequence (e : Expr) (c' : Cursor) : Prop where
  passes : Passes P calm c [.expr e] c'
  last : calm → c'.last.kind ≠ .semicolon

/-- A statement was read. -/
structure ReadsStmt (s : Stmt) (c' : Cursor) : Prop where
  passes : Passes P calm c [.stmt s] c'
  noElse : s.endsOpenIf = true → c'.next.kind ≠ .kwElse

/-- A node that stands for no step binding has the given nodes below it and the range of all
tokens from one cursor to another. -/
structure Tops (ns : List Node) (n : Node) (c' : Cursor) : Prop where
  shaped : Shaped P calm n
  span : n.span = c.next.span.through c'.last.span
  children : n.children = ns
  plain : number? n = none

end Relations

/-- The two rules that all others come back to read well-formed trees. -/
structure Sound (P : Token → Prop) (calm : Prop) (r : Rules) : Prop where
  assignment : ∀ {c e c'}, c.Ends P → Clean calm r.assignment c e c' → ReadsExpr P calm c e c'
  statement : ∀ {c s c'}, c.Ends P → Clean calm r.statement c s c' → ReadsStmt P calm c s c'

set_option linter.unusedSectionVars false

variable {P : Token → Prop} [Inside P] {calm : Prop} {c c₁ c₂ c' : Cursor} {ns ms : List Node}

theorem Cursor.Ends.name (hg : c.Ends P) (hk : c.next.kind = .identifier)
    (hv : ∀ t, P t → Stream.Valid t) : IsName c.next.text :=
  (hv _ (hg.of_next (by rw [hk]; decide))).name hk

theorem Passes.good (h : Passes P calm c ns c') : c'.Ends P := by
  obtain ⟨_, h, -⟩ := h
  exact h.good

theorem Passes.refl (h : c.Ends P) : Passes P calm c [] c :=
  ⟨[], .refl h, fun _ => .nil, Balanced.nil.even.to _⟩

theorem Passes.trans (h : Passes P calm c ns c₁) (h' : Passes P calm c₁ ms c₂) :
    Passes P calm c (ns ++ ms) c₂ := by
  obtain ⟨ks, hm, hb, he⟩ := h
  obtain ⟨ls, hm', hb', he'⟩ := h'
  exact ⟨ks ++ ls, hm.trans hm', fun hc => (hb hc).append (hb' hc), hm'.evenTo hm.good he he'⟩

theorem Passes.plain {k : Kind} (hk : isPlain k) (h : Moves P calm c [k] [] c') :
    Passes P calm c [] c' :=
  ⟨[k], h, fun _ => .plain hk, (Balanced.plain hk).even.to _⟩

theorem PassesFlat.refl (h : c.Ends P) : PassesFlat P calm c [] c :=
  ⟨[], .refl h, fun _ => ⟨.nil, .nil⟩, fun _ _ _ => ⟨.nil, .nil⟩⟩

theorem PassesFlat.trans (h : PassesFlat P calm c ns c₁) (h' : PassesFlat P calm c₁ ms c₂) :
    PassesFlat P calm c (ns ++ ms) c₂ := by
  obtain ⟨ks, hm, hb, he⟩ := h
  obtain ⟨ls, hm', hb', he'⟩ := h'
  exact ⟨ks ++ ls, hm.trans hm', fun hc => ⟨(hb hc).1.append (hb' hc).1,
    (hb hc).2.append (hb' hc).2⟩, he.append he'⟩

theorem PassesFlat.level (hk : isLevel k) (h : Moves P calm c [k] [] c') :
    PassesFlat P calm c [] c' :=
  have hplain : Balanced [k] := .plain (isPlain_of_isLevel hk)
  ⟨[k], h, fun _ => ⟨hplain, .level hk⟩, fun _ _ _ => ⟨hplain, .level hk⟩⟩

theorem PassesFlat.passes (h : PassesFlat P calm c ns c') : Passes P calm c ns c' := by
  obtain ⟨ks, hm, hb, he⟩ := h
  exact ⟨ks, hm, fun hc => (hb hc).1, he.even.to _⟩

theorem PassesFlat.good (h : PassesFlat P calm c ns c') : c'.Ends P := h.passes.good

section Nodes

variable {n : Node} {o : Kind}

/-- A node over what is passed, from its parts. -/
theorem Moves.top {ks : List Kind} (h : Moves P calm c ks ns c') (ht : Tops P calm c ns n c')
    (hne : ns ≠ [] ∨ ks ≠ []) : Moves P calm c ks [n] c' := by
  have hwalk : walks [n] = n :: walks ns := by
    rw [walks_cons, walks_nil, append_nil, walk_children, ht.children]
  refine ⟨Crosses.node (ht.children ▸ h.toCrosses) ht.span ?_, h.enters.congr ?_ ?_⟩
  · rcases hne with hne | hne
    · obtain ⟨ts, -, rfl, -, hlaid⟩ := h.tokens
      exact fun hnil => hlaid.ne_nil hne (map_eq_nil_iff.mp hnil)
    · exact hne
  · rw [hwalk, entries_cons_none _ ht.plain]
  · rw [hwalk]
    exact forall_mem_cons.mpr ⟨ht.shaped, h.enters.shaped⟩

/-- A node that starts with a token. -/
theorem Passes.close (hk : isPlain k) (h : Moves P calm c [k] [] c₁)
    (h' : Passes P calm c₁ ns c') (ht : Tops P calm c ns n c') : Passes P calm c [n] c' := by
  obtain ⟨ks, hm, hb, he⟩ := h'
  exact ⟨[k] ++ ks, (h.trans hm).top ht (.inr nofun), fun hc => (Balanced.plain hk).append (hb hc),
    .append_even (Balanced.plain hk).even he⟩

/-- A node that starts with a part of its own. -/
theorem Passes.top (h : Passes P calm c ns c') (ht : Tops P calm c ns n c')
    (hne : ns ≠ []) : Passes P calm c [n] c' := by
  obtain ⟨ks, hm, h⟩ := h
  exact ⟨ks, hm.top ht (.inl hne), h⟩

/-- Tokens between an opening and its closing token. -/
theorem Passes.enclose {c₃ : Cursor} (ho : o.isOpener) (hk : k.opener? = some o)
    (h : Moves P calm c [o] [] c₁) (h' : Passes P calm c₁ ns c₂) (h'' : Moves P calm c₂ [k] [] c₃) :
    PassesFlat P calm c ns c₃ ∧ ∀ {n}, Tops P calm c ns n c₃ → PassesFlat P calm c [n] c₃ := by
  obtain ⟨ks, hm, hb, he⟩ := h'
  have hclose : c₂.next.kind = k := by
    rcases h''.head_cases hm.good with ⟨hnil, -⟩ | ⟨_, hkinds, -⟩
    · cases hnil
    · cases hkinds
      rfl
  have hmoves : Moves P calm c (o :: (ks ++ [k])) ns c₃ := by
    have := (h.trans hm).trans h''
    simpa using this
  have hkinds : (calm → Balanced (o :: (ks ++ [k])) ∧ Flat (o :: (ks ++ [k]))) ∧
      Smooth (o :: (ks ++ [k])) :=
    ⟨fun hc => ⟨.enclose ho hk (hb hc), .enclose ho hk (hb hc)⟩, EvenTo.enclose ho hk (hclose ▸ he)⟩
  exact ⟨⟨_, hmoves, hkinds⟩, fun ht => ⟨_, hmoves.top ht (.inr nofun), hkinds⟩⟩

end Nodes

section Tight

variable {o : Kind}

/-- An expression that starts with a part of its own. -/
theorem ReadsTight.of_parts (h : PassesFlat P calm c ns c') (ht : Tops P calm c ns (.expr e) c')
    (he : e.Tight) (hne : ns ≠ []) : ReadsTight P calm c e c' := by
  obtain ⟨ks, hm, h⟩ := h
  exact ⟨⟨ks, hm.top ht (.inl hne), h⟩, ht.span, he⟩

/-- An expression that starts with a token. -/
theorem ReadsTight.of_token (hk : isLevel k) (h : Moves P calm c [k] [] c₁)
    (h' : PassesFlat P calm c₁ ns c') (ht : Tops P calm c ns (.expr e) c')
    (he : e.Tight) : ReadsTight P calm c e c' := by
  obtain ⟨ks, hm, hb, hs⟩ := h'
  have hplain : Balanced [k] := .plain (isPlain_of_isLevel hk)
  exact ⟨⟨[k] ++ ks, (h.trans hm).top ht (.inr nofun),
    fun hc => ⟨hplain.append (hb hc).1, (Flat.level hk).append (hb hc).2⟩,
    Smooth.append (fun _ _ _ => ⟨hplain, .level hk⟩) hs⟩, ht.span, he⟩

/-- An expression between brackets. -/
theorem ReadsTight.of_brackets (ho : o.isOpener) (hk : k.opener? = some o)
    (h : Moves P calm c [o] [] c₁) (h' : Passes P calm c₁ ns c₂) (h'' : Moves P calm c₂ [k] [] c₃)
    (ht : Tops P calm c ns (.expr e) c₃) (he : e.Tight) : ReadsTight P calm c e c₃ :=
  ⟨(Passes.enclose ho hk h h' h'').2 ht, ht.span, he⟩

end Tight

theorem ReadsExpr.passes (h : ReadsExpr P calm c e c') : Passes P calm c [.expr e] c' := by
  obtain ⟨ks, hm, hb, he⟩ := h.moves
  exact ⟨ks, hm, fun hc => (hb hc).1, he⟩

/-- The last token of an expression is no semicolon. -/
theorem ReadsExpr.last (h : ReadsExpr P calm c e c') (hc : calm) : c'.last.kind ≠ .semicolon := by
  obtain ⟨ks, hm, hb, -⟩ := h.moves
  obtain ⟨ts, -, rfl, hlast, hlaid⟩ := hm.tokens
  have hunended := (hb hc).2.unended
  rcases eq_nil_or_concat ts with rfl | ⟨us, t, rfl⟩
  · exact absurd rfl (hlaid.ne_nil (cons_ne_nil _ _))
  · rw [hlast]
    simpa [Unended, kinds] using hunended

theorem ReadsExpr.good (h : ReadsExpr P calm c e c') : c'.Ends P := h.passes.good

theorem ReadsTight.good (h : ReadsTight P calm c e c') : c'.Ends P := h.moves.good

theorem ReadsSequence.good (h : ReadsSequence P calm c e c') : c'.Ends P := h.passes.good

theorem ReadsStmt.good {s : Stmt} (h : ReadsStmt P calm c s c') : c'.Ends P := h.passes.good

theorem ReadsTight.toExpr (h : ReadsTight P calm c e c') : ReadsExpr P calm c e c' where
  moves := by
    obtain ⟨ks, hm, hb, he⟩ := h.moves
    refine ⟨ks, hm, fun hc => ⟨(hb hc).1, ?_⟩, he.even.to _⟩
    rw [h.tight.shows.1]
    exact (hb hc).2
  span := h.span
  comma he := absurd he (by rw [h.tight.shows.2]; exact nofun)

section Items

variable {α : Type} (node : α → List Node) (isOpen : α → Bool) (Q : α → Prop)

/-- An item of a list with commas was read. -/
def ReadsItem (P : Token → Prop) (calm : Prop) (c : Cursor) (a : α) (c' : Cursor) : Prop :=
  Passes P calm c (node a) c' ∧ Q a ∧ (isOpen a = true → c'.next.kind ≠ .comma)

/-- Items with commas between them were read. -/
structure ReadsItems (P : Token → Prop) (calm : Prop) (c : Cursor) (as : List α) (c' : Cursor) :
    Prop where
  passes : Passes P calm c (as.flatMap node) c'
  all : ∀ a ∈ as, Q a
  inner : ∀ a ∈ as.dropLast, isOpen a = false
  last : ∀ a ∈ as.getLast?, isOpen a = true → c'.next.kind ≠ .comma

variable {node isOpen Q}

theorem ReadsItems.nil (h : c.Ends P) : ReadsItems node isOpen Q P calm c [] c :=
  ⟨.refl h, nofun, nofun, nofun⟩

/-- One more item, after a comma unless it is the first. -/
theorem ReadsItems.snoc {as : List α} {a : α} (h : ReadsItems node isOpen Q P calm c as c₁)
    (hsep : (as = [] ∧ c₂ = c₁) ∨ (c₁.next.kind = .comma ∧ Moves P calm c₁ [.comma] [] c₂))
    (ha : ReadsItem node isOpen Q P calm c₂ a c₃) :
    ReadsItems node isOpen Q P calm c (as ++ [a]) c₃ where
  passes := by
    have hnodes : (as ++ [a]).flatMap node = as.flatMap node ++ node a := by simp
    rw [hnodes]
    rcases hsep with ⟨-, rfl⟩ | ⟨-, hm⟩
    · exact h.passes.trans ha.1
    · exact h.passes.trans ((Passes.plain rfl hm).trans ha.1)
  all := forall_mem_append.mpr ⟨h.all, by simpa using ha.2.1⟩
  inner := by
    intro x hx
    rw [dropLast_concat] at hx
    rcases hsep with ⟨rfl, -⟩ | ⟨hc, -⟩
    · cases hx
    · rcases eq_nil_or_concat as with rfl | ⟨init, b, rfl⟩
      · cases hx
      · rw [concat_eq_append] at hx h
        rcases mem_append.mp hx with hx | hx
        · exact h.inner x (by rwa [dropLast_concat])
        · cases mem_singleton.mp hx
          cases ho : isOpen x with
          | false => rfl
          | true => exact absurd hc (h.last x (by simp) ho)
  last := by
    intro x hx
    simp only [getLast?_append, getLast?_singleton, Option.some_or, Option.mem_def,
      Option.some.injEq] at hx
    exact hx ▸ ha.2.2

/-- A pass over a list with commas ends it or reads one more item. -/
theorem reads_commaPass {close : Kind} {item : Parse α} [Keeps item] {acc : List α}
    {step : Pass (List α) (List α)}
    (hitem : ∀ {c a c'}, c.Ends P → Clean calm item c a c' → ReadsItem node isOpen Q P calm c a c')
    (hinv : ReadsItems node isOpen Q P calm c acc.reverse c₁)
    (h : Clean calm (commaPass close trailing item acc) c₁ step c') :
    step.Keeps (fun acc c' => ReadsItems node isOpen Q P calm c acc.reverse c')
      (fun as c' => Passes P calm c (as.flatMap node) c' ∧ (∀ a ∈ as, Q a) ∧
        ∀ a ∈ as.dropLast, isOpen a = false) c' := by
  unfold commaPass at h
  rcases h.isAtAny.ite with ⟨-, h⟩ | ⟨-, h⟩
  · obtain ⟨rfl, rfl⟩ := h.pure_inv
    exact ⟨hinv.passes, hinv.all, hinv.inner⟩
  dsimp only at h
  have hgood := hinv.passes.good
  have hagain {c₂ : Cursor} (hg : c₂.Ends P)
      (hsep : (acc.reverse = [] ∧ c₂ = c₁) ∨ (c₁.next.kind = .comma ∧ Moves P calm c₁ [.comma] [] c₂))
      (h : Clean calm (do return .again ((← item) :: acc)) c₂ step c') :
      step.Keeps (fun acc c' => ReadsItems node isOpen Q P calm c acc.reverse c')
        (fun as c' => Passes P calm c (as.flatMap node) c' ∧ (∀ a ∈ as, Q a) ∧
          ∀ a ∈ as.dropLast, isOpen a = false) c' := by
    obtain ⟨a, rfl, ha⟩ := h.map_inv
    change ReadsItems node isOpen Q P calm c (a :: acc).reverse c'
    rw [reverse_cons]
    exact hinv.snoc hsep (hitem hg ha)
  rcases h.ite with ⟨-, h⟩ | ⟨hempty, h⟩
  · obtain ⟨c₂, hk, hm, h⟩ := h.expect hgood nofun
    rcases h.ite with ⟨-, h⟩ | ⟨-, h⟩
    · rcases h.isAt.ite with ⟨-, h⟩ | ⟨-, h⟩
      · obtain ⟨rfl, rfl⟩ := h.pure_inv
        have hp := hinv.passes.trans (Passes.plain rfl hm)
        rw [append_nil] at hp
        exact ⟨hp, hinv.all, hinv.inner⟩
      · exact hagain hm.good (.inr ⟨hk, hm⟩) h
    · exact hagain hm.good (.inr ⟨hk, hm⟩) h
  · exact hagain hgood (.inl ⟨by simpa using hempty, rfl⟩) h

theorem reads_commaList {close : Kind} {item : Parse α} [Keeps item] {as : List α}
    (hclose : close ≠ .endMark)
    (hitem : ∀ {c a c'}, c.Ends P → Clean calm item c a c' → ReadsItem node isOpen Q P calm c a c')
    (hg : c.Ends P) (h : Clean calm (commaList close closeName trailing item) c as c') :
    ∃ c₁, Passes P calm c (as.flatMap node) c₁ ∧ Moves P calm c₁ [close] [] c' ∧ (∀ a ∈ as, Q a) ∧
      ∀ a ∈ as.dropLast, isOpen a = false := by
  unfold commaList at h
  obtain ⟨items, c₁, hloop, h⟩ := h.bind
  obtain ⟨hp, hall⟩ := hloop.loop_inv
    (fun acc c₁ => ReadsItems node isOpen Q P calm c acc.reverse c₁) _ (ReadsItems.nil hg)
    (reads_commaPass hitem)
  obtain ⟨c₂, -, hm, h⟩ := h.expect hp.good hclose
  obtain ⟨rfl, rfl⟩ := h.pure_inv
  exact ⟨c₁, hp, hm, hall⟩

end Items

theorem ReadsExpr.item (h : ReadsExpr P calm c e c') :
    ReadsItem (fun e => [.expr e]) Expr.endsInSteps (fun _ => True) P calm c e c' :=
  ⟨h.passes, trivial, h.comma⟩

namespace Rules

/-- A semicolon is read, or nothing before a closing brace and at the end. -/
theorem semicolon_inv (hg : c.Ends P) (h : Clean calm semicolon c u c') :
    ∃ ks, Moves P calm c ks [] c' ∧ Balanced ks ∧ c'.log = c.log := by
  unfold semicolon at h
  rcases h.branch with ⟨hk, h⟩ | ⟨-, h⟩
  · obtain ⟨t, -, hadv⟩ := h.map_inv
    obtain ⟨-, hm, hlog⟩ := Moves.advance hg hk (by decide) hadv
    exact ⟨_, hm, .plain rfl, hlog⟩
  rcases h.isAtAny.ite with ⟨-, h⟩ | ⟨-, h⟩
  · obtain ⟨-, rfl⟩ := h.pure_inv
    exact ⟨_, .refl hg, .nil, rfl⟩
  · obtain ⟨t, -, hexpect⟩ := h.map_inv
    obtain ⟨hk, hadv⟩ := hexpect.expect_inv
    obtain ⟨-, hm, hlog⟩ := Moves.advance hg hk (by decide) hadv
    exact ⟨_, hm, .plain rfl, hlog⟩

theorem reads_semicolon (hg : c.Ends P) (h : Clean calm semicolon c u c') :
    Passes P calm c [] c' := by
  obtain ⟨ks, hm, hb, -⟩ := semicolon_inv hg h
  exact ⟨ks, hm, fun _ => hb, hb.even.to _⟩

/-- A member of what was read before. -/
theorem reads_member (ho : ReadsTight P calm c₀ o c) (hk : c.next.kind = .dot)
    (h : Clean calm (member o) c e c') :
    ReadsTight P calm c₀ e c' ∧ (o.isNewCallee → e.isNewCallee) := by
  unfold member at h
  obtain ⟨c₁, hm, h⟩ := h.read ho.good hk nofun
  rcases h.current.ite with ⟨hbad, h⟩ | ⟨hgood, h⟩
  · obtain ⟨t, c₂, hexpect, h⟩ := h.bind
    simp [(hexpect.expect_inv).1] at hbad
  have hkind : c₁.next.kind = .identifier ∨ c₁.next.kind.isReserved := by
    by_cases hi : c₁.next.kind = .identifier
    · exact .inl hi
    · exact .inr (by simpa [hi] using hgood)
  have hlevel : isLevel c₁.next.kind := by
    cases hc : c₁.next.kind <;> first | rfl | (rw [hc] at hkind; revert hkind; decide)
  have hne := ne_endMark hlevel (by decide)
  obtain ⟨c₂, hm', h⟩ := h.read hm.good rfl hne
  obtain ⟨rfl, rfl⟩ := h.pure_inv
  have hword (hv : ∀ t, P t → Stream.Valid t) : IsWord c₁.next.text :=
    have hvalid := hv _ (hm.good.of_next hne)
    hkind.elim (fun h => (hvalid.name h).1) hvalid.word
  refine ⟨.of_parts (ho.moves.trans ((PassesFlat.level rfl hm).trans (.level hlevel hm')))
    ⟨⟨hword, fun _ => trivial⟩, by rw [hm'.last, ho.span]; rfl, rfl, rfl⟩ trivial nofun, id⟩

/-- A token that is an expression by itself. -/
theorem reads_token {e : Token → Expr} {x : Expr} (hg : c.Ends P)
    (hk : isLevel c.next.kind) (h : Clean calm (do return e (← advance)) c x c')
    (hs : P c.next → Shaped P calm (.expr (e c.next)))
    (he : ∀ t, (e t).span = t.span ∧ (Node.expr (e t)).children = [] ∧ number? (.expr (e t)) = none ∧
      (e t).Tight ∧ (e t).isNewCallee) : ReadsTight P calm c x c' ∧ x.isNewCallee := by
  have hne := ne_endMark hk (by decide)
  obtain ⟨c₁, hm, h⟩ := h.read hg rfl hne
  obtain ⟨rfl, rfl⟩ := h.pure_inv
  obtain ⟨hspan, hchildren, hnone, htight, hnew⟩ := he c.next
  refine ⟨.of_token hk hm (.refl hm.good) ⟨hs (hg.of_next hne), ?_, hchildren, hnone⟩ htight, hnew⟩
  rw [hm.last]
  exact hspan

theorem reads_params {names : List String} (hg : c.Ends P) (h : Clean calm params c names c') :
    PassesFlat P calm c [] c' ∧ ((∀ t, P t → Stream.Valid t) → ∀ n ∈ names, IsName n) := by
  have hitem {c₁ c₂ : Cursor} {name : String} (hg : c₁.Ends P)
      (h : Clean calm (do return (← expect .identifier "a parameter name").text) c₁ name c₂) :
      ReadsItem (fun _ => []) (fun _ => false)
        (fun name => (∀ t, P t → Stream.Valid t) → IsName name) P calm c₁ name c₂ := by
    obtain ⟨c₃, hk, hm, h⟩ := h.expect hg nofun
    obtain ⟨rfl, rfl⟩ := h.pure_inv
    exact ⟨.plain rfl hm, hg.name hk, nofun⟩
  unfold params at h
  obtain ⟨c₁, -, hm, h⟩ := h.expect hg nofun
  obtain ⟨c₂, hp, hm', hall, -⟩ := reads_commaList (by decide) hitem hm.good h
  rw [show names.flatMap (fun _ => ([] : List Node)) = [] by simp] at hp
  exact ⟨(Passes.enclose rfl rfl hm hp hm').1, fun hv n hn => hall n hn hv⟩

/-- Operators were read one after the other; the last comes first. -/
inductive Operators (P : Token → Prop) (calm : Prop) (c : Cursor) : List Token → Cursor → Prop
  | nil : Operators P calm c [] c
  | cons {ts : List Token} {c₁ c₂ : Cursor} (before : Operators P calm c ts c₁)
      (known : (UnaryOp.ofKind? c₁.next.kind).isSome = true ∨
        (UpdateOp.ofKind? c₁.next.kind).isSome = true)
      (moves : Moves P calm c₁ [c₁.next.kind] [] c₂) : Operators P calm c (c₁.next :: ts) c₂

theorem reads_operators (hg : c.Ends P) (h : Clean calm (loop operatorPass []) c ts c') :
    Operators P calm c ts c' ∧ c'.Ends P := by
  let Inv (ts : List Token) (c₁ : Cursor) : Prop := Operators P calm c ts c₁ ∧ c₁.Ends P
  refine h.loop_inv Inv Inv ⟨.nil, hg⟩ ?_
  rintro ts c₁ step c₂ ⟨hts, hg⟩ h
  unfold operatorPass at h
  rcases h.current.ite with ⟨hop, h⟩ | ⟨-, h⟩
  · rw [Bool.or_eq_true] at hop
    have hne : c₁.next.kind ≠ .endMark := fun hk => absurd (hk ▸ hop) (by decide)
    obtain ⟨c₃, hm, h⟩ := h.read hg rfl hne
    obtain ⟨rfl, rfl⟩ := h.pure_inv
    exact ⟨.cons hts hop hm, hm.good⟩
  · obtain ⟨rfl, rfl⟩ := h.pure_inv
    exact ⟨hts, hg⟩

/-- An operator is applied to the operand behind it. -/
theorem reads_applyPrefixed
    (hop : (UnaryOp.ofKind? c.next.kind).isSome ∨ (UpdateOp.ofKind? c.next.kind).isSome)
    (hm : Moves P calm c [c.next.kind] [] c₁) (ho : ReadsTight P calm c₁ operand c₂)
    (h : Clean calm (applyPrefixed c.next operand) c₂ e c₃) :
    c₃ = c₂ ∧ ReadsTight P calm c e c₂ := by
  have hlevel : isLevel c.next.kind := by
    cases hk : c.next.kind <;> first | rfl | (rw [hk] at hop; exact absurd hop (by decide))
  have hspan : c.next.span.through operand.span = c.next.span.through c₂.last.span := by
    rw [ho.span]
    rfl
  unfold applyPrefixed at h
  dsimp only at h
  split at h
  · rename_i op hsome
    rcases h.ite with ⟨-, h⟩ | ⟨htarget, h⟩
    · obtain ⟨_, _, hfail, -⟩ := h.bind
      exact hfail.not_fail.elim
    · obtain ⟨rfl, rfl⟩ := h.pure_inv
      have hknown : op.Known := by
        cases hk : c.next.kind <;> rw [hk] at hsome <;> cases hsome <;> trivial
      exact ⟨rfl, .of_token hlevel hm ho.moves
        ⟨⟨fun _ => ⟨hknown, by simpa using htarget⟩, fun _ => trivial⟩, hspan, rfl, rfl⟩ trivial⟩
  · rename_i hnone
    obtain ⟨rfl, rfl⟩ := h.pure_inv
    rw [hnone] at hop
    obtain ⟨op, hsome⟩ := Option.isSome_iff_exists.mp (hop.resolve_right (by rintro ⟨⟩))
    have hknown : op.Known := by
      cases hk : c.next.kind <;> rw [hk] at hsome <;> cases hsome <;> trivial
    rw [hsome]
    exact ⟨rfl, .of_token hlevel hm ho.moves
      ⟨⟨fun _ => hknown, fun _ => trivial⟩, hspan, rfl, rfl⟩ trivial⟩

theorem reads_applyAll (hts : Operators P calm c ts c₁) (ho : ReadsTight P calm c₁ operand c₂)
    (h : Clean calm (applyAll ts operand) c₂ e c₃) : c₃ = c₂ ∧ ReadsTight P calm c e c₂ := by
  induction hts generalizing operand with
  | nil =>
    obtain ⟨rfl, rfl⟩ := h.pure_inv
    exact ⟨rfl, ho⟩
  | cons before known moves ih =>
    unfold applyAll at h
    obtain ⟨x, c₄, hx, happly⟩ := h.bind
    obtain ⟨rfl, hx⟩ := reads_applyPrefixed known moves ho hx
    exact ih hx happly

/-- One more operand in a chain: it lies behind the tree, and its step bindings come last. -/
theorem attach_inv (hop : op.Known) (hr : ∀ n ∈ walkExpr right, Shaped P calm n)
    (ht : ∀ n ∈ walkExpr tree, Shaped P calm n) (hright : right.Tight) (htree : tree.Tight) :
    (∀ {ts}, Laid ts [.expr tree, .expr right] → Laid ts [.expr (Chain.attach op right tree)]) ∧
      entries (walkExpr (Chain.attach op right tree)) =
        entries (walkExpr tree) ++ entries (walkExpr right) ∧
      (∀ n ∈ walkExpr (Chain.attach op right tree), Shaped P calm n) ∧
      (Chain.attach op right tree).Tight ∧
      (Chain.attach op right tree).span = tree.span.through right.span := by
  have hnode {l r : Expr} {o : BinaryOp} (ho : Shaped P calm (.expr (Chain.node l o r)))
      (hl : ∀ n ∈ walkExpr l, Shaped P calm n) (hr : ∀ n ∈ walkExpr r, Shaped P calm n) :
      ∀ n ∈ walkExpr (Chain.node l o r), Shaped P calm n :=
    forall_mem_cons.mpr ⟨ho, forall_mem_append.mpr ⟨hl, hr⟩⟩
  have hlast {l : Expr} (hl : ∀ n ∈ walkExpr l, Shaped P calm n) :
      (∀ {ts}, Laid ts [.expr l, .expr right] → Laid ts [.expr (Chain.node l op right)]) ∧
        entries (walkExpr (Chain.node l op right)) = entries (walkExpr l) ++ entries (walkExpr right) ∧
        (∀ n ∈ walkExpr (Chain.node l op right), Shaped P calm n) ∧
        (Chain.node l op right).Tight ∧
        (Chain.node l op right).span = l.span.through right.span :=
    ⟨fun h => h.pair rfl rfl, entries_append .., hnode ⟨fun _ => hop, fun _ => trivial⟩ hl hr,
      ⟨rfl, hright⟩, rfl⟩
  fun_induction Chain.attach op right tree with
  | case1 s l o r hlt ih =>
    obtain ⟨ho, hparts⟩ := forall_mem_cons.mp ht
    obtain ⟨hl, hr'⟩ := forall_mem_append.mp hparts
    obtain ⟨hlaid, hentries, hshaped, htight, hspan⟩ := ih hr' htree.2
    refine ⟨fun h => ?_, ?_, hnode ho hl hshaped, ⟨rfl, htight⟩, ?_⟩
    · obtain ⟨us, vs, rfl, hus, hvs⟩ := @Laid.split _ [.expr l] _ h.unfold
      exact (hus.append (hlaid hvs)).pair rfl rfl
    · change entries (walkExpr l ++ _) = entries (walkExpr l ++ walkExpr r) ++ _
      rw [entries_append, entries_append, hentries, append_assoc]
    · change l.span.through (Chain.attach op right r).span = s.through right.span
      rw [hspan, htree.1]
      rfl
  | case2 s l o r hlt => exact hlast ht
  | case3 tree => exact hlast ht

theorem reads_attach (hop : op.Known) (ht : ReadsTight P calm c tree c₁) (hk : isLevel k)
    (hm : Moves P calm c₁ [k] [] c₂) (hr : ReadsTight P calm c₂ right c') :
    ReadsTight P calm c (Chain.attach op right tree) c' := by
  obtain ⟨ks, hmoves, hkinds⟩ := ht.moves.trans ((PassesFlat.level hk hm).trans hr.moves)
  obtain ⟨hl, hr'⟩ := forall_mem_append.mp hmoves.enters.shaped
  obtain ⟨hlaid, hentries, hs, htight, hspan⟩ :=
    attach_inv hop (by simpa [walk] using hr') hl hr.tight ht.tight
  refine ⟨⟨ks, hmoves.regroup hlaid ?_ ?_, hkinds⟩, ?_, htight⟩
  · simp [walk, hentries]
  · simpa [walk] using hs
  · rw [hspan, ht.span, hr.span]
    rfl

section Expressions

variable {r : Rules} [Keeps r.assignment] (hr : Sound P calm r)

include hr

theorem reads_expression (hg : c.Ends P) (h : Clean calm r.expression c e c') :
    ReadsSequence P calm c e c' := by
  unfold expression at h
  obtain ⟨first, c₁, hfirst, h⟩ := h.bind
  have hfirst := hr.assignment hg hfirst
  rcases h.isAt.ite with ⟨-, h⟩ | ⟨-, h⟩
  · obtain ⟨rfl, rfl⟩ := h.pure_inv
    exact ⟨hfirst.passes, hfirst.last⟩
  obtain ⟨more, rfl, hloop⟩ := h.map_inv
  let Inv (acc : List Expr) (c₁ : Cursor) : Prop :=
    ReadsItems (fun e => [.expr e]) Expr.endsInSteps (fun _ => True) P calm c
      (first :: acc.reverse) c₁ ∧ (acc.headD first).span.stop = c₁.last.span.stop ∧
      (calm → c₁.last.kind ≠ .semicolon)
  obtain ⟨hitems, hstop, hlast⟩ : Inv more c' := by
    refine hloop.loop_inv Inv Inv
      ⟨(ReadsItems.nil hg).snoc (.inl ⟨rfl, rfl⟩) hfirst.item, by rw [headD_nil, hfirst.span]; rfl,
        hfirst.last⟩ ?_
    rintro acc c₁ step c₃ ⟨hinv, hstop⟩ h
    unfold sequencePass at h
    rcases h.branch with ⟨hk, h⟩ | ⟨-, h⟩
    · obtain ⟨c₄, hm, h⟩ := h.read hinv.passes.good hk nofun
      obtain ⟨e, rfl, he⟩ := h.map_inv
      have he := hr.assignment hm.good he
      have happend : first :: (e :: acc).reverse = (first :: acc.reverse) ++ [e] := by simp
      refine ⟨?_, by rw [headD_cons, he.span]; rfl, he.last⟩
      rw [happend]
      exact hinv.snoc (.inr ⟨hk, hm⟩) he.item
    · obtain ⟨rfl, rfl⟩ := h.pure_inv
      exact ⟨hinv, hstop⟩
  have hspan : first.span.through (more.headD first).span = c.next.span.through c'.last.span := by
    rw [hfirst.span, Span.through, Span.through, hstop]
    rfl
  have hp := hitems.passes
  rw [← map_eq_flatMap] at hp
  exact ⟨hp.top ⟨⟨nofun, fun _ => hitems.inner⟩, hspan, rfl, rfl⟩ nofun, hlast⟩

/-- Expressions with commas between them up to a closing token. -/
theorem reads_exprs {close : Kind} (hclose : close ≠ .endMark) (hg : c.Ends P)
    (h : Clean calm (commaList close closeName trailing r.assignment) c es c') :
    ∃ c₁, Passes P calm c (es.map .expr) c₁ ∧ Moves P calm c₁ [close] [] c' ∧ LastInSteps es := by
  obtain ⟨c₁, hp, hm, -, hlast⟩ :=
    reads_commaList hclose (fun hg h => (hr.assignment hg h).item) hg h
  rw [← map_eq_flatMap] at hp
  exact ⟨c₁, hp, hm, hlast⟩

theorem reads_array (hg : c.Ends P) (hk : c.next.kind = .lbracket) (h : Clean calm r.array c e c') :
    ReadsTight P calm c e c' ∧ e.isNewCallee := by
  unfold array at h
  obtain ⟨c₁, hm, h⟩ := h.read hg hk nofun
  obtain ⟨es, rfl, hes⟩ := h.span_inv
  obtain ⟨c₃, hp, hm', hlast⟩ := reads_exprs hr (by decide) hm.good hes
  exact ⟨.of_brackets rfl rfl hm hp hm' ⟨⟨fun _ => trivial, fun _ => hlast⟩, rfl, rfl, rfl⟩ trivial,
    rfl⟩

theorem reads_property {p : Property} (hg : c.Ends P) (h : Clean calm r.property c p c') :
    ReadsItem (fun p => [.property p]) (fun p => p.value.endsInSteps) (fun _ => True) P calm c p
      c' := by
  unfold property at h
  have h := h.current
  dsimp only at h
  -- The key is one token, whichever way it is read.
  have hvalue {c₁ : Cursor} (hkey : Moves P calm c [c.next.kind] [] c₁)
      (hplain : isPlain c.next.kind)
      (h : Clean calm (do
        let atColon ← isAt .colon
        if (decide (c.next.kind = .identifier) && !atColon) = true then
          pure (.mk c.next.span c.next.text (.identifier c.next.span c.next.text) true)
        else do
          let _ ← expect .colon "':'"
          let value ← r.assignment
          pure (.mk (c.next.span.through value.span) c.next.text value false)) c₁ p c') :
      ReadsItem (fun p => [.property p]) (fun p => p.value.endsInSteps) (fun _ => True) P calm c p
        c' := by
    rcases h.isAt.ite with ⟨hname, h⟩ | ⟨-, h⟩
    · obtain ⟨rfl, rfl⟩ := h.pure_inv
      simp only [Bool.and_eq_true, decide_eq_true_eq] at hname
      have hspan : c.next.span = c.next.span.through c'.last.span := by rw [hkey.last]; rfl
      have hvalue : Passes P calm c [.expr (.identifier c.next.span c.next.text)] c' :=
        .close hplain hkey (.refl hkey.good)
          ⟨⟨hg.name hname.1, fun _ => trivial⟩, hspan, rfl, rfl⟩
      exact ⟨hvalue.top ⟨⟨fun _ => trivial, fun _ => trivial⟩, hspan, rfl, rfl⟩ nofun, trivial, nofun⟩
    · obtain ⟨c₂, -, hm, h⟩ := h.expect hkey.good nofun
      obtain ⟨value, rfl, hval⟩ := h.map_inv
      have hval := hr.assignment hm.good hval
      exact ⟨.close hplain hkey ((Passes.plain rfl hm).trans hval.passes)
        ⟨⟨fun _ => trivial, fun _ => trivial⟩,
          (congrArg (Span.through _) hval.span).trans rfl, rfl, rfl⟩,
        trivial, hval.comma⟩
  rcases h.ite with ⟨hk, h⟩ | ⟨hk, h⟩
  · have hplain : isPlain c.next.kind ∧ c.next.kind ≠ .endMark := by
      cases hkind : c.next.kind <;> first | decide | (rw [hkind] at hk; exact absurd hk (by decide))
    obtain ⟨c₁, hkey, h⟩ := h.read hg rfl hplain.2
    exact hvalue hkey hplain.1 h
  · obtain ⟨c₁, hkind, hm, h⟩ := h.expect hg nofun
    rw [← hkind] at hm
    exact hvalue hm (by rw [hkind]; rfl) h

theorem reads_object (hg : c.Ends P) (hk : c.next.kind = .lbrace) (h : Clean calm r.object c e c') :
    ReadsTight P calm c e c' ∧ e.isNewCallee := by
  unfold object at h
  obtain ⟨c₁, hm, h⟩ := h.read hg hk nofun
  obtain ⟨ps, rfl, hps⟩ := h.span_inv
  obtain ⟨c₃, hp, hm', -, hlast⟩ := reads_commaList (by decide) (reads_property hr) hm.good hps
  rw [← map_eq_flatMap] at hp
  refine ⟨.of_brackets rfl rfl hm hp hm' ⟨⟨fun _ => trivial, fun _ e he => ?_⟩, rfl, rfl, rfl⟩
    trivial, rfl⟩
  rw [← map_dropLast] at he
  obtain ⟨p, hp, rfl⟩ := mem_map.mp he
  exact hlast p hp

theorem reads_template (hg : c.Ends P) (hk : c.next.kind = .templateHead)
    (h : Clean calm r.template c e c') : ReadsTight P calm c e c' ∧ e.isNewCallee := by
  unfold template at h
  obtain ⟨c₁, hm, h⟩ := h.read hg hk nofun
  obtain ⟨⟨quasis, es⟩, rfl, hloop⟩ := h.span_inv
  let Inv (acc : List String × List Expr) (c₃ : Cursor) : Prop :=
    Passes P calm c₁ (acc.2.reverse.map .expr) c₃ ∧ acc.1.length = acc.2.length + 1
  let Post (parts : List String × List Expr) (c₄ : Cursor) : Prop :=
    ∃ c₃, Passes P calm c₁ (parts.2.map .expr) c₃ ∧ Moves P calm c₃ [.templateTail] [] c₄ ∧
      parts.1.length = parts.2.length + 1
  obtain ⟨c₃, hp, hm', hlen⟩ : Post (quasis, es) c' := by
    refine hloop.loop_inv Inv Post ⟨.refl hm.good, rfl⟩ ?_
    rintro acc c₃ step c₄ ⟨hp, hlen⟩ h
    unfold templatePass at h
    obtain ⟨e, c₅, he, h⟩ := h.bind
    have hp := hp.trans (reads_expression hr hp.good he).passes
    rcases h.current.ite with ⟨hk, h⟩ | ⟨-, h⟩
    · obtain ⟨c₆, hm, h⟩ := h.read hp.good hk nofun
      obtain ⟨rfl, rfl⟩ := h.pure_inv
      have := hp.trans (Passes.plain rfl hm)
      exact ⟨by simpa using this, congrArg (· + 1) hlen⟩
    · obtain ⟨c₆, -, hm, h⟩ := h.expect hp.good nofun
      obtain ⟨rfl, rfl⟩ := h.pure_inv
      exact ⟨c₅, by simpa using hp, hm, by simpa using hlen⟩
  exact ⟨.of_brackets rfl rfl hm hp hm' ⟨⟨fun _ => hlen, fun _ => trivial⟩, rfl, rfl, rfl⟩ trivial, rfl⟩

theorem reads_args (hg : c.Ends P) (hk : c.next.kind = .lparen) (h : Clean calm r.args c es c') :
    PassesFlat P calm c (es.map .expr) c' ∧ LastInSteps es := by
  unfold args at h
  obtain ⟨c₁, hm, h⟩ := h.read hg hk nofun
  obtain ⟨c₃, hp, hm', hlast⟩ := reads_exprs hr (by decide) hm.good h
  exact ⟨(Passes.enclose rfl rfl hm hp hm').1, hlast⟩

/-- An element of what was read before. -/
theorem reads_index (ho : ReadsTight P calm c₀ o c) (hk : c.next.kind = .lbracket)
    (h : Clean calm (r.index o) c e c') :
    ReadsTight P calm c₀ e c' ∧ (o.isNewCallee → e.isNewCallee) := by
  unfold index at h
  obtain ⟨c₁, hm, h⟩ := h.read ho.good hk nofun
  obtain ⟨i, c₂, hi, h⟩ := h.bind
  have hi := reads_expression hr hm.good hi
  obtain ⟨c₃, -, hm', h⟩ := h.expect hi.good nofun
  obtain ⟨rfl, rfl⟩ := h.pure_inv
  exact ⟨.of_parts (ho.moves.trans (Passes.enclose rfl rfl hm hi.passes hm').1)
    ⟨⟨fun _ => trivial, fun _ => trivial⟩, by rw [hm'.last, ho.span]; rfl, rfl, rfl⟩
    trivial nofun, id⟩

/-- A pass over members leaves what was read, or reads a member or an element of it. -/
theorem reads_memberPass {step : Pass Expr Expr} (ho : ReadsTight P calm c₀ o c)
    (h : Clean calm (r.memberPass o) c step c') :
    step.Keeps (fun e c' => ReadsTight P calm c₀ e c' ∧ (o.isNewCallee → e.isNewCallee))
      (fun e c' => ReadsTight P calm c₀ e c' ∧ (o.isNewCallee → e.isNewCallee)) c' := by
  unfold memberPass at h
  rcases h.branch with ⟨hk, h⟩ | ⟨-, h⟩
  · obtain ⟨e, rfl, he⟩ := h.map_inv
    exact reads_member ho hk he
  rcases h.branch with ⟨hk, h⟩ | ⟨-, h⟩
  · obtain ⟨e, rfl, he⟩ := h.map_inv
    exact reads_index hr ho hk he
  · obtain ⟨rfl, rfl⟩ := h.pure_inv
    exact ⟨ho, id⟩

end Expressions

section Statements

variable {r : Rules} [Keeps r.statement] (hr : Sound P calm r)

theorem statement?_inv {s : Option Stmt} (h : Clean calm (r.statement? stop) c s c') :
    ∃ s', s = some s' ∧ Clean calm r.statement c s' c' := by
  unfold statement? at h
  have hread := h.get.tryCatch_inv inferInstance (by dsimp only; infer_instance) fun e he => by
    cases e with
    | misplaced => exact absurd rfl he
    | _ => rfl
  obtain ⟨s', rfl, hs⟩ := hread.map_inv
  exact ⟨s', rfl, hs⟩

include hr

theorem reads_statements (hg : c.Ends P) (h : Clean calm (r.statements stop) c ss c') :
    Passes P calm c (ss.map .stmt) c' := by
  refine h.loop_inv (fun acc c₁ => Passes P calm c (acc.reverse.map .stmt) c₁)
    (fun ss c₁ => Passes P calm c (ss.map .stmt) c₁) (.refl hg) ?_
  intro acc c₁ step c₂ hinv h
  unfold statementPass at h
  rcases h.isAtAny.ite with ⟨-, h⟩ | ⟨-, h⟩
  · obtain ⟨rfl, rfl⟩ := h.pure_inv
    exact hinv
  · obtain ⟨s, c₃, hs, h⟩ := h.bind_of fun s => by cases s <;> infer_instance
    obtain ⟨s, rfl, hread⟩ := statement?_inv hs
    obtain ⟨rfl, rfl⟩ := h.pure_inv
    have := hinv.trans (hr.statement hinv.good hread).passes
    change Passes P calm c ((s :: acc).reverse.map .stmt) c₂
    simpa using this

/-- The statements between two braces, and a node over them. -/
theorem reads_body (hg : c.Ends P) (h : Clean calm r.body c ss c') :
    PassesFlat P calm c (ss.map .stmt) c' ∧
      ∀ {n}, Tops P calm c (ss.map .stmt) n c' → PassesFlat P calm c [n] c' := by
  unfold body at h
  obtain ⟨c₁, -, hm, h⟩ := h.expect hg nofun
  obtain ⟨ss, c₂, hss, h⟩ := h.bind
  have hp := reads_statements hr hm.good hss
  obtain ⟨c₃, -, hm', h⟩ := h.expect hp.good nofun
  obtain ⟨rfl, rfl⟩ := h.pure_inv
  exact Passes.enclose rfl rfl hm hp hm'

theorem reads_block {b : Span × List Stmt} (hg : c.Ends P) (h : Clean calm r.block c b c') :
    PassesFlat P calm c [.stmt (.block b.1 b.2)] c' := by
  unfold block at h
  obtain ⟨ss, rfl, hbody⟩ := h.current.span_inv
  exact (reads_body hr hg hbody).2 ⟨⟨fun _ => trivial, fun _ => trivial⟩, rfl, rfl, rfl⟩

theorem reads_functionExpr (hg : c.Ends P) (hk : c.next.kind = .kwFunction)
    (h : Clean calm r.functionExpr c e c') : ReadsTight P calm c e c' ∧ e.isNewCallee := by
  unfold functionExpr at h
  obtain ⟨c₁, hm, h⟩ := h.read hg hk nofun
  obtain ⟨name, c₂, hname, h⟩ := h.bind
  obtain ⟨names, c₃, hparams, h⟩ := h.bind
  obtain ⟨ss, rfl, hbody⟩ := h.span_inv
  have hname : PassesFlat P calm c₁ [] c₂ ∧
      ((∀ t, P t → Stream.Valid t) → ∀ n ∈ name, IsName n) := by
    rcases hname.branch with ⟨hk, h⟩ | ⟨-, h⟩
    · obtain ⟨c₅, hm', h⟩ := h.read hm.good hk nofun
      obtain ⟨rfl, rfl⟩ := h.pure_inv
      exact ⟨.level rfl hm', fun hv n hn => Option.mem_some.mp hn ▸ hm.good.name hk hv⟩
    · obtain ⟨rfl, rfl⟩ := h.pure_inv
      exact ⟨.refl hm.good, nofun⟩
  obtain ⟨hp, hnames⟩ := reads_params hname.1.good hparams
  have hp' := (reads_body hr hp.good hbody).1
  exact ⟨.of_token rfl hm (hname.1.trans (hp.trans hp'))
    ⟨⟨fun hv => ⟨hname.2 hv, hnames hv⟩, fun _ => trivial⟩, rfl, rfl, rfl⟩ trivial, rfl⟩

end Statements

section Both

variable {r : Rules} [Keeps r.assignment] [Keeps r.statement] (hr : Sound P calm r)

include hr

theorem reads_primary (hg : c.Ends P) (h : Clean calm r.primary c e c') :
    ReadsTight P calm c e c' ∧ e.isNewCallee := by
  unfold primary at h
  have h := h.current
  split at h
  case h_1 hk =>
    exact reads_token hg (by rw [hk]; rfl) h (fun hP => ⟨fun hv => (hv _ hP).numeral hk,
      fun _ => trivial⟩) fun t => ⟨rfl, rfl, rfl, trivial, rfl⟩
  case h_2 hk | h_5 hk | h_6 hk | h_7 hk =>
    exact reads_token hg (by rw [hk]; rfl) h (fun _ => ⟨fun _ => trivial, fun _ => trivial⟩)
      fun t => ⟨rfl, rfl, rfl, trivial, rfl⟩
  case h_3 hk =>
    exact reads_token hg (by rw [hk]; rfl) h (fun _ => ⟨fun _ => rfl, fun _ => trivial⟩)
      fun t => ⟨rfl, rfl, rfl, trivial, rfl⟩
  case h_4 hk => exact reads_template hr hg hk h
  case h_8 hk =>
    exact reads_token hg (by rw [hk]; rfl) h (fun _ => ⟨hg.name hk, fun _ => trivial⟩)
      fun t => ⟨rfl, rfl, rfl, trivial, rfl⟩
  case h_9 hk =>
    obtain ⟨c₁, hm, h⟩ := h.read hg hk (by decide)
    obtain ⟨inner, c₂, hinner, h⟩ := h.bind
    have hinner := reads_expression hr hm.good hinner
    obtain ⟨c₃, -, hm', h⟩ := h.expect hinner.good (by decide)
    obtain ⟨rfl, rfl⟩ := h.spanFrom.pure_inv
    exact ⟨.of_brackets rfl rfl hm hinner.passes hm'
      ⟨⟨fun _ => trivial, fun _ => trivial⟩, rfl, rfl, rfl⟩ trivial,
    rfl⟩
  case h_10 hk => exact reads_array hr hg hk h
  case h_11 hk => exact reads_object hr hg hk h
  case h_12 hk => exact reads_functionExpr hr hg hk h
  case h_13 => exact h.not_fail.elim

theorem reads_new (hg : c.Ends P) (hk : c.next.kind = .kwNew) (h : Clean calm r.new c e c') :
    ReadsTight P calm c e c' := by
  unfold new at h
  obtain ⟨c₁, hm, h⟩ := h.read hg hk nofun
  obtain ⟨first, c₂, hfirst, h⟩ := h.bind
  obtain ⟨callee, c₃, hcallee, h⟩ := h.bind
  obtain ⟨es, rfl, hargs⟩ := h.span_inv
  let Inv (e : Expr) (c₃ : Cursor) : Prop := ReadsTight P calm c₁ e c₃ ∧ e.isNewCallee
  obtain ⟨hcallee, hnew⟩ : Inv callee c₃ := by
    refine hcallee.loop_inv Inv Inv (reads_primary hr hm.good hfirst) ?_
    rintro o c₅ step c₆ ⟨ho, hnew⟩ h
    have := reads_memberPass hr ho h
    cases step with
    | again e => exact ⟨this.1, this.2 hnew⟩
    | leave e => exact ⟨this.1, this.2 hnew⟩
  have hargs : PassesFlat P calm c₃ (es.map .expr) c' ∧ LastInSteps es := by
    rcases hargs.branch with ⟨hk, h⟩ | ⟨-, h⟩
    · exact reads_args hr hcallee.good hk h
    · obtain ⟨rfl, rfl⟩ := h.pure_inv
      exact ⟨.refl hcallee.good, nofun⟩
  exact .of_token rfl hm (hcallee.moves.trans hargs.1)
    ⟨⟨fun _ => hnew, fun _ => hargs.2⟩, rfl, rfl, rfl⟩ trivial

theorem reads_callMember (hg : c.Ends P) (h : Clean calm r.callMember c e c') :
    ReadsTight P calm c e c' := by
  unfold callMember at h
  obtain ⟨first, c₁, hfirst, h⟩ := h.bind
  have hfirst : ReadsTight P calm c first c₁ := by
    rcases hfirst.branch with ⟨hk, h⟩ | ⟨-, h⟩
    · exact reads_new hr hg hk h
    · exact (reads_primary hr hg h).1
  refine h.loop_inv (fun e c₂ => ReadsTight P calm c e c₂) (fun e c₂ => ReadsTight P calm c e c₂)
    hfirst ?_
  intro o c₂ step c₃ ho h
  unfold callPass at h
  rcases h.branch with ⟨hk, h⟩ | ⟨-, h⟩
  · obtain ⟨es, rfl, hargs⟩ := h.span_inv
    obtain ⟨hp, hlast⟩ := reads_args hr ho.good hk hargs
    exact .of_parts (ho.moves.trans hp)
      ⟨⟨fun _ => trivial, fun _ => hlast⟩, by rw [ho.span]; rfl, rfl, rfl⟩ trivial nofun
  · have := reads_memberPass hr ho h
    cases step <;> exact this.1

theorem reads_postfixed (hg : c.Ends P) (h : Clean calm r.postfixed c e c') :
    ReadsTight P calm c e c' := by
  unfold postfixed at h
  obtain ⟨e, c₁, he, h⟩ := h.bind_of fun e => .bind inferInstance fun t => by
    split <;> infer_instance
  have he := reads_callMember hr hg he
  have h := h.current
  split at h
  · obtain ⟨rfl, rfl⟩ := h.pure_inv
    exact he
  rename_i op hop
  rcases h.ite with ⟨-, h⟩ | ⟨htarget, h⟩
  · obtain ⟨_, _, hfail, -⟩ := h.bind
    exact hfail.not_fail.elim
  have hk : op.Known ∧ isLevel c₁.next.kind ∧ c₁.next.kind ≠ .endMark := by
    cases hk : c₁.next.kind <;> rw [hk] at hop <;> cases hop <;> exact ⟨trivial, rfl, by decide⟩
  obtain ⟨c₂, hm, h⟩ := h.read he.good rfl hk.2.2
  obtain ⟨rfl, rfl⟩ := h.pure_inv
  exact .of_parts (he.moves.trans (.level hk.2.1 hm))
    ⟨⟨fun _ => ⟨hk.1, by simpa using htarget⟩, fun _ => trivial⟩,
      by rw [hm.last, he.span]; rfl, rfl, rfl⟩
    trivial (by simp)

theorem reads_unary (hg : c.Ends P) (h : Clean calm r.unary c e c') : ReadsTight P calm c e c' := by
  unfold unary at h
  obtain ⟨ts, c₁, hloop, h⟩ := h.bind
  obtain ⟨operand, c₂, hoperand, h⟩ := h.bind
  obtain ⟨hts, hg1⟩ := reads_operators hg hloop
  obtain ⟨rfl, he⟩ := reads_applyAll hts (reads_postfixed hr hg1 hoperand) h
  exact he

theorem reads_binary (hg : c.Ends P) (h : Clean calm r.binary c e c') :
    ReadsTight P calm c e c' := by
  unfold binary at h
  obtain ⟨first, c₁, hfirst, h⟩ := h.bind
  obtain ⟨more, rfl, hloop⟩ := h.map_inv
  have hfirst := reads_unary hr hg hfirst
  refine hloop.loop_inv
    (fun acc : List _ => fun c₃ => ReadsTight P calm c (Chain.group first acc.reverse) c₃)
    (fun more c₃ => ReadsTight P calm c (Chain.group first more) c₃) hfirst ?_
  intro acc c₃ step c₄ htree h
  unfold chainPass at h
  have h := h.current
  split at h
  · rename_i op hop
    have hk : op.Known ∧ isLevel c₃.next.kind ∧ c₃.next.kind ≠ .endMark := by
      cases hk : c₃.next.kind <;> rw [hk] at hop <;> cases hop <;> exact ⟨trivial, rfl, by decide⟩
    obtain ⟨c₅, hm, h⟩ := h.read htree.good rfl hk.2.2
    obtain ⟨right, rfl, hright⟩ := h.map_inv
    change ReadsTight P calm c (Chain.group first ((op, right) :: acc).reverse) c₄
    rw [reverse_cons, Chain.group, foldl_append]
    exact reads_attach hk.1 htree hk.2.1 hm (reads_unary hr hm.good hright)
  · obtain ⟨rfl, rfl⟩ := h.pure_inv
    exact htree

theorem reads_conditional (hg : c.Ends P) (h : Clean calm r.conditional c e c') :
    ReadsExpr P calm c e c' := by
  unfold conditional at h
  obtain ⟨test, c₁, htest, h⟩ := h.bind
  have htest := reads_binary hr hg htest
  rcases h.isAt.ite with ⟨-, h⟩ | ⟨hk, h⟩
  · obtain ⟨rfl, rfl⟩ := h.pure_inv
    exact htest.toExpr
  obtain ⟨c₂, hm, h⟩ := h.read htest.good (k := .question) (by simpa using hk) nofun
  obtain ⟨consequent, c₃, hconsequent, h⟩ := h.bind
  have hconsequent := hr.assignment hm.good hconsequent
  obtain ⟨c₄, -, hm', h⟩ := h.expect hconsequent.good nofun
  obtain ⟨alternate, rfl, halternate⟩ := h.map_inv
  have halternate := hr.assignment hm'.good halternate
  have hspan : test.span.through alternate.span = c.next.span.through c'.last.span := by
    rw [htest.span, halternate.span]
    rfl
  obtain ⟨ks, hks, hb, he⟩ := htest.moves
  obtain ⟨ls, hls, hb', he'⟩ := hconsequent.moves
  obtain ⟨js, hjs, hb'', he''⟩ := halternate.moves
  refine ⟨⟨ks ++ ([.question] ++ (ls ++ ([.colon] ++ js))), ?_, fun hc => ?_, ?_⟩, hspan,
    halternate.comma⟩
  · exact (hks.trans (hm.trans (hls.trans (hm'.trans hjs)))).top
      ⟨⟨fun _ => trivial, fun _ => trivial⟩, hspan, rfl, rfl⟩
      (.inl nofun)
  · obtain ⟨hbal, hflat⟩ := hb hc
    obtain ⟨hbal', hparts'⟩ := hb' hc
    obtain ⟨hbal'', hparts''⟩ := hb'' hc
    exact ⟨hbal.append (.cons rfl (hbal'.append (.cons rfl hbal''))),
      shows_choice hflat hparts' hparts''⟩
  · have hcolon : EvenTo c'.next.kind ([.colon] ++ js) :=
      .append_even (Balanced.plain rfl).even he''
    have hbranches : EvenTo c'.next.kind (ls ++ ([.colon] ++ js)) :=
      (hm'.trans hjs).evenTo hconsequent.good he' hcolon
    exact .append_even he.even (.append_even (Balanced.plain rfl).even hbranches)

end Both

end Rules

end Grammar

end StepBinding
