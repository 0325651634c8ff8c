import StepBinding.Proofs.Grammar.Constructs

/-! Programs that are accepted. By induction on the number of uses of the knot, all rules read
well-formed trees; so the module of a program is well-formed, its step bindings are numbered in
the order of the source, and if no error was met then none of them was rejected. -/

namespace StepBinding.Grammar

open List Token Construct Steps StepBinding.Tree Node

set_option linter.unusedSectionVars false

variable {P : Token → Prop} [Inside P] {calm : Prop} {c c1 c2 c' : Cursor} {e : Expr} {s : Stmt}
  {tokens : List Token} {file : String} {u : Unit} {keyword : Token} {p : Program} {m : Module}

namespace Rules

variable {r : Rules} [Keeps r.assignment] [Keeps r.statement]
  [∀ n, KeepsTo (Cursor.Spares n) r.assignment]

section Assignment

variable (hr : Sound P calm r)

include hr

theorem reads_constructExpr (hg : c.Ends P) (hmark : isMarker c.rest)
    (h : Clean calm r.constructExpr c e c') : ReadsExpr P calm c e c' := by
  unfold constructExpr at h
  obtain ⟨o, c1, ho, h⟩ := h.bind_of fun o => by cases o <;> infer_instance
  have hread := reads_construct hr hg hmark ho
  have hform := hread.form rfl
  obtain ⟨hspan, hcomma⟩ := hread.ended hform
  cases o with
  | accepted head span index steps =>
    obtain ⟨rfl, rfl⟩ := h.pure_inv
    obtain ⟨ks, hm, hb, he⟩ := hread.moves (.expr hform)
    exact ⟨⟨ks, hm, fun hc => ⟨(hb hc).1, (hb hc).2 hform⟩, he⟩, hspan, fun _ => hcomma⟩
  | rejected form span index =>
    obtain ⟨rfl, rfl⟩ := h.pure_inv
    obtain ⟨ks, hm, hb, he⟩ := hread.moves .rejectedExpr
    exact ⟨⟨ks, hm, fun hc => ⟨(hb hc).1, (hb hc).2 hform⟩, he⟩, hspan, nofun⟩

theorem reads_arrow (hg : c.Ends P) (h : Clean calm r.arrow c e c') : ReadsExpr P calm c e c' := by
  unfold arrow at h
  have h := h.current
  dsimp only at h
  obtain ⟨names, c1, hnames, h⟩ := h.bind
  have hnames : PassesFlat P calm c [] c1 ∧
      ((∀ t, P t → Stream.Valid t) → ∀ n ∈ names, IsName n) := by
    rcases hnames.branch with ⟨hk, h⟩ | ⟨-, h⟩
    · obtain ⟨c3, hm, h⟩ := h.read hg hk nofun
      obtain ⟨rfl, rfl⟩ := h.pure_inv
      refine ⟨.level rfl hm, fun hv n hn => ?_⟩
      cases mem_singleton.mp hn
      exact hg.name hk hv
    · exact reads_params hg h
  obtain ⟨c2, -, hm, h⟩ := h.expect hnames.1.good nofun
  have hhead := hnames.1.trans (.level rfl hm)
  rcases h.branch with ⟨-, h⟩ | ⟨-, h⟩
  · obtain ⟨b, rfl, hblock⟩ := h.span_inv
    have hp := reads_block hr hhead.good hblock
    have : ReadsTight P calm c (.arrowBlock (c.next.span.through c'.last.span) names b.1 b.2) c' :=
      .of_parts (hhead.trans hp) ⟨⟨hnames.2, fun _ => trivial⟩, rfl, rfl, rfl⟩ trivial nofun
    exact this.toExpr
  · obtain ⟨body, rfl, hbody⟩ := h.span_inv
    have hbody := hr.assignment hhead.good hbody
    refine ⟨?_, rfl, hbody.comma⟩
    obtain ⟨ks, hks, hb, he⟩ := hhead
    obtain ⟨ls, hls, hb', he'⟩ := hbody.moves
    exact ⟨ks ++ ls, (hks.trans hls).top ⟨⟨hnames.2, fun _ => trivial⟩, rfl, rfl, rfl⟩ (.inl nofun),
      fun hc => ⟨(hb hc).1.append (hb' hc).1, (hb' hc).2.append_left (hb hc).2⟩,
      .append_even he.even he'⟩

theorem reads_assignmentRule (hg : c.Ends P) (h : Clean calm r.assignmentRule c e c') :
    ReadsExpr P calm c e c' := by
  unfold assignmentRule at h
  have h := h.get
  dsimp only at h
  rcases h.ite with ⟨hmark, h⟩ | ⟨-, h⟩
  · exact reads_constructExpr hr hg hmark h
  rcases h.ite with ⟨-, h⟩ | ⟨-, h⟩
  · exact reads_arrow hr hg h
  obtain ⟨left, c1, hleft, h⟩ := h.bind_of fun left => .bind inferInstance fun t => by
    split <;> infer_instance
  have hleft := reads_conditional hr hg hleft
  have h := h.current
  split at h
  · obtain ⟨rfl, rfl⟩ := h.pure_inv
    exact hleft
  rename_i op hop
  rcases h.ite with ⟨-, h⟩ | ⟨htarget, h⟩
  · obtain ⟨_, _, hfail, -⟩ := h.bind
    exact hfail.not_fail.elim
  have hk : op.Known ∧ isLevel c1.next.kind ∧ c1.next.kind ≠ .endMark := by
    cases hk : c1.next.kind <;> rw [hk] at hop <;> cases hop <;> exact ⟨trivial, rfl, by decide⟩
  have hplain := isPlain_of_isLevel hk.2.1
  obtain ⟨c2, hm, h⟩ := h.read hleft.good rfl hk.2.2
  obtain ⟨value, rfl, hvalue⟩ := h.map_inv
  have htarget : left.isTarget := by simpa using htarget
  have hvalue := hr.assignment hm.good hvalue
  have hspan : left.span.through value.span = c.next.span.through c'.last.span := by
    rw [hleft.span, hvalue.span]
    rfl
  obtain ⟨ks, hks, hb, he⟩ := hleft.moves
  obtain ⟨ls, hls, hb', he'⟩ := hvalue.moves
  refine ⟨⟨ks ++ ([c1.next.kind] ++ ls), ?_, fun hc => ?_, ?_⟩, hspan, hvalue.comma⟩
  · exact (hks.trans (hm.trans hls)).top
      ⟨⟨fun _ => ⟨hk.1, htarget⟩, fun _ => trivial⟩, hspan, rfl, rfl⟩ (.inl nofun)
  · have hflat : Flat ks := by
      have hshows := (hb hc).2
      cases left <;> first | exact hshows | cases htarget
    exact ⟨(hb hc).1.append ((Balanced.plain hplain).append (hb' hc).1),
      ((hb' hc).2.append_left (.level hk.2.1)).append_left hflat⟩
  · exact (hm.trans hls).evenTo hleft.good he (.append_even (Balanced.plain hplain).even he')

end Assignment

section Statement

set_option synthInstance.maxSize 2000

/-- The tokens behind the next one are the tokens left when it is read. -/
theorem moves_peek {k : Kind} {ns : List Node} (h : Moves P calm c [k] ns c1) (n : Nat) :
    (c.rest[n + 1]?).getD (c.rest.getLastD c.last) =
      (c1.rest[n]?).getD (c1.rest.getLastD c1.last) := by
  obtain ⟨ts, hts, hks, -⟩ := h.tokens
  obtain ⟨us, stop, hus, -, -⟩ := h.good
  obtain ⟨t, rfl, -⟩ := map_eq_singleton_iff.mp hks
  have hlast : ([t] ++ (us ++ [stop])).getLastD c.last = stop := by
    rw [← append_assoc, getLastD_concat]
  rw [hts, hus, hlast, getLastD_concat]
  rfl

theorem peek_zero (hg : c.Ends P) : (c.rest[0]?).getD (c.rest.getLastD c.last) = c.next := by
  obtain ⟨ts, stop, hts, -, -⟩ := hg
  cases ts <;> simp [hts, Cursor.next]

/-- Among declarators only the last may end with a step list. -/
def isOpen (d : Declarator) : Bool := d.init?.any Expr.endsInSteps

theorem not_report {message : String} {span : Span} (h : Clean calm (report message span) c u c') :
    False := by
  have hsound := h.sound
  cases h.ok
  cases hsound

theorem next_of_semicolon (h : Clean calm semicolon c u c') : c.next.kind ≠ .kwOf := by
  intro hk
  unfold semicolon at h
  rcases h.branch with ⟨hs, -⟩ | ⟨-, h⟩
  · rw [hk] at hs
    cases hs
  rcases h.isAtAny.ite with ⟨hs, -⟩ | ⟨-, h⟩
  · rw [hk] at hs
    cases hs
  · obtain ⟨t, c1, hexpect, -⟩ := h.bind
    have hs := hexpect.expect_inv.1
    rw [hk] at hs
    cases hs

/-- A statement that is one token. -/
theorem Passes.token {k : Kind} {s : Stmt} (hk : isPlain k) (hm : Moves P calm c [k] [] c1)
    (shaped : Shaped P calm (.stmt s)) (span : s.span = c.next.span)
    (children : Node.children (.stmt s) = []) (plain : number? (.stmt s) = none) :
    Passes P calm c [.stmt s] c1 :=
  .close hk hm (.refl hm.good) ⟨shaped, by rw [hm.last]; exact span.trans rfl, children, plain⟩

variable (hr : Sound P calm r)

include hr

/-- A constant without a value is read only before `of`. -/
theorem reads_declarator {d : Declarator} (hg : c.Ends P)
    (h : Clean calm (r.declarator keyword) c d c') :
    ReadsItem (fun d => [.declarator d]) isOpen (fun _ => True) P calm c d c' ∧
      (keyword.kind = .kwConst → d.init?.isSome ∨ c'.next.kind = .kwOf) ∧
      (calm → c'.last.kind ≠ .semicolon) := by
  unfold declarator at h
  obtain ⟨c1, hname, hm, h⟩ := h.expect hg nofun
  obtain ⟨init, rfl, hinit⟩ := h.span_inv
  have hshaped {span : Span} {init : Option Expr} :
      Shaped P calm (.declarator (.mk span c.next.text init)) := ⟨hg.name hname, fun _ => trivial⟩
  unfold initializer at hinit
  rcases hinit.branch with ⟨hk, h⟩ | ⟨hk, h⟩
  · obtain ⟨c3, hm', h⟩ := h.read hm.good hk nofun
    obtain ⟨e, rfl, he⟩ := h.map_inv
    have he := hr.assignment hm'.good he
    exact ⟨⟨.close rfl hm ((Passes.plain rfl hm').trans he.passes) ⟨hshaped, rfl, rfl, rfl⟩, trivial,
      he.comma⟩, fun _ => .inl rfl, he.last⟩
  · rcases h.isAt.ite with ⟨-, h⟩ | ⟨hk, h⟩
    · obtain ⟨u, c3, hreport, h⟩ := h.bind
      exact (not_report hreport).elim
    · obtain ⟨rfl, rfl⟩ := h.pure_inv
      exact ⟨⟨.close rfl hm (.refl hm.good) ⟨hshaped, rfl, rfl, rfl⟩, trivial, nofun⟩,
        fun hconst => .inr (by simpa [hconst] using hk), fun _ => by rw [hm.last, hname]; decide⟩

theorem reads_declarators {ds : List Declarator} (hg : c.Ends P)
    (h : Clean calm (loop (r.declaratorPass keyword) []) c ds c') :
    ReadsItems (fun d => [.declarator d]) isOpen (fun _ => True) P calm c ds c' ∧ ds ≠ [] ∧
      (keyword.kind = .kwConst → ∀ d ∈ ds, d.init?.isSome ∨ c'.next.kind = .kwOf) ∧
      (calm → c'.last.kind ≠ .semicolon) := by
  let Items := ReadsItems (fun d => [.declarator d]) isOpen (fun _ => True) P calm c
  let Post (ds : List Declarator) (c' : Cursor) : Prop := Items ds c' ∧ ds ≠ [] ∧
    (keyword.kind = .kwConst → ∀ d ∈ ds, d.init?.isSome ∨ c'.next.kind = .kwOf) ∧
    (calm → c'.last.kind ≠ .semicolon)
  let Inv (acc : List Declarator) (c2 : Cursor) : Prop :=
    (∃ c1, Items acc.reverse c1 ∧
      ((acc = [] ∧ c2 = c1) ∨ (c1.next.kind = .comma ∧ Moves P calm c1 [.comma] [] c2))) ∧
      (keyword.kind = .kwConst → ∀ d ∈ acc, d.init?.isSome)
  refine h.loop_inv Inv Post ⟨⟨c, .nil hg, .inl ⟨rfl, rfl⟩⟩, nofun⟩ ?_
  rintro acc c2 step c3 ⟨⟨c1, hitems, hsep⟩, hconst⟩ hpass
  have hg2 : c2.Ends P := by
    rcases hsep with ⟨-, rfl⟩ | ⟨-, hm⟩
    · exact hitems.passes.good
    · exact hm.good
  unfold declaratorPass at hpass
  obtain ⟨d, c4, hd, hpass⟩ := hpass.bind
  obtain ⟨hd, hinit, hlast⟩ := reads_declarator hr hg2 hd
  have hitems := hitems.snoc (hsep.imp_left fun h => ⟨by simp [h.1], h.2⟩) hd
  rw [← reverse_cons] at hitems
  rcases hpass.branch with ⟨hk, h⟩ | ⟨hk, h⟩
  · obtain ⟨c5, hm, h⟩ := h.read hitems.passes.good hk nofun
    obtain ⟨rfl, rfl⟩ := h.pure_inv
    refine ⟨⟨c4, hitems, .inr ⟨hk, hm⟩⟩, fun hc => ?_⟩
    exact forall_mem_cons.mpr ⟨(hinit hc).resolve_right (by rw [hk]; decide), hconst hc⟩
  · obtain ⟨rfl, rfl⟩ := h.pure_inv
    refine ⟨hitems, by simp, fun hc x hx => ?_, hlast⟩
    rcases mem_cons.mp (mem_reverse.mp hx) with rfl | hx
    · exact hinit hc
    · exact .inl (hconst hc x hx)

theorem reads_declaration (hg : c.Ends P) (hk : c.next.kind.isDeclarator)
    (h : Clean calm r.declaration c s c') (hof : c'.next.kind ≠ .kwOf) :
    ReadsStmt P calm c s c' ∧ ∃ span q ds, s = .declare span q ds := by
  unfold declaration at h
  have hplain : c.next.kind ≠ .endMark ∧ isPlain c.next.kind := by
    cases hkind : c.next.kind <;> rw [hkind] at hk <;> cases hk <;> decide
  obtain ⟨c1, hm, h⟩ := h.read hg rfl hplain.1
  obtain ⟨ds, rfl, hloop⟩ := h.span_inv
  obtain ⟨hitems, hne, hconst, -⟩ := reads_declarators hr hm.good hloop
  have hp := hitems.passes
  rw [← map_eq_flatMap] at hp
  refine ⟨⟨.close hplain.2 hm hp ⟨⟨fun _ => ⟨?_, hne, fun hq d hd => ?_⟩,
    fun _ d hd e he => ?_⟩, rfl, rfl, rfl⟩, nofun⟩, _, _, _, rfl⟩
  · cases hkind : c.next.kind <;> trivial
  · refine (hconst ?_ d hd).resolve_right hof
    cases hkind : c.next.kind <;> rw [hkind] at hq <;> first | rfl | cases hq
  · have hinner := hitems.inner d hd
    rw [isOpen, he] at hinner
    exact hinner

theorem reads_functionDecl (hg : c.Ends P) (hk : c.next.kind = .kwFunction)
    (h : Clean calm r.functionDecl c s c') : ReadsStmt P calm c s c' := by
  unfold functionDecl at h
  obtain ⟨c1, hm, h⟩ := h.read hg hk nofun
  obtain ⟨c2, hk', hm', h⟩ := h.expect hm.good nofun
  obtain ⟨names, c3, hparams, h⟩ := h.bind
  obtain ⟨ss, rfl, hbody⟩ := h.span_inv
  obtain ⟨hp, hnames⟩ := reads_params hm'.good hparams
  have hp' := (reads_body hr hp.good hbody).1
  exact ⟨.close rfl hm ((Passes.plain rfl hm').trans (hp.trans hp').passes)
    ⟨⟨fun hv => ⟨hm.good.name hk' hv, hnames hv⟩, fun _ => trivial⟩, rfl, rfl, rfl⟩, nofun⟩

theorem reads_returnStmt (hg : c.Ends P) (hk : c.next.kind = .kwReturn)
    (h : Clean calm r.returnStmt c s c') : ReadsStmt P calm c s c' := by
  unfold returnStmt at h
  obtain ⟨c1, hm, h⟩ := h.read hg hk nofun
  obtain ⟨value, c2, hvalue, h⟩ := h.bind
  obtain ⟨u, rfl, hsemi⟩ := h.span_inv
  rcases hvalue.isAtAny.ite with ⟨-, h⟩ | ⟨-, h⟩
  · obtain ⟨rfl, rfl⟩ := h.pure_inv
    exact ⟨.close rfl hm (reads_semicolon hm.good hsemi)
      ⟨⟨fun _ => trivial, fun _ => trivial⟩, rfl, rfl, rfl⟩, nofun⟩
  · obtain ⟨e, rfl, he⟩ := h.map_inv
    have he := reads_expression hr hm.good he
    exact ⟨.close rfl hm (he.passes.trans (reads_semicolon he.good hsemi))
      ⟨⟨fun _ => trivial, fun _ => trivial⟩, rfl, rfl, rfl⟩, nofun⟩

theorem reads_test (hg : c.Ends P) (h : Clean calm r.test c e c') :
    PassesFlat P calm c [.expr e] c' := by
  unfold test at h
  obtain ⟨c1, -, hm, h⟩ := h.expect hg nofun
  obtain ⟨e, c2, he, h⟩ := h.bind
  have he := reads_expression hr hm.good he
  obtain ⟨c3, -, hm', h⟩ := h.expect he.good nofun
  obtain ⟨rfl, rfl⟩ := h.pure_inv
  exact (Passes.enclose rfl rfl hm he.passes hm').1

theorem reads_ifStmt (hg : c.Ends P) (hk : c.next.kind = .kwIf) (h : Clean calm r.ifStmt c s c') :
    ReadsStmt P calm c s c' := by
  unfold ifStmt at h
  obtain ⟨c1, hm, h⟩ := h.read hg hk nofun
  obtain ⟨test, c2, htest, h⟩ := h.bind
  obtain ⟨consequent, c3, hcons, h⟩ := h.bind
  obtain ⟨alternate, rfl, halt⟩ := h.span_inv
  have htest := reads_test hr hm.good htest
  have hcons := hr.statement htest.good hcons
  rcases halt.branch with ⟨hk, h⟩ | ⟨hk, h⟩
  · obtain ⟨c5, hm', h⟩ := h.read hcons.good hk nofun
    obtain ⟨s, rfl, hs⟩ := h.map_inv
    have hs := hr.statement hm'.good hs
    refine ⟨.close rfl hm (htest.passes.trans (hcons.passes.trans
      ((Passes.plain rfl hm').trans hs.passes)))
      ⟨⟨fun _ => ?_, fun _ => trivial⟩, rfl, rfl, rfl⟩, hs.noElse⟩
    cases ho : consequent.endsOpenIf with
    | false => exact ho
    | true => exact absurd hk (hcons.noElse ho)
  · obtain ⟨rfl, rfl⟩ := h.pure_inv
    exact ⟨.close rfl hm (htest.passes.trans hcons.passes)
      ⟨⟨fun _ => trivial, fun _ => trivial⟩, rfl, rfl, rfl⟩, fun _ => hk⟩

theorem reads_whileStmt (hg : c.Ends P) (hk : c.next.kind = .kwWhile)
    (h : Clean calm r.whileStmt c s c') : ReadsStmt P calm c s c' := by
  unfold whileStmt at h
  obtain ⟨c1, hm, h⟩ := h.read hg hk nofun
  obtain ⟨test, c2, htest, h⟩ := h.bind
  obtain ⟨body, rfl, hbody⟩ := h.span_inv
  have htest := reads_test hr hm.good htest
  have hbody := hr.statement htest.good hbody
  exact ⟨.close rfl hm (htest.passes.trans hbody.passes)
      ⟨⟨fun _ => trivial, fun _ => trivial⟩, rfl, rfl, rfl⟩, hbody.noElse⟩

theorem reads_optional {stop : Kind} {e : Option Expr} (hg : c.Ends P)
    (h : Clean calm (r.optional stop) c e c') : Passes P calm c (e.toList.map .expr) c' := by
  unfold optional at h
  rcases h.branch with ⟨-, h⟩ | ⟨-, h⟩
  · obtain ⟨rfl, rfl⟩ := h.pure_inv
    exact .refl hg
  · obtain ⟨e, rfl, he⟩ := h.map_inv
    exact (reads_expression hr hg he).passes

theorem reads_forInit {init : Option Stmt} (hg : c.Ends P) (h : Clean calm r.forInit c init c')
    (hof : c'.next.kind ≠ .kwOf) :
    Passes P calm c (init.toList.map ofStart) c' ∧
      ∀ span test update body, Formed IsName (.stmt (.forLoop span init test update body)) := by
  unfold forInit at h
  rcases h.branch with ⟨-, h⟩ | ⟨-, h⟩
  · obtain ⟨rfl, rfl⟩ := h.pure_inv
    exact ⟨.refl hg, fun _ _ _ _ => trivial⟩
  rcases h.get.current.ite with ⟨hk, h⟩ | ⟨-, h⟩
  · obtain ⟨s, rfl, hs⟩ := h.map_inv
    rw [Bool.and_eq_true] at hk
    obtain ⟨hs, span, q, ds, rfl⟩ := reads_declaration hr hg hk.1 hs hof
    exact ⟨hs.passes, fun _ _ _ _ => trivial⟩
  · obtain ⟨e, rfl, he⟩ := h.map_inv
    exact ⟨(reads_expression hr hg he).passes, fun _ _ _ _ => trivial⟩

/-- A loop over the elements of something, from behind its first parenthesis on. -/
theorem reads_forOf {start : Span} {q : Kind → Qualifier} (hg : c.Ends P)
    (hdecl : c.next.kind.isDeclarator)
    (hname : ((c.rest[1]?).getD (c.rest.getLastD c.last)).kind = .identifier)
    (hof : ((c.rest[2]?).getD (c.rest.getLastD c.last)).kind = .kwOf) (h : Clean calm (do
      let keyword ← advance
      let name ← advance
      let _ ← advance
      let iterable ← r.assignment
      let _ ← expect .rparen "')'"
      let body ← r.statement
      return .forOf (← spanFrom start) (q keyword.kind) name.text iterable body) c s c') :
    ∃ c1 name e body, s = .forOf (start.through c'.last.span) (q c.next.kind) name e body ∧
      ((∀ t, P t → Stream.Valid t) → IsName name) ∧ Passes P calm c [.expr e] c1 ∧
      ∃ c2, Moves P calm c1 [.rparen] [] c2 ∧ ReadsStmt P calm c2 body c' := by
  have hplain : c.next.kind ≠ .endMark ∧ isPlain c.next.kind := by
    cases hkind : c.next.kind <;> rw [hkind] at hdecl <;> cases hdecl <;> decide
  obtain ⟨c1, hm, h⟩ := h.read hg rfl hplain.1
  rw [moves_peek hm 0, peek_zero hm.good] at hname
  obtain ⟨c2, hm', h⟩ := h.read hm.good hname nofun
  rw [moves_peek hm 1, moves_peek hm' 0, peek_zero hm'.good] at hof
  obtain ⟨c3, hm'', h⟩ := h.read hm'.good hof nofun
  obtain ⟨e, c4, he, h⟩ := h.bind
  have he := hr.assignment hm''.good he
  obtain ⟨c5, -, hm3, h⟩ := h.expect he.good nofun
  obtain ⟨body, rfl, hbody⟩ := h.span_inv
  exact ⟨c4, _, e, body, rfl, hm.good.name hname, (Passes.plain hplain.2 hm).trans
    ((Passes.plain rfl hm').trans ((Passes.plain rfl hm'').trans he.passes)), c5, hm3,
    hr.statement hm3.good hbody⟩

theorem reads_forStmt (hg : c.Ends P) (hk : c.next.kind = .kwFor) (h : Clean calm r.forStmt c s c') :
    ReadsStmt P calm c s c' := by
  unfold forStmt at h
  dsimp only at h
  obtain ⟨c1, hm, h⟩ := h.read hg hk nofun
  obtain ⟨c2, -, hm', h⟩ := h.expect hm.good nofun
  rcases h.current.peek.peek.ite with ⟨hof, h⟩ | ⟨-, h⟩
  · simp only [Bool.and_eq_true, decide_eq_true_eq] at hof
    obtain ⟨c3, name, e, body, rfl, hname, hp, c4, hm'', hbody⟩ :=
      reads_forOf (q := fun k => (Qualifier.ofKind? k).getD .let_)
        hr hm'.good hof.1.1 hof.1.2 hof.2 h
    refine ⟨.close rfl hm ((Passes.enclose rfl rfl hm' hp hm'').1.passes.trans hbody.passes)
      ⟨⟨fun hv => ⟨?_, hname hv⟩, fun _ => trivial⟩, rfl, rfl, rfl⟩, hbody.noElse⟩
    cases hkind : c2.next.kind <;> trivial
  obtain ⟨init, c3, hinit, h⟩ := h.bind
  obtain ⟨t, c4, hsemi, -⟩ := h.bind
  obtain ⟨hp, hformed⟩ := reads_forInit hr hm'.good hinit (by rw [hsemi.expect_inv.1]; decide)
  obtain ⟨c4, -, hm1, h⟩ := h.expect hp.good nofun
  obtain ⟨test, c5, htest, h⟩ := h.bind
  have hp' := reads_optional hr hm1.good htest
  obtain ⟨c6, -, hm2, h⟩ := h.expect hp'.good nofun
  obtain ⟨update, c7, hupdate, h⟩ := h.bind
  have hp'' := reads_optional hr hm2.good hupdate
  obtain ⟨c8, -, hm3, h⟩ := h.expect hp''.good nofun
  obtain ⟨body, rfl, hbody⟩ := h.span_inv
  have hbody := hr.statement hm3.good hbody
  have hinner := (hp.trans ((Passes.plain rfl hm1).trans hp')).trans ((Passes.plain rfl hm2).trans hp'')
  exact ⟨.close rfl hm ((Passes.enclose rfl rfl hm' hinner hm3).1.passes.trans hbody.passes)
    ⟨⟨fun _ => hformed _ _ _ _, fun _ => trivial⟩, rfl, rfl, rfl⟩, hbody.noElse⟩

theorem reads_constructStmt (hg : c.Ends P) (hmark : isMarker c.rest)
    (h : Clean calm r.constructStmt c s c') : ReadsStmt P calm c s c' := by
  unfold constructStmt at h
  obtain ⟨o, c1, ho, h⟩ := h.bind_of fun o => by
    cases o with
    | accepted head span index steps => dsimp only; split <;> infer_instance
    | rejected form span index => infer_instance
  have hread := reads_construct hr hg hmark ho
  have hp {n : Node} (hn : o.Stands n) : Passes P calm c [n] c1 := by
    obtain ⟨ks, hm, hb, he⟩ := hread.moves hn
    exact ⟨ks, hm, fun hc => (hb hc).1, he⟩
  cases o with
  | rejected form span index =>
    have hp := hp .rejectedStmt
    rcases h.ite with ⟨-, h⟩ | ⟨-, h⟩
    · rcases h.branch with ⟨hk, h⟩ | ⟨-, h⟩
      · obtain ⟨c2, hm, h⟩ := h.read hp.good hk (by decide)
        obtain ⟨rfl, rfl⟩ := h.pure_inv
        exact ⟨hp.trans (.plain rfl hm), fun h => by cases h⟩
      · obtain ⟨rfl, rfl⟩ := h.pure_inv
        exact ⟨hp, fun h => by cases h⟩
    · obtain ⟨rfl, rfl⟩ := h.pure_inv
      exact ⟨hp, fun h => by cases h⟩
  | accepted head span index steps =>
    dsimp only at h
    rcases hread.result rfl with ⟨hform, hnone⟩ | ⟨hform, name, hsome⟩
    · rw [hnone] at h
      obtain ⟨u, rfl, hsemi⟩ := h.map_inv
      have hp := hp (.expr hform)
      have hs : Passes P calm c [.stmt (.expr span _)] c1 :=
        hp.top ⟨⟨fun _ => trivial, fun _ => trivial⟩, (hread.ended hform).1, rfl, rfl⟩ (by simp)
      exact ⟨hs.trans (reads_semicolon hp.good hsemi), fun h => by cases h⟩
    · rw [hsome] at h
      obtain ⟨rfl, rfl⟩ := h.pure_inv
      exact ⟨hp (.stmt hform hsome), fun h => by cases h⟩

theorem reads_statementRule (hg : c.Ends P) (h : Clean calm r.statementRule c s c') :
    ReadsStmt P calm c s c' := by
  unfold statementRule at h
  have h := h.current
  rcases h.ite with ⟨hdecl, h⟩ | ⟨-, h⟩
  · rcases h.get.ite with ⟨hmark, h⟩ | ⟨-, h⟩
    · exact reads_constructStmt hr hg hmark h
    · obtain ⟨s, c1, hs, h⟩ := h.bind
      obtain ⟨u, rfl, hsemi⟩ := h.map_inv
      obtain ⟨hs, span, q, ds, rfl⟩ := reads_declaration hr hg hdecl hs (next_of_semicolon hsemi)
      exact ⟨hs.passes.trans (reads_semicolon hs.good hsemi), fun h => by cases h⟩
  split at h
  case h_1 hk => exact reads_functionDecl hr hg hk h
  case h_2 hk => exact reads_returnStmt hr hg hk h
  case h_3 hk => exact reads_ifStmt hr hg hk h
  case h_4 hk => exact reads_whileStmt hr hg hk h
  case h_5 hk => exact reads_forStmt hr hg hk h
  case h_6 hk | h_7 hk =>
    obtain ⟨c1, hm, h⟩ := h.read hg hk (by decide)
    obtain ⟨u, rfl, hsemi⟩ := h.map_inv
    exact ⟨(Passes.token rfl hm (by exact ⟨fun _ => trivial, fun _ => trivial⟩) rfl rfl rfl).trans
      (reads_semicolon hm.good hsemi), fun h => by cases h⟩
  case h_8 hk =>
    obtain ⟨c1, hm, h⟩ := h.read hg hk (by decide)
    obtain ⟨e, c2, he, h⟩ := h.bind
    obtain ⟨u, rfl, hsemi⟩ := h.span_inv
    have he := reads_expression hr hm.good he
    exact ⟨.close rfl hm (he.passes.trans (reads_semicolon he.good hsemi))
      ⟨⟨fun _ => trivial, fun _ => trivial⟩, rfl, rfl, rfl⟩, fun h => by cases h⟩
  case h_9 hk =>
    obtain ⟨b, rfl, hblock⟩ := h.map_inv
    exact ⟨(reads_block hr hg hblock).passes, fun h => by cases h⟩
  case h_10 hk =>
    obtain ⟨c1, hm, h⟩ := h.read hg hk (by decide)
    obtain ⟨rfl, rfl⟩ := h.pure_inv
    exact ⟨Passes.token rfl hm ⟨fun _ => trivial, fun _ => trivial⟩ rfl rfl rfl, fun h => by cases h⟩
  case h_11 =>
    obtain ⟨e, c1, he, h⟩ := h.bind
    obtain ⟨u, rfl, hsemi⟩ := h.span_inv
    have he := reads_expression hr hg he
    exact ⟨(he.passes.trans (reads_semicolon he.good hsemi)).top
      ⟨⟨fun _ => trivial, fun _ => trivial⟩, rfl, rfl, rfl⟩ (by simp), fun h => by cases h⟩

end Statement

end Rules

/-- One more use of the knot. -/
theorem Sound.succ {n : Nat} [∀ m, KeepsTo (Cursor.Spares m) (rules n).assignment]
    (h : Sound P calm (rules n)) : Sound P calm (rules (n + 1)) := by
  exact ⟨fun hg hok => Rules.reads_assignmentRule h hg hok,
    fun hg hok => Rules.reads_statementRule h hg hok⟩

theorem sound_zero : Sound P calm (rules 0) :=
  ⟨fun _ h => (by cases h.ok), fun _ h => (by cases h.ok)⟩

/-- No rule changes a record that it finds. -/
theorem rules_spare (n : Nat) : Sound (fun t => t.kind ≠ .endMark) False (rules n) ∧
    ∀ m, KeepsTo (Cursor.Spares m) (rules n).assignment ∧
      KeepsTo (Cursor.Spares m) (rules n).statement := by
  induction n with
  | zero => exact ⟨sound_zero, fun m => ⟨keeps_throw (by rintro ⟨⟩), keeps_throw (by rintro ⟨⟩)⟩⟩
  | succ n ih =>
    have hassignment (m : Nat) := (ih.2 m).1
    have hstatement (m : Nat) := (ih.2 m).2
    refine ⟨ih.1.succ, fun m => ?_⟩
    have (only : Bool) : KeepsTo (Cursor.Spares m) ((rules n).construct only) :=
      Rules.spares_construct ih.1
    exact ⟨inferInstanceAs (KeepsTo _ (rules n).assignmentRule),
      inferInstanceAs (KeepsTo _ (rules n).statementRule)⟩

instance (n m : Nat) : KeepsTo (Cursor.Spares m) (rules n).assignment := ((rules_spare n).2 m).1

/-- All rules read well-formed trees. -/
theorem rules_sound (n : Nat) : Sound P calm (rules n) := by
  induction n with
  | zero => exact sound_zero
  | succ n ih =>
    exact ih.succ

theorem walks_stmts (ss : List Stmt) : walks (ss.map .stmt) = walkStmts ss := by
  rw [walkStmts_eq, walks, flatMap_map]
  rfl

namespace Program

/-- A module that was read: its statements lie in the tokens one after the other. -/
theorem moves_ofTokens (hends : (Cursor.start tokens).Ends P) (h : ofTokens file tokens = .ok p)
    (hm : p.module? = some m) :
    ∃ ks c, Moves P (∀ d ∈ p.diagnostics, d.isError = false) (Cursor.start tokens) ks
      (m.body.map .stmt) c ∧ c.log = p.log ∧ m.span = ⟨file, .start, c.next.span.stop⟩ ∧
      (Cursor.start tokens).Leads c := by
  unfold ofTokens at h
  dsimp only at h
  split at h
  · cases h
  rename_i body c hok
  cases h
  dsimp only at hm ⊢
  split at hm
  · cases hm
  rename_i hfaulty
  cases hm
  have hclean : Clean c.Silent ((rules (2 * tokens.length + 2)).statements .endMark)
      (Cursor.start tokens) body c := ⟨hok, by simpa using hfaulty, id⟩
  obtain ⟨ks, hmoves, -⟩ := Rules.reads_statements (rules_sound _) hends hclean
  exact ⟨ks, c, hmoves, rfl, rfl, KeepsTo.of_ok hok⟩

/-- What is read from valid tokens. Step bindings are numbered in the order of the source; all others
in the log are settled, and if no error is met there are no others. -/
theorem read_ofTokens
    (hvalid : ∃ ts stop, tokens = ts ++ [stop] ∧ stop.kind = .endMark ∧ ∀ t ∈ ts, Stream.Valid t)
    (h : ofTokens file tokens = .ok p) (hm : p.module? = some m) :
    AllStmts (Written (∀ d ∈ p.diagnostics, d.isError = false)) m.body ∧
      (marks (walkStmts m.body)).Pairwise (· < ·) ∧
      (∀ i ∈ marks (walkStmts m.body), i < p.log.size) ∧ p.log.Raw ∧
      (∀ i < p.log.size, i ∈ marks (walkStmts m.body) ∨ p.log.Settled i) ∧
      ((∀ d ∈ p.diagnostics, d.isError = false) →
        marks (walkStmts m.body) = List.range p.log.size) := by
  obtain ⟨ks, c, hmoves, hlog, -, hleads⟩ := moves_ofTokens (P := Stream.Valid) hvalid h hm
  have henters := hmoves.enters
  have hraw : c.log.Raw := hleads.log.raw nofun
  rw [walks_stmts, hlog] at henters
  rw [hlog] at hraw
  refine ⟨(allStmts_iff_walk _).mpr fun n hn => ?_, ?_,
    fun i hi => (henters.filed.mem_bounds hi).2, hraw,
    fun i => henters.settled i (Nat.zero_le i), fun hs => ?_⟩
  · exact ⟨(henters.shaped n hn).1 fun _ => id, (henters.shaped n hn).2⟩
  · exact henters.filed.sorted.sublist (marks_sublist _)
  · rw [henters.whole hs, range_eq_range']
    rfl

end Program

end StepBinding.Grammar
