import StepBinding.Proofs.Construct.Heads

/-! Which heads of step bindings are accepted. A marker is closed by the parenthesis that matches
its own, unless a semicolon or the end of the program comes first. A head is accepted if and only
if its marker encloses one name and an equals sign follows, for a declaration behind the name of
the result; otherwise the errors tell which of the two is wrong. -/

namespace StepBinding.Construct.Head

open List Token Steps

variable {ks ls : List Kind} {head : Head}

/-- Tokens between the parentheses of a marker: their parentheses match, and there is no semicolon
or end mark. -/
inductive Enclosed : List Kind → Prop
  | nil : Enclosed []
  | other {k : Kind} (hl : k ≠ .lparen) (hr : k ≠ .rparen) (hs : k ≠ .semicolon)
      (he : k ≠ .endMark) : Enclosed [k]
  | append {ks ls : List Kind} (h : Enclosed ks) (h' : Enclosed ls) : Enclosed (ks ++ ls)
  | parens {ks : List Kind} (h : Enclosed ks) : Enclosed (.lparen :: (ks ++ [.rparen]))

/-- The marker at the start of the tokens encloses `inner`, and `later` follows it. -/
def Encloses (ks inner later : List Kind) : Prop :=
  ks = .lparen :: (inner ++ .rparen :: later) ∧ Enclosed inner

section Closing

variable {depth n : Nat} {t p : Token} {ts inner : List Token}

theorem closing?_lparen (h : t.kind = .lparen) :
    closing? depth (t :: ts) = (closing? (depth + 1) ts).map (· + 1) := by
  simp only [closing?, h]

theorem closing?_rparen (h : t.kind = .rparen) :
    closing? (depth + 2) (t :: ts) = (closing? (depth + 1) ts).map (· + 1) := by
  simp [closing?, h]

theorem closing?_other (hl : t.kind ≠ .lparen) (hr : t.kind ≠ .rparen) (hs : t.kind ≠ .semicolon)
    (he : t.kind ≠ .endMark) : closing? depth (t :: ts) = (closing? depth ts).map (· + 1) := by
  rw [closing?.eq_2]
  split <;> first | contradiction | rfl

/-- Enclosed tokens are passed over. -/
theorem Enclosed.closing? {ks : List Kind} (h : Enclosed ks) (depth : Nat) {inner : List Token}
    (hk : kinds inner = ks) (ts : List Token) :
    closing? (depth + 1) (inner ++ ts) = (closing? (depth + 1) ts).map (· + inner.length) := by
  induction h generalizing depth inner ts with
  | nil =>
    cases map_eq_nil_iff.mp hk
    simp
  | @other k hl hr hs he =>
    obtain ⟨t, rfl, rfl⟩ := map_eq_singleton_iff.mp hk
    exact closing?_other hl hr hs he
  | append h h' ih ih' =>
    obtain ⟨as, bs, rfl, ha, hb⟩ := map_eq_append_iff.mp hk
    rw [append_assoc, ih depth ha, ih' depth hb, Option.map_map, length_append]
    congr 1
    funext m
    simp only [Function.comp_apply]
    omega
  | parens h ih =>
    obtain ⟨p, mid, rfl, hp, hk⟩ := map_eq_cons_iff.mp hk
    obtain ⟨as, bs, rfl, ha, hb⟩ := map_eq_append_iff.mp hk
    obtain ⟨q, rfl, hq⟩ := map_eq_singleton_iff.mp hb
    rw [cons_append, closing?_lparen hp, append_assoc, ih (depth + 1) ha,
      singleton_append, closing?_rparen hq, Option.map_map, Option.map_map]
    congr 1
    funext m
    simp only [Function.comp_apply, length_cons, length_append, length_nil]
    omega

/-- What is open is closed by the first parenthesis behind enclosed tokens. -/
theorem exists_enclosed (h : closing? (depth + 1) ts = some n) :
    ∃ inner q later, ts = inner ++ q :: later ∧ Enclosed (kinds inner) ∧ q.kind = .rparen ∧
      match depth with
      | 0 => n = inner.length
      | d + 1 => ∃ m, closing? (d + 1) later = some m ∧ n = inner.length + 1 + m := by
  induction hlength : ts.length using Nat.strongRecOn generalizing ts depth n with
  | ind size ih =>
    subst hlength
    cases ts with
    | nil => cases h
    | cons t ts =>
      have hlater {d : Nat} {ms : List Token} {n : Nat} (hms : ms.length < ts.length + 1)
          (h : closing? (d + 1) ms = some n) := ih ms.length hms h rfl
      by_cases hr : t.kind = .rparen
      · refine ⟨[], t, ts, rfl, .nil, hr, ?_⟩
        cases depth with
        | zero =>
          simp only [closing?, hr] at h
          cases h
          rfl
        | succ d =>
          rw [closing?_rparen hr] at h
          obtain ⟨m, hm, rfl⟩ := Option.map_eq_some_iff.mp h
          exact ⟨m, hm, by simp; omega⟩
      by_cases hl : t.kind = .lparen
      · -- The parenthesis is closed first, and then what was open before it.
        rw [closing?_lparen hl] at h
        obtain ⟨m, hm, rfl⟩ := Option.map_eq_some_iff.mp h
        obtain ⟨inner, q, later, rfl, hinner, hq, k, hk, rfl⟩ := hlater (Nat.lt_succ_self _) hm
        obtain ⟨inner', q', later', rfl, hinner', hq', hdepth⟩ := hlater (by simp; omega) hk
        refine ⟨t :: (inner ++ q :: inner'), q', later', by simp, ?_, hq', ?_⟩
        · have := hinner.parens.append hinner'
          rw [← hl, ← hq] at this
          simpa using this
        · cases depth with
          | zero => simp at hdepth ⊢; omega
          | succ d =>
            obtain ⟨j, hj, rfl⟩ := hdepth
            exact ⟨j, hj, by simp; omega⟩
      by_cases hs : t.kind = .semicolon
      · simp only [closing?, hs] at h
        cases h
      by_cases he : t.kind = .endMark
      · simp only [closing?, he] at h
        cases h
      rw [closing?_other hl hr hs he] at h
      obtain ⟨m, hm, rfl⟩ := Option.map_eq_some_iff.mp h
      obtain ⟨inner, q, later, rfl, hinner, hq, hdepth⟩ := hlater (Nat.lt_succ_self _) hm
      refine ⟨t :: inner, q, later, rfl, .append (.other hl hr hs he) hinner, hq, ?_⟩
      cases depth with
      | zero => simp at hdepth ⊢; omega
      | succ d =>
        obtain ⟨j, hj, rfl⟩ := hdepth
        exact ⟨j, hj, by simp; omega⟩

/-- The parenthesis that closes a marker matches that which opens it. -/
theorem closing?_zero_iff (hp : p.kind = .lparen) : closing? 0 (p :: ts) = some n ↔
    ∃ inner q later, ts = inner ++ q :: later ∧ Enclosed (kinds inner) ∧ q.kind = .rparen ∧
      n = inner.length + 1 := by
  rw [closing?_lparen hp, Option.map_eq_some_iff]
  constructor
  · rintro ⟨m, hm, rfl⟩
    obtain ⟨inner, q, later, hts, hinner, hq, rfl⟩ := exists_enclosed hm
    exact ⟨inner, q, later, hts, hinner, hq, rfl⟩
  · rintro ⟨inner, q, later, rfl, hinner, hq, rfl⟩
    refine ⟨inner.length, ?_, rfl⟩
    rw [hinner.closing? 0 rfl]
    simp [closing?, hq]

/-- A marker encloses the tokens up to the closing parenthesis, and nothing else. -/
theorem encloses_iff {q : Token} {later : List Token} (hp : p.kind = .lparen)
    (hinner : Enclosed (kinds inner)) (hq : q.kind = .rparen) :
    Encloses (kinds (p :: (inner ++ q :: later))) ks ls ↔ ks = kinds inner ∧ ls = kinds later := by
  constructor
  · rintro ⟨heq, hks⟩
    obtain ⟨-, heq⟩ := List.cons.inj heq
    obtain ⟨inner', rest, hts, rfl, hrest⟩ := map_eq_append_iff.mp heq
    obtain ⟨q', later', rfl, hq', rfl⟩ := map_eq_cons_iff.mp hrest
    have hclose := (@closing?_zero_iff _ _ (inner ++ q :: later) hp).mpr
      ⟨inner', q', later', hts, hks, hq', rfl⟩
    have hclose' := (@closing?_zero_iff _ _ (inner ++ q :: later) hp).mpr
      ⟨inner, q, later, rfl, hinner, hq, rfl⟩
    have hlength : inner.length = inner'.length := by
      rw [hclose'] at hclose
      simpa using hclose
    obtain ⟨rfl, hrest⟩ := append_inj hts hlength
    cases hrest
    exact ⟨rfl, rfl⟩
  · rintro ⟨rfl, rfl⟩
    refine ⟨?_, hinner⟩
    rw [kinds_cons, kinds_append, kinds_cons, hp, hq]

theorem not_encloses (hp : p.kind = .lparen) (h : closing? 0 (p :: ts) = none) (ks ls : List Kind) :
    ¬Encloses (kinds (p :: ts)) ks ls := by
  rintro ⟨heq, hks⟩
  obtain ⟨-, heq⟩ := List.cons.inj heq
  obtain ⟨inner, rest, rfl, rfl, hrest⟩ := map_eq_append_iff.mp heq
  obtain ⟨q, later, rfl, hq, rfl⟩ := map_eq_cons_iff.mp hrest
  have hclose := (@closing?_zero_iff _ _ (inner ++ q :: later) hp).mpr
    ⟨inner, q, later, rfl, hks, hq, rfl⟩
  rw [h] at hclose
  cases hclose

end Closing

section Read

variable {only : Bool} {keyword p q after : Token} {rest inner following : List Token}

/-- The codes of what is wrong with a head. -/
def codes (head : Head) : List Code := head.errors.map Diagnostic.code

theorem read_unclosed (h : closing? 0 rest = none) :
    (read only keyword rest).codes = [.malformedMarker] ∧
      (read only keyword rest).hasSteps = false ∧
      (read only keyword rest).length = rest.length := by
  unfold read codes
  rw [h]
  exact ⟨rfl, rfl, rfl⟩

/-- What is wrong with the tokens that a marker encloses. -/
def markerCodes (ks : List Kind) : List Code :=
  if ks = [.identifier] then [] else [.malformedMarker]

theorem codes_binding? (span : Span) (inner : List Token) :
    (match binding? span inner with
      | .ok _ => ([] : List Diagnostic)
      | .error d => [d]).map Diagnostic.code = markerCodes (kinds inner) := by
  have hwrong (inner : List Token) : (wrongMarker span inner).code = .malformedMarker := by
    unfold wrongMarker
    split <;> rfl
  unfold markerCodes
  cases inner with
  | nil => rfl
  | cons t inner =>
    cases inner with
    | nil =>
      by_cases ht : t.kind = .identifier
      · simp [binding?, ht]
      · simp [binding?, ht, hwrong]
    | cons u inner => simp [binding?, hwrong]

/-- How a head goes on behind its marker. -/
inductive Continues (only : Bool) (after : Kind) (following : List Kind) (n : Nat) (head : Head)
    (marker : List Code) : Prop
  | declaration (honly : only = false) (hafter : after = .identifier)
      (hnext : following.head? = some .assign) (hform : head.form = .declaration)
      (hsteps : head.hasSteps = true) (hlength : head.length = n + 5) (hcodes : head.codes = marker)
  | expression (hafter : after = .assign) (hform : head.form = .expression)
      (hsteps : head.hasSteps = true) (hlength : head.length = n + 4) (hcodes : head.codes = marker)
  | neither (hassign : after ≠ .assign)
      (hname : ¬(only = false ∧ after = .identifier ∧ following.head? = some .assign))
      (hsteps : head.hasSteps = false)
      (hcodes : head.codes = marker ++ [.incompleteConstruct])

theorem read_closed
    (h : closing? 0 (p :: (inner ++ q :: after :: following)) = some (inner.length + 1)) :
    Continues only after.kind (kinds following) inner.length
      (read only keyword (p :: (inner ++ q :: after :: following))) (markerCodes (kinds inner)) := by
  have hinner : ((p :: (inner ++ q :: after :: following)).take (inner.length + 1)).drop 1 =
      inner := by simp
  have hafter : (p :: (inner ++ q :: after :: following))[inner.length + 1 + 1]? = some after := by
    simp
  have hnext : (p :: (inner ++ q :: after :: following))[inner.length + 1 + 2]? =
      following.head? := by
    simp [getElem?_append_right, head?_eq_getElem?]
  generalize hhead : read only keyword (p :: (inner ++ q :: after :: following)) = head
  unfold read at hhead
  rw [h] at hhead
  dsimp only at hhead
  rw [hinner, hafter, hnext, Option.getD_some] at hhead
  have hmarker := codes_binding?
    ((List.headD (p :: (inner ++ q :: after :: following)) keyword).span.through
    ((p :: (inner ++ q :: after :: following)).getD (inner.length + 1) keyword).span) inner
  split at hhead
  · rename_i hname
    simp only [Bool.and_eq_true, decide_eq_true_eq, Bool.not_eq_true'] at hname
    split at hhead
    · rename_i hassign
      subst hhead
      refine .declaration hname.2 hname.1 ?_ rfl rfl rfl hmarker
      cases following with
      | nil => cases hassign
      | cons t following => simpa using hassign
    · rename_i hassign
      subst hhead
      refine .neither (by rw [hname.1]; decide) (fun hall => hassign ?_) rfl ?_
      · cases following with
        | nil => cases hall.2.2
        | cons t following => simpa using hall.2.2
      · rw [codes, map_append]
        exact congrArg (· ++ [Code.incompleteConstruct]) hmarker
  · rename_i hname
    simp only [Bool.and_eq_true, decide_eq_true_eq, Bool.not_eq_true'] at hname
    split at hhead
    · rename_i hassign
      subst hhead
      exact .expression hassign rfl rfl rfl hmarker
    · rename_i hassign
      subst hhead
      refine .neither hassign (fun hall => hname ⟨hall.2.1, hall.1⟩) rfl ?_
      rw [codes, map_append]
      exact congrArg (· ++ [Code.incompleteConstruct]) hmarker

section Continues

variable {k : Kind} {n : Nat} {marker : List Code}

theorem Continues.declaration_iff (h : Continues only k ks n head marker) :
    head.codes = [] ∧ head.form = .declaration ↔
      marker = [] ∧ only = false ∧ k = .identifier ∧ ks.head? = some .assign := by
  rcases h with ⟨honly, hk, hnext, hform, -, -, hcodes⟩ | ⟨hk, hform, -, -, hcodes⟩ |
    ⟨-, hname, -, hcodes⟩
  · simp [hcodes, hform, honly, hk, hnext]
  · simp [hform, hk]
  · simpa [hcodes] using fun _ honly hk hnext => hname ⟨honly, hk, hnext⟩

theorem Continues.expression_iff (h : Continues only k ks n head marker) :
    head.codes = [] ∧ head.form = .expression ↔ marker = [] ∧ k = .assign := by
  rcases h with ⟨-, hk, -, hform, -, -, -⟩ | ⟨hk, hform, -, -, hcodes⟩ | ⟨hassign, -, -, hcodes⟩
  · simp [hform, hk]
  · simp [hcodes, hform, hk]
  · simp [hcodes, hassign]

theorem Continues.incomplete_iff (h : Continues only k ks n head marker)
    (hm : .incompleteConstruct ∉ marker) : .incompleteConstruct ∈ head.codes ↔
      k ≠ .assign ∧ ¬(only = false ∧ k = .identifier ∧ ks.head? = some .assign) := by
  rcases h with ⟨honly, hk, hnext, -, -, -, hcodes⟩ | ⟨hk, -, -, -, hcodes⟩ |
    ⟨hassign, hname, -, hcodes⟩
  · simp [hcodes, hm, honly, hk, hnext]
  · simp [hcodes, hm, hk]
  · rw [hcodes]
    exact iff_of_true (mem_append_right _ mem_cons_self) ⟨hassign, hname⟩

/-- The codes are those of the marker and at most one more. -/
theorem Continues.codes_cases (h : Continues only k ks n head marker) :
    head.codes = marker ∨ head.codes = marker ++ [.incompleteConstruct] := by
  rcases h with ⟨-, -, -, -, -, -, hcodes⟩ | ⟨-, -, -, -, hcodes⟩ | ⟨-, -, -, hcodes⟩
  · exact .inl hcodes
  · exact .inl hcodes
  · exact .inr hcodes

/-- A head with steps ends with an equals sign. -/
theorem Continues.assign (h : Continues only k ks n head marker) (hs : head.hasSteps) :
    (k = .assign ∧ head.length = n + 4) ∨ (ks.head? = some .assign ∧ head.length = n + 5) := by
  rcases h with ⟨-, -, hnext, -, -, hlength, -⟩ | ⟨hk, -, -, hlength, -⟩ | ⟨-, -, hsteps, -⟩
  · exact .inr ⟨hnext, hlength⟩
  · exact .inl ⟨hk, hlength⟩
  · rw [hsteps] at hs
    cases hs

end Continues

theorem incomplete_ne : Code.incompleteConstruct ≠ .malformedMarker := by decide

theorem markerCodes_eq_nil : markerCodes ks = [] ↔ ks = [.identifier] := by
  unfold markerCodes
  split <;> simp [*]

theorem mem_markerCodes {code : Code} :
    code ∈ markerCodes ks ↔ ks ≠ [.identifier] ∧ code = .malformedMarker := by
  unfold markerCodes
  split <;> simp [*]

theorem incomplete_notMem (ks : List Kind) : .incompleteConstruct ∉ markerCodes ks :=
  fun h => incomplete_ne (mem_markerCodes.mp h).2

theorem Continues.mem_codes {k : Kind} {n : Nat} (h : Continues only k ks n head (markerCodes ls)) :
    (∀ code ∈ head.codes, code = .malformedMarker ∨ code = .incompleteConstruct) ∧
      head.codes.Nodup ∧ (.malformedMarker ∈ head.codes ↔ ls ≠ [.identifier]) := by
  have hne := incomplete_ne
  unfold markerCodes at h
  rcases h.codes_cases with hcodes | hcodes <;> rw [hcodes] <;> split <;> simp [*, Ne.symm hne]

theorem isOk_iff : head.isOk ↔ head.codes = [] := by
  rw [isOk, List.isEmpty_iff, codes, map_eq_nil_iff]

/-- A marker is not closed, or a token follows it. -/
theorem read_cases {stop : Token} {ts us : List Token} (hp : p.kind = .lparen)
    (hstop : stop.kind = .endMark) (hts : p :: ts = us ++ [stop]) :
    (closing? 0 (p :: ts) = none ∧ ∀ ks ls, ¬Encloses (kinds (p :: ts)) ks ls) ∨
      ∃ inner q after following, ts = inner ++ q :: after :: following ∧
        (∀ ks ls, Encloses (kinds (p :: ts)) ks ls ↔
          ks = kinds inner ∧ ls = after.kind :: kinds following) ∧
        Continues only after.kind (kinds following) inner.length (read only keyword (p :: ts))
          (markerCodes (kinds inner)) := by
  cases hclose : closing? 0 (p :: ts) with
  | none => exact .inl ⟨rfl, not_encloses hp hclose⟩
  | some n =>
    right
    obtain ⟨inner, q, later, rfl, hinner, hq, rfl⟩ := (closing?_zero_iff hp).mp hclose
    cases later with
    | nil =>
      -- The last token is the end mark and no parenthesis.
      have hlast := congrArg List.getLast? hts
      rw [getLast?_concat, ← cons_append, getLast?_concat] at hlast
      cases hlast
      rw [hq] at hstop
      cases hstop
    | cons after following =>
      exact ⟨inner, q, after, following, rfl, fun ks ls => encloses_iff hp hinner hq,
        read_closed hclose⟩

end Read

/-- The head at a place of the tokens of a program is accepted as a declaration if and only if one may
stand there and its tokens are a name in parentheses, the name of the result and an equals sign,
and as an expression if and only if they are a name in parentheses and an equals sign. Otherwise a
code tells that the marker is not closed or does not enclose one name, or that it is closed and
the head does not go on as it should. The tokens that are looked at end before the end mark, with
an equals sign if there are steps. -/
theorem read_exact {init rest : List Token} {stop keyword : Token} {pos : Nat} (only : Bool)
    (hstop : stop.kind = .endMark) (hpos : (init ++ [stop]).drop pos = keyword :: rest)
    (hmarker : isMarker (keyword :: rest) = true) :
    let head := read only keyword rest
    let resume := pos + head.length
    (head.isOk = true ∧ head.form = .declaration ↔ only = false ∧ ∃ later, kinds rest =
      .lparen :: .identifier :: .rparen :: .identifier :: .assign :: later) ∧
    (head.isOk = true ∧ head.form = .expression ↔ ∃ later, kinds rest =
      .lparen :: .identifier :: .rparen :: .assign :: later) ∧
    (∀ code ∈ head.codes, code = .malformedMarker ∨ code = .incompleteConstruct) ∧
    head.codes.Nodup ∧
    (.malformedMarker ∈ head.codes ↔ (∀ inner later, ¬Encloses (kinds rest) inner later) ∨
      ∃ inner later, Encloses (kinds rest) inner later ∧ inner ≠ [.identifier]) ∧
    (.incompleteConstruct ∈ head.codes ↔ ∃ inner later, Encloses (kinds rest) inner later ∧
      later.head? ≠ some .assign ∧
      ¬(only = false ∧ ∃ following, later = .identifier :: .assign :: following)) ∧
    pos < resume ∧ resume ≤ init.length ∧
    (head.hasSteps = true → (kinds (init ++ [stop]))[resume - 1]? = some .assign) := by
  intro head resume
  obtain ⟨k, p, ts, heq, -, hp⟩ := exists_of_isMarker hmarker
  obtain ⟨rfl, rfl⟩ := List.cons.inj heq
  obtain ⟨us, hus⟩ : ∃ us, p :: ts = us ++ [stop] := by
    have hlast : (keyword :: p :: ts).getLast? = some stop := by
      rw [← hpos, List.getLast?_drop, if_neg, List.getLast?_concat]
      exact fun hle => absurd (hpos ▸ List.drop_eq_nil_of_le hle) (List.cons_ne_nil _ _)
    rw [List.getLast?_cons_cons] at hlast
    exact List.getLast?_eq_some_iff.mp hlast
  have hlength : pos + (p :: ts).length = init.length := by
    have := congrArg List.length hpos
    simp only [List.length_drop, List.length_append, List.length_cons, List.length_nil] at this ⊢
    omega
  have hplace (n : Nat) : (kinds (init ++ [stop]))[pos + n]? = (kinds (keyword :: p :: ts))[n]? := by
    rw [← hpos]
    simp [kinds]
  have hpattern (ls : List Kind) : kinds (p :: ts) = .lparen :: .identifier :: .rparen :: ls ↔
      Encloses (kinds (p :: ts)) [.identifier] ls :=
    ⟨fun h => ⟨h, .other (by decide) (by decide) (by decide) (by decide)⟩, fun h => h.1⟩
  have hresume : pos < resume ∧ resume ≤ init.length := by
    have hpos : 0 < head.length := length_pos (List.cons_ne_nil _ _)
    have hle : head.length ≤ (p :: ts).length := by
      change (read only keyword (p :: ts)).length ≤ _
      rw [hus]
      exact length_read_le hstop
    omega
  simp only [hpattern, isOk_iff]
  rcases @read_cases only keyword p stop ts us hp hstop hus with
    ⟨hclose, hnot⟩ | ⟨inner, q, after, following, rfl, hencloses, hcontinues⟩
  · obtain ⟨hcodes, hsteps, -⟩ := @read_unclosed only keyword _ hclose
    rw [show head.codes = [.malformedMarker] from hcodes, show head.hasSteps = false from hsteps]
    generalize kinds (p :: ts) = ks at hnot ⊢
    simp [hnot, hresume, incomplete_ne]
  obtain ⟨honly, hnodup, hmalformed⟩ := hcontinues.mem_codes
  have hone (P : List Kind → List Kind → Prop) :
      (∃ ks ls, Encloses (kinds (p :: (inner ++ q :: after :: following))) ks ls ∧ P ks ls) ↔
        P (kinds inner) (after.kind :: kinds following) := by
    constructor
    · rintro ⟨ks, ls, hks, hP⟩
      obtain ⟨rfl, rfl⟩ := (hencloses ks ls).mp hks
      exact hP
    · exact fun hP => ⟨_, _, (hencloses _ _).mpr ⟨rfl, rfl⟩, hP⟩
  have hgoes : (∃ l, after.kind :: kinds following = .identifier :: .assign :: l) ↔
      after.kind = .identifier ∧ (kinds following).head? = some .assign := by
    simp only [List.cons.injEq, List.head?_eq_some_iff, exists_and_left]
  refine ⟨?_, ?_, honly, hnodup, ?_, ?_, hresume.1, hresume.2, fun hsteps => ?_⟩
  · rw [hcontinues.declaration_iff, markerCodes_eq_nil, ← hgoes]
    simp only [hencloses]
    constructor
    · rintro ⟨hinner, honly, l, hl⟩
      exact ⟨honly, l, hinner.symm, hl.symm⟩
    · rintro ⟨honly, l, hinner, hl⟩
      exact ⟨hinner.symm, honly, l, hl.symm⟩
  · rw [hcontinues.expression_iff, markerCodes_eq_nil]
    simp only [hencloses, List.cons.injEq]
    constructor
    · rintro ⟨hinner, hafter⟩
      exact ⟨_, hinner.symm, hafter.symm, rfl⟩
    · rintro ⟨l, hinner, hafter, -⟩
      exact ⟨hinner.symm, hafter.symm⟩
  · rw [hmalformed, hone fun ks _ => ks ≠ [.identifier]]
    refine ⟨.inr, fun h => h.resolve_left fun hnot => ?_⟩
    exact hnot _ _ ((hencloses _ _).mpr ⟨rfl, rfl⟩)
  · rw [hcontinues.incomplete_iff (incomplete_notMem _), hone fun _ ls => ls.head? ≠ some .assign ∧
      ¬(only = false ∧ ∃ l, ls = .identifier :: .assign :: l), hgoes]
    simp
  · rcases hcontinues.assign hsteps with ⟨hkind, hlength⟩ | ⟨hkind, hlength⟩
    · rw [show resume - 1 = pos + (inner.length + 3) from congrArg (pos + · - 1) hlength, hplace]
      simpa [kinds] using hkind
    · rw [show resume - 1 = pos + (inner.length + 4) from congrArg (pos + · - 1) hlength, hplace]
      simpa [kinds, List.getElem?_append_right, List.head?_eq_getElem?] using hkind

/-- The tokens behind the keyword of `let((a)) x;`, up to the end mark. -/
def nestedMarker : List Token :=
  [(.lparen, "("), (.lparen, "("), (.identifier, "a"), (.rparen, ")"), (.rparen, ")"),
    (.identifier, "x"), (.semicolon, ";"), (.endMark, "")].map fun t => ⟨t.1, t.2, default⟩

/-- The marker encloses more than a name and no equals sign follows, so both codes are given. -/
theorem nested_marker_refused :
    let head := read false ⟨.kwLet, "let", default⟩ nestedMarker
    .malformedMarker ∈ head.codes ∧ .incompleteConstruct ∈ head.codes ∧ 0 < 0 + head.length ∧
      0 + head.length ≤ 8 := by
  intro head
  have hencloses : Encloses (kinds nestedMarker) [.lparen, .identifier, .rparen]
      [.identifier, .semicolon, .endMark] :=
    ⟨rfl, @Enclosed.parens [.identifier] (.other nofun nofun nofun nofun)⟩
  obtain ⟨-, -, -, -, hmalformed, hincomplete, hlt, hle, -⟩ :=
    @read_exact (⟨.kwLet, "let", default⟩ :: nestedMarker.dropLast) nestedMarker ⟨.endMark, "", default⟩
      ⟨.kwLet, "let", default⟩ 0 false rfl rfl rfl
  refine ⟨hmalformed.mpr (.inr ⟨_, _, hencloses, nofun⟩), hincomplete.mpr ⟨_, _, hencloses, nofun, ?_⟩,
    hlt, hle⟩
  rintro ⟨-, following, ⟨⟩⟩

end StepBinding.Construct.Head
