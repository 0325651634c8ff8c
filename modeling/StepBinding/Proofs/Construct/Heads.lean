import StepBinding.Construct.Head
import StepBinding.Proofs.Construct.Extent

/-! What heads of step bindings are made of. A head that ends in an equals sign and has nothing
wrong about it is a keyword, one name in parentheses, perhaps the name of the result, and the
equals sign; and every such row of tokens is read as a head. What is wrong with a head is an
error, and a head without an equals sign has something wrong about it. -/

namespace StepBinding.Construct

open List Token

variable {ts inner us : List Token} {depth n : Nat} {span : Span} {d : Diagnostic}

theorem exists_of_isMarker (h : isMarker ts) :
    ∃ k p later, ts = k :: p :: later ∧ k.kind.isDeclarator ∧ p.kind = .lparen := by
  unfold isMarker at h
  split at h
  · rename_i k p later
    rw [Bool.and_eq_true, decide_eq_true_eq] at h
    exact ⟨k, p, later, rfl, h⟩
  · cases h

namespace Head

theorem closing?_eq_some (h : closing? depth ts = some n) :
    ∃ before t later, ts = before ++ t :: later ∧ before.length = n ∧ t.kind = .rparen := by
  induction ts generalizing depth n with
  | nil => cases h
  | cons u us ih =>
    have hlater {d : Nat} (h : (closing? d us).map (· + 1) = some n) :
        ∃ before t later, u :: us = before ++ t :: later ∧ before.length = n ∧ t.kind = .rparen := by
      obtain ⟨m, hm, rfl⟩ := Option.map_eq_some_iff.mp h
      obtain ⟨before, t, later, rfl, rfl, ht⟩ := ih hm
      exact ⟨u :: before, t, later, rfl, rfl, ht⟩
    unfold closing? at h
    split at h
    · exact hlater h
    · rename_i hu
      split at h
      · cases h
        exact ⟨[], u, us, rfl, rfl, hu⟩
      · exact hlater h
    · cases h
    · cases h
    · exact hlater h

theorem binding?_eq_ok {t : Token} (h : binding? span inner = .ok t) :
    inner = [t] ∧ t.kind = .identifier := by
  unfold binding? at h
  split at h
  · cases h
  · split at h
    · rename_i hk
      cases h
      exact ⟨rfl, hk⟩
    · cases h
  · cases h

private theorem malformedMarker_ne : Code.malformedMarker ≠ .shadowing := by decide

private theorem incompleteConstruct_ne : Code.incompleteConstruct ≠ .shadowing := by decide

theorem binding?_error (h : binding? span inner = .error d) : d.isError ∧ d.code ≠ .shadowing := by
  have hwrong (inner : List Token) :
      (wrongMarker span inner).isError ∧ (wrongMarker span inner).code ≠ .shadowing := by
    unfold wrongMarker
    split <;> exact ⟨rfl, malformedMarker_ne⟩
  unfold binding? at h
  split at h
  · cases h; exact ⟨rfl, malformedMarker_ne⟩
  · split at h <;> cases h
    exact hwrong _
  · cases h; exact hwrong _

variable {only : Bool} {keyword : Token} {rest : List Token}

theorem isError_of_mem_marker
    (h : d ∈ (match binding? span inner with | .ok _ => [] | .error d => [d])) :
    d.isError ∧ d.code ≠ .shadowing := by
  split at h
  · cases h
  · cases mem_singleton.mp h
    exact binding?_error ‹_›

/-- What is wrong with a head is an error. -/
theorem isError_of_mem_errors (h : d ∈ (read only keyword rest).errors) :
    d.isError ∧ d.code ≠ .shadowing := by
  unfold read at h
  dsimp only at h
  split at h
  · cases mem_singleton.mp h
    exact ⟨rfl, malformedMarker_ne⟩
  · split at h <;> split at h
    all_goals try exact isError_of_mem_marker h
    all_goals
      rcases mem_append.mp h with h | h
      · exact isError_of_mem_marker h
      · cases mem_singleton.mp h
        exact ⟨rfl, incompleteConstruct_ne⟩

/-- A head without steps has something wrong about it. -/
theorem errors_ne_nil (h : (read only keyword rest).hasSteps = false) :
    (read only keyword rest).errors ≠ [] := by
  have hboth : (read only keyword rest).hasSteps ∨ (read only keyword rest).errors ≠ [] := by
    unfold read
    dsimp only
    split
    · exact .inr (cons_ne_nil _ _)
    · split
      · split
        · exact .inl rfl
        · exact .inr (by simp)
      · split
        · exact .inl rfl
        · exact .inr (by simp)
  exact hboth.resolve_left (by rw [h]; decide)

theorem keyword_read : (read only keyword rest).keyword = keyword := by
  unfold read
  dsimp only
  split
  · rfl
  · split
    · split <;> rfl
    · split <;> rfl

/-- Where only an expression may stand, a head is that of an expression. -/
theorem form_read : (read true keyword rest).form = .expression := by
  unfold read
  dsimp only
  split
  · rfl
  · split
    · rename_i h
      simp at h
    · split <;> rfl

/-- A declaration with steps names its result. -/
theorem result_read : (read only keyword rest).hasSteps →
    (read only keyword rest).form = .declaration →
      (read only keyword rest).result.isSome := by
  unfold read
  dsimp only
  split
  · rintro ⟨⟩
  · split
    · split
      · exact fun _ _ => rfl
      · rintro ⟨⟩
    · split
      · rintro _ ⟨⟩
      · rintro ⟨⟩

/-- A head is not empty. -/
theorem length_pos (h : rest ≠ []) : 0 < (read only keyword rest).length := by
  unfold read
  dsimp only
  split
  · exact length_pos_iff.mpr h
  · split
    · split <;> exact Nat.succ_pos _
    · split <;> exact Nat.succ_pos _

theorem endMark_notMem_closing (h : closing? depth ts = some n) :
    .endMark ∉ Steps.kinds (ts.take (n + 1)) := by
  induction ts generalizing depth n with
  | nil => cases h
  | cons t ts ih =>
    have hlater {d : Nat} (ht : t.kind ≠ .endMark) (h : (closing? d ts).map (· + 1) = some n) :
        .endMark ∉ Steps.kinds ((t :: ts).take (n + 1)) := by
      obtain ⟨m, hm, rfl⟩ := Option.map_eq_some_iff.mp h
      rw [take_succ_cons, Steps.kinds_cons]
      exact not_mem_cons_of_ne_of_not_mem (Ne.symm ht) (ih hm)
    unfold closing? at h
    split at h
    · exact hlater (by simp [*]) h
    · rename_i hk
      split at h
      · cases h
        simp [hk]
      · exact hlater (by simp [*]) h
    · cases h
    · cases h
    · rename_i hne
      exact hlater hne h

open Steps in
/-- The parenthesis that closes a marker closes what was opened first, if the tokens nest. -/
theorem nest_closing {depth n : Nat} {ts : List Token} {inner outer s : List Kind}
    (h : closing? (depth + 1) ts = some n) (hcount : inner.count .lparen = depth)
    (hs : nest (inner ++ .lparen :: outer) (kinds (ts.take (n + 1))) = some s) :
    nest (inner ++ [.lparen]) (kinds (ts.take (n + 1))) = some [] := by
  induction ts generalizing depth n inner with
  | nil => cases h
  | cons t ts ih =>
    have hnext {d : Nat} (h : (closing? d ts).map (· + 1) = some n) :
        ∃ m, closing? d ts = some m ∧ n = m + 1 := by
      obtain ⟨m, hm, rfl⟩ := Option.map_eq_some_iff.mp h
      exact ⟨m, hm, rfl⟩
    rw [take_succ_cons, kinds_cons] at hs ⊢
    -- What the token opens or closes is found by its kind; the count is that of the parentheses.
    have hother (hl : t.kind ≠ .lparen) (hr : t.kind ≠ .rparen)
        (h : (closing? (depth + 1) ts).map (· + 1) = some n) :
        nest (inner ++ [.lparen]) (t.kind :: kinds (ts.take n)) = some [] := by
      obtain ⟨m, hm, rfl⟩ := hnext h
      by_cases hopener : t.kind.isOpener
      · rw [nest_opener hopener, ← cons_append] at hs ⊢
        exact ih hm (by rw [count_cons_of_ne hl]; exact hcount) hs
      cases hcloser : t.kind.opener? with
      | none =>
        have hskip (st ks : List Kind) : nest st (t.kind :: ks) = nest st ks := by
          simp [nest, hopener, hcloser]
        rw [hskip] at hs ⊢
        exact ih hm hcount hs
      | some o =>
        obtain ⟨rest, hrest, hs⟩ := exists_of_nest_closer hcloser hs
        have ho : o ≠ .lparen := by
          rintro rfl
          cases hk : t.kind <;> rw [hk] at hcloser <;> cases hcloser
          exact hr hk
        cases inner with
        | nil =>
          cases hrest
          exact absurd rfl ho
        | cons o' inner =>
          cases hrest
          rw [count_cons_of_ne ho] at hcount
          rw [cons_append, nest_closer hcloser]
          exact ih hm hcount hs
    unfold closing? at h
    split at h
    · rename_i hk
      obtain ⟨m, hm, rfl⟩ := hnext h
      rw [hk, nest_opener rfl, ← cons_append] at hs ⊢
      exact ih hm (by rw [count_cons_self, hcount]) hs
    · rename_i hk
      rw [hk] at hs ⊢
      obtain ⟨rest, hrest, hs⟩ := exists_of_nest_closer (o := .lparen) rfl hs
      split at h
      · rename_i hdepth
        cases h
        have hzero : inner.count .lparen = 0 := by omega
        cases inner with
        | nil => rfl
        | cons o inner =>
          cases hrest
          simp at hzero
      · rename_i hdepth
        obtain ⟨m, hm, rfl⟩ := hnext h
        obtain ⟨d, rfl⟩ : ∃ d, depth = d + 1 := ⟨depth - 1, by omega⟩
        cases inner with
        | nil => simp at hcount
        | cons o inner =>
          cases hrest
          rw [count_cons_self] at hcount
          rw [cons_append, nest_closer rfl]
          exact ih hm (by omega) hs
    · cases h
    · cases h
    · rename_i hl hr _ _
      exact hother hl hr h

open Steps in
/-- A head whose marker is closed leaves nothing open. -/
theorem even_read {p : Token} {ts : List Token} (hk : keyword.kind.isDeclarator)
    (hp : p.kind = .lparen) : closing? 0 (p :: ts) = none ∨
      Even (kinds ((keyword :: p :: ts).take (read only keyword (p :: ts)).length)) := by
  have hkeyword : isPlain keyword.kind := by
    cases hkind : keyword.kind <;> first | rfl | (rw [hkind] at hk; cases hk)
  cases hclose : closing? 0 (p :: ts) with
  | none => exact .inl rfl
  | some close =>
    right
    have hmarker : Even (kinds ((keyword :: p :: ts).take (close + 2))) := by
      intro s s' hs
      unfold closing? at hclose
      rw [hp] at hclose
      obtain ⟨m, hm, rfl⟩ := Option.map_eq_some_iff.mp hclose
      rw [take_succ_cons, take_succ_cons, kinds_cons, kinds_cons, hp] at hs ⊢
      rw [nest_plain hkeyword, nest_opener rfl] at hs
      refine .cons hkeyword (balanced_of_nest (@nest_closing _ _ _ [] _ _ hm rfl hs) ?_)
      exact not_mem_cons_of_ne_of_not_mem nofun (endMark_notMem_closing hm)
    have hmore {n : Nat} (h : Even (kinds ((keyword :: p :: ts).take (n + 1))))
        (hplain : ∀ t ∈ (p :: ts)[n]?, isPlain t.kind) :
        Even (kinds ((keyword :: p :: ts).take (n + 2))) := by
      rw [take_add_one, kinds_append]
      refine h.append (Balanced.even ?_)
      rw [getElem?_cons_succ]
      cases ht : (p :: ts)[n]? with
      | none => exact .nil
      | some t => exact .plain (hplain t ht)
    have hafter {k : Kind} (hplain : isPlain k)
        (h : (((p :: ts)[close + 1]?).getD ((p :: ts).getLastD keyword)).kind = k) :
        Even (kinds ((keyword :: p :: ts).take (close + 3))) := by
      refine hmore hmarker fun t ht => ?_
      rw [Option.mem_def.mp ht, Option.getD_some] at h
      rw [h]
      exact hplain
    unfold read
    rw [hclose]
    dsimp only
    split
    · rename_i hident
      simp only [Bool.and_eq_true, decide_eq_true_eq] at hident
      split
      · rename_i hequals
        refine hmore (hafter rfl hident.1) fun t ht => ?_
        rw [Option.mem_def.mp ht, Option.any_some, decide_eq_true_eq] at hequals
        rw [hequals]
        rfl
      · exact hafter rfl hident.1
    · split
      · rename_i hequals
        exact hafter rfl hequals
      · exact hmarker

/-- A head does not reach over the end mark. -/
theorem length_read_le {ts : List Token} {stop : Token} (hs : stop.kind = .endMark) :
    (read only keyword (ts ++ [stop])).length ≤ (ts ++ [stop]).length := by
  have hinside {i : Nat} {k : Kind} (hk : k ≠ .endMark)
      (h : ((ts ++ [stop])[i]?).any fun t => t.kind = k) : i + 2 ≤ (ts ++ [stop]).length := by
    rw [Option.any_eq_true] at h
    obtain ⟨t, ht, hkind⟩ := h
    have hlt : i < ts.length := by
      by_cases hi : i < ts.length
      · exact hi
      · rw [getElem?_append_right (Nat.le_of_not_lt hi)] at ht
        obtain ⟨h0, hstop⟩ : i - ts.length = 0 ∧ stop = t := by
          cases hi' : i - ts.length with
          | zero => rw [hi'] at ht; exact ⟨rfl, by simpa using ht⟩
          | succ m => rw [hi'] at ht; simp at ht
        subst hstop
        rw [decide_eq_true_eq, hs] at hkind
        exact absurd hkind.symm hk
    simp only [length_append, length_singleton]
    omega
  unfold read
  dsimp only
  split
  · exact .refl
  · rename_i close hclose
    obtain ⟨before, t, later, hts, hlen, ht⟩ := closing?_eq_some hclose
    have hclose : close + 2 ≤ (ts ++ [stop]).length := by
      refine hinside (by decide : Kind.rparen ≠ .endMark) ?_
      rw [hts, ← hlen]
      simp [ht]
    have hget : ((ts ++ [stop])[close + 1]?).getD ((ts ++ [stop]).getLastD keyword) =
        (ts ++ [stop])[close + 1] := by
      rw [getElem?_eq_getElem hclose, Option.getD_some]
    have hafter {k : Kind} (hk : k ≠ .endMark)
        (h : (((ts ++ [stop])[close + 1]?).getD ((ts ++ [stop]).getLastD keyword)).kind = k) :
        close + 3 ≤ (ts ++ [stop]).length := by
      refine hinside hk ?_
      rw [hget] at h
      rw [getElem?_eq_getElem hclose]
      simp [h]
    split
    · rename_i hident
      simp only [Bool.and_eq_true, decide_eq_true_eq] at hident
      split
      · rename_i hequals
        exact hinside (by decide : Kind.assign ≠ .endMark) hequals
      · exact hafter (by decide) hident.1
    · split
      · rename_i hequals
        exact hafter (by decide) hequals
      · exact hclose

theorem closing?_tail (vs : List Token) (h : closing? depth (ts ++ us) = some n)
    (hn : n < ts.length) : closing? depth (ts ++ vs) = some n := by
  induction ts generalizing depth n with
  | nil => exact absurd hn (Nat.not_lt_zero n)
  | cons t ts ih =>
    have hlater {d : Nat} (h : (closing? d (ts ++ us)).map (· + 1) = some n) :
        (closing? d (ts ++ vs)).map (· + 1) = some n := by
      obtain ⟨m, hm, rfl⟩ := Option.map_eq_some_iff.mp h
      rw [ih hm (Nat.lt_of_succ_lt_succ hn)]
      rfl
    rw [cons_append] at h ⊢
    unfold closing? at h ⊢
    split at h
    · exact hlater h
    · by_cases hd : depth = 1
      · rwa [if_pos hd] at h ⊢
      · rw [if_neg hd] at h ⊢
        exact hlater h
    · exact h
    · exact h
    · exact hlater h

theorem le_length_read {close : Nat} (h : closing? 0 ts = some close) :
    close + 2 ≤ (read only keyword ts).length := by
  unfold read
  rw [h]
  dsimp only
  split
  · split <;> (dsimp only; omega)
  · split <;> (dsimp only; omega)

/-- What a head is depends only on the tokens that were looked at. -/
theorem read_tail (vs : List Token) (hne : us ≠ [])
    (h : (read only keyword (ts ++ us)).length ≤ ts.length) :
    read only keyword (ts ++ vs) = read only keyword (ts ++ us) := by
  have hget {ws : List Token} {i : Nat} (hi : i < ts.length) : (ts ++ ws)[i]? = ts[i]? :=
    getElem?_append_left hi
  cases hclose : closing? 0 (ts ++ us) with
  | none =>
    unfold read at h
    rw [hclose] at h
    dsimp only at h
    have hpos := length_pos_iff.mpr hne
    rw [length_append] at h
    omega
  | some close =>
    have hlt : close + 1 < ts.length := Nat.le_trans (le_length_read hclose) h
    unfold read at h ⊢
    rw [hclose] at h ⊢
    have hhead (ws : List Token) : (ts ++ ws).headD keyword = ts.headD keyword := by
      cases ts with
      | nil => exact absurd hlt (Nat.not_lt_zero _)
      | cons t ts => rfl
    rw [closing?_tail vs hclose (by omega)]
    dsimp only at h ⊢
    simp only [getD_eq_getElem?_getD, hget hlt, getElem?_eq_getElem hlt,
      Option.getD_some, hget (Nat.lt_of_succ_lt hlt), hhead,
      take_append_of_le_length (Nat.le_of_lt (Nat.lt_of_succ_lt hlt))] at h ⊢
    -- The token after the next one is looked at only behind a name.
    by_cases hname : (decide (ts[close + 1].kind = .identifier) && !only)
    · rw [if_pos hname] at h
      have hlt' : close + 2 < ts.length := by split at h <;> dsimp only at h <;> omega
      rw [if_pos hname, if_pos hname, hget hlt', hget hlt']
    · rw [if_neg hname, if_neg hname]

/-- A head in which nothing is wrong, with the tokens after it. -/
inductive Reads (only : Bool) (keyword : Token) : Head → List Token → List Token → Prop
  | expression {p name q equals : Token} {following : List Token} {head : Head}
      (hp : p.kind = .lparen) (hname : name.kind = .identifier) (hq : q.kind = .rparen)
      (he : equals.kind = .assign) (hform : head.form = .expression)
      (hbinding : head.binding = some name) (hresult : head.result = none)
      (hlength : head.length = 5) :
      Reads only keyword head (p :: name :: q :: equals :: following) following
  | declaration {p name q result equals : Token} {following : List Token} {head : Head}
      (honly : only = false) (hp : p.kind = .lparen) (hname : name.kind = .identifier)
      (hq : q.kind = .rparen) (hr : result.kind = .identifier) (he : equals.kind = .assign)
      (hform : head.form = .declaration) (hbinding : head.binding = some name)
      (hresult : head.result = some result) (hlength : head.length = 6) :
      Reads only keyword head (p :: name :: q :: result :: equals :: following) following

/-- What a head is made of if it ends in an equals sign and nothing is wrong with it. -/
theorem reads_of_hasSteps {p : Token} (hp : p.kind = .lparen)
    (hs : (read only keyword (p :: ts)).hasSteps) (he : (read only keyword (p :: ts)).errors = []) :
    ∃ following, Reads only keyword (read only keyword (p :: ts)) (p :: ts) following := by
  unfold read at hs he ⊢
  dsimp only at hs he ⊢
  cases hclose : closing? 0 (p :: ts) with
  | none => simp only [hclose] at hs; cases hs
  | some close =>
    simp only [hclose] at hs he ⊢
    obtain ⟨before, q, later, hts, hlen, hq⟩ := closing?_eq_some hclose
    have htake : (p :: ts).take close = before := by rw [hts, ← hlen, take_left']; rfl
    cases hb : binding? ((List.headD (p :: ts) keyword).span.through
        ((p :: ts).getD close keyword).span) (((p :: ts).take close).drop 1) with
    | error d =>
      simp only [hb] at hs he
      split at he
      · split at he
        · cases he
        · simp at he
      · split at he
        · cases he
        · simp at he
    | ok name =>
      obtain ⟨hinner, hname⟩ := binding?_eq_ok hb
      rw [htake] at hinner
      obtain ⟨p', rfl⟩ : ∃ p', before = [p', name] := by
        cases before with
        | nil => cases hinner
        | cons p' before => exact ⟨p', congrArg (p' :: ·) hinner⟩
      obtain rfl : close = 2 := hlen.symm
      obtain ⟨rfl, rfl⟩ : p = p' ∧ ts = name :: q :: later := by simpa using hts
      cases later with
      | nil => simp [hq] at hs
      | cons after later =>
        simp only [hb] at hs he ⊢
        by_cases hdecl : after.kind = .identifier ∧ only = false
        · obtain ⟨hafter, rfl⟩ := hdecl
          cases later with
          | nil => simp [hafter] at hs
          | cons equals later =>
            by_cases hequals : equals.kind = .assign
            · refine ⟨later, ?_⟩
              simp only [getElem?_cons_succ, getElem?_cons_zero, Option.getD_some]
              rw [if_pos (by simp [hafter]), if_pos (by simp [hequals])]
              exact .declaration rfl hp hname hq hafter hequals rfl rfl rfl rfl
            · simp [hafter, hequals] at hs
        · have hnot : (decide (after.kind = .identifier) && !only) = false := by
            cases only with
            | true => simp
            | false => simpa using hdecl
          by_cases hequals : after.kind = .assign
          · refine ⟨later, ?_⟩
            simp only [getElem?_cons_succ, getElem?_cons_zero, Option.getD_some]
            rw [if_neg (by simp [hnot]), if_pos hequals]
            exact .expression hp hname hq hequals rfl rfl rfl rfl
          · simp [hnot, hequals] at hs

end Head

end StepBinding.Construct
