import StepBinding.Proofs.Token.Written

/-! The text around tokens. Between its tokens a program text has layout: blanks and complete
comments. A text that has a token stream is cut, without loss, into layout and the characters of
its tokens; every token writes its symbol, and its span goes from the place of its first character
to the place of its last one. -/

namespace StepBinding

open List

variable {c : Char} {cs : List Char}

namespace Position

/-- The place of a character behind a text: its line counts the line feeds before it, its column
the characters after the last of them, both from one. -/
def behind (before : List Char) : Position :=
  ⟨before.count '\n' + 1, (before.reverse.takeWhile (· != '\n')).length + 1⟩

theorem behind_nil : behind [] = start := rfl

theorem behind_append_singleton (before : List Char) (c : Char) :
    behind (before ++ [c]) = (behind before).next c := by
  unfold behind next
  by_cases hc : c = '\n'
  · simp [hc]
  · simp [hc]

theorem behind_append (before text : List Char) :
    behind (before ++ text) = (behind before).after text := by
  induction text generalizing before with
  | nil => rw [append_nil]; rfl
  | cons c text ih =>
    rw [← singleton_append, ← append_assoc, ih, behind_append_singleton]
    rfl

/-- The character before the end of a text, if it is no line feed. -/
theorem previous_behind_append_singleton (before : List Char) (hc : c ≠ '\n') :
    (behind (before ++ [c])).previous = behind before := by
  rw [behind_append_singleton]
  simp [next, previous, behind, hc]

end Position

namespace Token

open Text.CharClass

variable {s : Symbol}

/-- Blanks and complete comments. -/
inductive Layout : List Char → Prop
  | nil : Layout []
  | blank {c : Char} {gap : List Char} (hc : isBlank c = true) (h : Layout gap) : Layout (c :: gap)
  | line {body gap : List Char} (hb : '\n' ∉ body) (h : Layout gap) :
      Layout ('/' :: '/' :: (body ++ '\n' :: gap))
  | block {body gap : List Char} (hb : ¬['*', '/'] <:+: body) (h : Layout gap) :
      Layout ('/' :: '*' :: (body ++ '*' :: '/' :: gap))

/-- Layout at the end of a text, which may end in a line comment. -/
def Trailing (gap : List Char) : Prop :=
  Layout gap ∨ ∃ front body, gap = front ++ '/' :: '/' :: body ∧ Layout front ∧ '\n' ∉ body

/-- The characters of a token and the layout before them. -/
structure Piece where
  gap : List Char
  text : List Char

/-- The text that pieces make, and the layout at its end. -/
def joined (ps : List Piece) (final : List Char) : List Char :=
  ps.flatMap (fun p => p.gap ++ p.text) ++ final

@[simp] theorem joined_cons (p : Piece) (ps : List Piece) (final : List Char) :
    joined (p :: ps) final = p.gap ++ (p.text ++ joined ps final) := by
  simp [joined]

/-- The pieces are those of the tokens, with the text `before` in front of the first of them. -/
inductive Cut (file : String) : List Char → List Piece → List Char → List Token → Prop
  | done {before final : List Char} (h : Trailing final) : Cut file before [] final []
  | token {before final : List Char} {p : Piece} {ps : List Piece} {t : Token} {ts : List Token}
      (hgap : Layout p.gap) (hwrites : Writes p.text (symbol t))
      (hspan : t.span =
        ⟨file, .behind (before ++ p.gap), .behind (before ++ p.gap ++ p.text.dropLast)⟩)
      (h : Cut file (before ++ p.gap ++ p.text) ps final ts) :
      Cut file before (p :: ps) final (t :: ts)

/-- The text `c :: later` in front of the text `rest` is read as a symbol. -/
structure ReadsAs (n : Nesting) (c : Char) (later rest : List Char) (s : Symbol) (n' : Nesting) :
    Prop where
  token : (Reading.ofText n c (later ++ rest)).token = some s
  faults : (Reading.ofText n c (later ++ rest)).faults = []
  nesting : (Reading.ofText n c (later ++ rest)).nesting = n'
  take : (later ++ rest).take (Reading.ofText n c (later ++ rest)).extra = later
  drop : (later ++ rest).drop (Reading.ofText n c (later ++ rest)).extra = rest

/-- The pieces are read one after the other as the symbols, each of them in front of the text of the
later ones. -/
inductive Reads : Nesting → List Piece → List Char → List Symbol → Nesting → Prop
  | done {n : Nesting} {final : List Char} (h : Trailing final) : Reads n [] final [] n
  | token {n n' m : Nesting} {gap later final : List Char} {c : Char} {ps : List Piece} {s : Symbol}
      {ss : List Symbol} (hgap : Layout gap)
      (hread : ReadsAs n c later (joined ps final) s n') (h : Reads n' ps final ss m) :
      Reads n (⟨gap, c :: later⟩ :: ps) final (s :: ss) m

section Symbols

theorem Writes.ne_nil (h : Writes cs s) : cs ≠ [] := by
  cases h with
  | word h =>
    obtain ⟨c, later, hcs, -⟩ := h
    rw [String.toList_ofList] at hcs
    rw [hcs]
    exact nofun
  | number h => exact h.ne_nil
  | mark h => exact mark_ne_nil h
  | _ => exact nofun

/-- A symbol ends in its last line. -/
theorem Writes.getLast_ne (h : Writes cs s) : ∀ c ∈ cs.getLast?, c ≠ '\n' := by
  have hend {front back : List Char} (hne : back ≠ []) (hback : '\n' ∉ back) :
      ∀ c ∈ (front ++ back).getLast?, c ≠ '\n' := by
    rintro c hc rfl
    exact hback (mem_of_getLast?_append hne hc)
  have hpart {c : Char} (hc : isWordPart c) : c ≠ '\n' := by
    rintro rfl
    exact absurd hc (by decide)
  cases h with
  | word h =>
    obtain ⟨x, hx, hx'⟩ := h.getLast_isWordPart
    rw [String.toList_ofList] at hx
    intro c hc
    rw [Option.mem_unique hc hx]
    exact hpart hx'
  | number h => exact fun c hc => hpart (h.getLast_isWordPart c hc)
  | mark h =>
    have hall : ∀ a ∈ Kind.marks, '\n' ∉ a.1 := by decide +kernel
    exact @hend [] _ (mark_ne_nil h) (hall _ h)
  | @string quote body vs hq =>
    rw [← cons_append]
    refine hend nofun ?_
    rcases hq with rfl | rfl <;> decide
  | whole => rw [← cons_append]; exact hend nofun (by decide)
  | head => rw [← cons_append]; exact hend nofun (by decide)
  | middle => rw [← cons_append]; exact hend nofun (by decide)
  | tail => rw [← cons_append]; exact hend nofun (by decide)

end Symbols

section Comments

open Reading

variable {cs rest body : List Char}

theorem not_infix_cons :
    ¬['*', '/'] <:+: c :: cs ↔ ¬(c = '*' ∧ cs.head? = some '/') ∧ ¬['*', '/'] <:+: cs := by
  rw [infix_cons_iff, not_or, cons_prefix_cons]
  cases cs with
  | nil => simp
  | cons d cs => simp [eq_comm]

/-- A block comment that is closed ends at the first place where it can. -/
theorem commentLength_closed {m : Nat} (h : commentLength cs = (m, true)) :
    ∃ body rest, cs = body ++ '*' :: '/' :: rest ∧ m = body.length + 2 ∧ ¬['*', '/'] <:+: body := by
  fun_induction commentLength cs generalizing m with
  | case1 => cases h
  | case2 c cs hc =>
    cases h
    simp only [Bool.and_eq_true, beq_iff_eq] at hc
    obtain ⟨rfl, hslash⟩ := hc
    obtain ⟨rest, rfl⟩ := head?_eq_some_iff.mp hslash
    exact ⟨[], rest, rfl, rfl, by simp⟩
  | case3 c cs hc k closed hrest ih =>
    cases h
    obtain ⟨body, rest, rfl, rfl, hbody⟩ := ih hrest
    refine ⟨c :: body, rest, rfl, rfl, not_infix_cons.mpr ⟨?_, hbody⟩⟩
    rintro ⟨rfl, hslash⟩
    refine hc ?_
    cases body with
    | nil => cases hslash
    | cons d body => simpa using hslash

theorem commentLength_append (hb : ¬['*', '/'] <:+: body) :
    commentLength (body ++ '*' :: '/' :: rest) = (body.length + 2, true) := by
  induction body with
  | nil => rfl
  | cons c body ih =>
    obtain ⟨hc, hb⟩ := not_infix_cons.mp hb
    have hopen : (c == '*' && (body ++ '*' :: '/' :: rest).head? == some '/') = false := by
      rw [Bool.and_eq_false_imp, beq_iff_eq, beq_eq_false_iff_ne]
      intro hstar hslash
      cases body with
      | nil => cases hslash
      | cons d body => exact hc ⟨hstar, hslash⟩
    rw [cons_append, commentLength, hopen, ih hb]
    rfl

end Comments

section Lexemes

open Reading

variable {n : Nesting} {c : Char} {cs gap : List Char}

theorem Lexeme.ofText_cons {r : Reading} (hr : Reading.ofText n c cs = r) :
    Lexeme.ofText n (c :: cs) =
      (⟨c :: cs.take r.extra, r.token, r.faults⟩ :: (Lexeme.ofText r.nesting (cs.drop r.extra)).1,
        (Lexeme.ofText r.nesting (cs.drop r.extra)).2) := by
  rw [Lexeme.ofText, hr]

theorem reading_blank (hc : isBlank c) : Reading.ofText n c cs = { nesting := n } :=
  if_pos hc

theorem reading_line {body : List Char} (hb : '\n' ∉ body) (hnext : ∀ c ∈ cs.head?, c = '\n') :
    Reading.ofText n '/' ('/' :: (body ++ cs)) = { extra := body.length + 1, nesting := n } := by
  have htake : ('/' :: (body ++ cs)).takeWhile (· != '\n') = '/' :: body := by
    rw [← cons_append]
    refine takeWhile_append_eq (fun c hc => ?_) fun c hc => by simp [hnext c hc]
    rcases mem_cons.mp hc with rfl | hc
    · rfl
    · exact bne_iff_ne.mpr (ne_of_mem_of_not_mem hc hb)
  unfold Reading.ofText
  rw [if_neg (by decide), if_pos (by simp), htake]
  rfl

theorem reading_block {body : List Char} (hb : ¬['*', '/'] <:+: body) :
    Reading.ofText n '/' ('*' :: (body ++ '*' :: '/' :: cs)) =
      { extra := body.length + 3, nesting := n } := by
  unfold Reading.ofText
  rw [if_neg (by decide), if_neg (by simp), if_pos (by simp), drop_one, tail_cons,
    commentLength_append hb]
  rfl

/-- Layout is read as layout. -/
theorem Layout.lexemes (h : Layout gap) (n : Nesting) (cs : List Char) :
    ∃ ls, Lexeme.ofText n (gap ++ cs) = (ls ++ (Lexeme.ofText n cs).1, (Lexeme.ofText n cs).2) ∧
      ls.flatMap Lexeme.text = gap ∧ ∀ l ∈ ls, l.token = none ∧ l.faults = [] := by
  induction h with
  | nil => exact ⟨[], rfl, rfl, nofun⟩
  | @blank c gap hc _ ih =>
    obtain ⟨ls, hls, htext, hall⟩ := ih
    refine ⟨⟨[c], none, []⟩ :: ls, ?_, by simp [htext], ?_⟩
    · rw [cons_append, Lexeme.ofText_cons (reading_blank hc)]
      simp [hls]
    · exact forall_mem_cons.mpr ⟨⟨rfl, rfl⟩, hall⟩
  | @line body gap hb _ ih =>
    obtain ⟨ls, hls, htext, hall⟩ := ih
    refine ⟨⟨'/' :: '/' :: body, none, []⟩ :: ⟨['\n'], none, []⟩ :: ls, ?_, by simp [htext], ?_⟩
    · have hread := @reading_line n ('\n' :: (gap ++ cs)) body hb (by simp)
      have hdrop : (body ++ '\n' :: (gap ++ cs)).drop body.length = '\n' :: (gap ++ cs) :=
        drop_left
      have htake : (body ++ '\n' :: (gap ++ cs)).take body.length = body := take_left
      rw [cons_append, cons_append, append_assoc, cons_append, Lexeme.ofText_cons hread]
      simp only [take_succ_cons, drop_succ_cons, hdrop, htake, take_zero,
        drop_zero, Lexeme.ofText_cons (reading_blank (show isBlank '\n' = true from rfl)), hls]
      rfl
    · exact forall_mem_cons.mpr ⟨⟨rfl, rfl⟩, forall_mem_cons.mpr ⟨⟨rfl, rfl⟩, hall⟩⟩
  | @block body gap hb _ ih =>
    obtain ⟨ls, hls, htext, hall⟩ := ih
    refine ⟨⟨'/' :: '*' :: (body ++ ['*', '/']), none, []⟩ :: ls, ?_, by simp [htext], ?_⟩
    · have hread := @reading_block n (gap ++ cs) body hb
      have hsplit : '*' :: (body ++ '*' :: '/' :: (gap ++ cs)) =
          ('*' :: (body ++ ['*', '/'])) ++ (gap ++ cs) := by simp
      have hlength : body.length + 3 = ('*' :: (body ++ ['*', '/'])).length := by simp
      rw [cons_append, cons_append, append_assoc, cons_append, cons_append,
        Lexeme.ofText_cons hread, hlength, hsplit, take_left, drop_left, hls]
      rfl
    · exact forall_mem_cons.mpr ⟨⟨rfl, rfl⟩, hall⟩

theorem Trailing.lexemes (h : Trailing gap) (n : Nesting) :
    (Lexeme.ofText n gap).2 = n ∧
      ∀ l ∈ (Lexeme.ofText n gap).1, l.token = none ∧ l.faults = [] := by
  have hnil : Lexeme.ofText n [] = ([], n) := by rw [Lexeme.ofText]
  rcases h with h | ⟨front, body, rfl, h, hb⟩
  · obtain ⟨ls, hls, -, hall⟩ := h.lexemes n []
    rw [append_nil] at hls
    rw [hls, hnil]
    simpa using hall
  · obtain ⟨ls, hls, -, hall⟩ := h.lexemes n ('/' :: '/' :: body)
    have hread := @reading_line n [] body hb (by simp)
    rw [append_nil] at hread
    rw [hls, Lexeme.ofText_cons hread]
    simp only [take_succ_cons, drop_succ_cons, drop_length, hnil, true_and]
    intro l hl
    rcases mem_append.mp hl with hl | hl
    · exact hall l hl
    · cases mem_singleton.mp hl
      exact ⟨rfl, rfl⟩

end Lexemes

namespace Stream

variable {file : String} {p : Position} {l : Lexeme} {ls : List Lexeme}

theorem place_layout (h : l.token = none) :
    (place file p (l :: ls)).1 = (place file (p.after l.text) ls).1 := by
  simp [place, h]

theorem place_symbol (h : l.token = some s) :
    (place file p (l :: ls)).1 =
      ⟨s.1, s.2, ⟨file, p, (p.after l.text).previous⟩⟩ :: (place file (p.after l.text) ls).1 := by
  simp [place, h]

theorem place_append (h : ∀ l ∈ ls, l.token = none) (later : List Lexeme) :
    (place file p (ls ++ later)).1 = (place file (p.after (ls.flatMap Lexeme.text)) later).1 := by
  induction ls generalizing p with
  | nil => rfl
  | cons l ls ih =>
    obtain ⟨hl, hls⟩ := forall_mem_cons.mp h
    rw [cons_append, place_layout hl, ih hls, flatMap_cons, Position.after,
      Position.after, ← foldl_append]
    rfl

theorem place_stop (p : Position) (ls : List Lexeme) :
    (place file p ls).2.2 = p.after (ls.flatMap Lexeme.text) := by
  induction ls generalizing p with
  | nil => rfl
  | cons l ls ih =>
    have hstop : (place file p (l :: ls)).2.2 = (place file (p.after l.text) ls).2.2 := by
      rw [place]
      cases l.token <;> rfl
    rw [hstop, ih, flatMap_cons, Position.after, Position.after, ← foldl_append]
    rfl

end Stream

section Cutting

variable {file : String} {final front body : List Char} {ps : List Piece} {n n' : Nesting}
  {ss : List Symbol}

theorem Trailing.append (h : Trailing final) (hfront : ∀ gap, Layout gap → Layout (front ++ gap)) :
    Trailing (front ++ final) := by
  rcases h with h | ⟨gap, body, rfl, hgap, hbody⟩
  · exact .inl (hfront _ h)
  · exact .inr ⟨front ++ gap, body, (append_assoc ..).symm, hfront _ hgap, hbody⟩

theorem ReadsAs.writes {later rest : List Char} (h : ReadsAs n c later rest s n') :
    Writes (c :: later) s := by
  have hwrites := (writes_of_reading h.token h.faults).1
  rwa [h.take] at hwrites

/-- Layout that is complete goes to the gap behind it. -/
theorem Reads.prepend (h : Reads n ps final ss n')
    (hfront : ∀ gap, Layout gap → Layout (front ++ gap)) :
    ∃ ps' final', joined ps' final' = front ++ joined ps final ∧ Reads n ps' final' ss n' := by
  cases h with
  | done h => exact ⟨[], front ++ final, rfl, .done (h.append hfront)⟩
  | @token _ n1 _ gap later _ c ps s ss hgap hread h =>
    exact ⟨⟨front ++ gap, c :: later⟩ :: ps, final, by simp, .token (hfront _ hgap) hread h⟩

theorem Layout.tail {gap : List Char} (h : Layout (c :: gap)) (hc : isBlank c) : Layout gap := by
  cases h with
  | blank _ h => exact h
  | line => cases hc
  | block => cases hc

/-- So does a line comment, with the line feed behind it. -/
theorem Reads.prepend_line (h : Reads n ps final ss n') (hbody : '\n' ∉ body)
    (hnext : ∀ c ∈ (joined ps final).head?, c = '\n') :
    ∃ ps' final', joined ps' final' = '/' :: '/' :: (body ++ joined ps final) ∧
      Reads n ps' final' ss n' := by
  cases h with
  | done h =>
    refine ⟨[], _, rfl, .done ?_⟩
    cases final with
    | nil => exact .inr ⟨[], body, by simp [joined], .nil, hbody⟩
    | cons c final =>
      cases hnext c rfl
      rcases h with h | ⟨gap, body', hgap, hfront, hbody'⟩
      · exact .inl (.line hbody (h.tail rfl))
      · cases gap with
        | nil => cases hgap
        | cons d gap =>
          cases hgap
          exact .inr ⟨'/' :: '/' :: (body ++ '\n' :: gap), body', by simp [joined],
            .line hbody (hfront.tail rfl), hbody'⟩
  | @token _ n1 _ gap later _ c ps s ss hgap hread h =>
    cases gap with
    | nil =>
      cases hnext c rfl
      have htoken := hread.token
      rw [reading_blank rfl] at htoken
      cases htoken
    | cons d gap =>
      cases hnext d rfl
      exact ⟨⟨'/' :: '/' :: (body ++ '\n' :: gap), c :: later⟩ :: ps, final, by simp,
        .token (.line hbody (hgap.tail rfl)) hread h⟩

section Faults

open Reading

variable {n : Nesting} {c : Char} {cs : List Char}

theorem ofString_faults (h : (ofString n c cs).token = none) : (ofString n c cs).faults ≠ [] := by
  unfold ofString at h ⊢
  dsimp only at h ⊢
  split at h
  · cases h
  · simp_all

theorem ofChunk_faults {whole part : Kind} (h : (ofChunk n whole part cs).token = none) :
    (ofChunk n whole part cs).faults ≠ [] := by
  unfold ofChunk at h ⊢
  dsimp only at h ⊢
  split at h
  · cases h
  · cases h
  · simp_all

theorem ofMark_faults (h : (ofMark n c cs).token = none) : (ofMark n c cs).faults ≠ [] := by
  unfold ofMark at h ⊢
  split at h
  · cases h
  · exact nofun

end Faults

/-- Layout that is read is complete, or a line comment up to the end of its line. -/
theorem Reading.layout_cases {n : Nesting} (h : (Reading.ofText n c cs).token = none)
    (hf : (Reading.ofText n c cs).faults = []) :
    (Reading.ofText n c cs).nesting = n ∧
      ((∀ gap, Layout gap → Layout (c :: cs.take (Reading.ofText n c cs).extra ++ gap)) ∨
        ∃ body, c :: cs.take (Reading.ofText n c cs).extra = '/' :: '/' :: body ∧ '\n' ∉ body ∧
          ∀ d ∈ (cs.drop (Reading.ofText n c cs).extra).head?, d = '\n') := by
  rcases reading_cases n c cs with ⟨hc, hr⟩ | ⟨rfl, hslash, hr⟩ | ⟨rfl, hstar, hr⟩ | ⟨hc, hr⟩ |
    ⟨rfl, hr⟩ | ⟨hc, hr⟩ | ⟨hc, hr⟩ | ⟨rfl, hopen, hr⟩ | ⟨hc, hr⟩ <;> rw [hr] at h hf ⊢
  · exact ⟨rfl, .inl fun gap hgap => .blank hc hgap⟩
  · obtain ⟨rest, rfl⟩ := head?_eq_some_iff.mp hslash
    refine ⟨rfl, .inr ⟨rest.takeWhile (· != '\n'), ?_, ?_, ?_⟩⟩
    · rw [takeWhile_prefix_eq]
      rfl
    · intro hmem
      simpa using mem_takeWhile_imp hmem
    · have hdrop := @drop_left _ (List.takeWhile (· != '\n') ('/' :: rest))
        (List.dropWhile (· != '\n') ('/' :: rest))
      rw [takeWhile_append_dropWhile] at hdrop
      rw [hdrop]
      intro d hd
      have hnot := head?_dropWhile_not (· != '\n') ('/' :: rest)
      rw [Option.mem_def.mp hd] at hnot
      simpa using hnot
  · obtain ⟨rest, rfl⟩ := head?_eq_some_iff.mp hstar
    rw [drop_one, tail_cons] at hf ⊢
    generalize hlength : commentLength rest = comment at hf ⊢
    obtain ⟨m, closed⟩ := comment
    cases closed with
    | false => cases hf
    | true =>
      obtain ⟨body, rest, rfl, rfl, hbody⟩ := commentLength_closed hlength
      refine ⟨rfl, .inl fun gap hgap => ?_⟩
      have htake : (body ++ '*' :: '/' :: rest).take (body.length + 2) = body ++ ['*', '/'] := by
        rw [take_length_add_append]
        rfl
      simpa [htake] using Layout.block hbody hgap
  · exact absurd hf (ofString_faults h)
  · exact absurd hf (ofChunk_faults h)
  · unfold ofNumber at h
    split at h <;> cases h
  · cases h
  · exact absurd hf (ofChunk_faults h)
  · exact absurd hf (ofMark_faults h)

/-- A text without faults is read in pieces. -/
theorem reads_lexemes (hf : ∀ l ∈ (Lexeme.ofText n cs).1, l.faults = []) :
    ∃ ps final, joined ps final = cs ∧
      Reads n ps final ((Lexeme.ofText n cs).1.filterMap Lexeme.token) (Lexeme.ofText n cs).2 := by
  fun_induction Lexeme.ofText n cs with
  | case1 n => exact ⟨[], [], rfl, .done (.inl .nil)⟩
  | case2 n c cs r later nesting hlater ih =>
    obtain ⟨hfaults, hf⟩ := forall_mem_cons.mp hf
    rw [hlater] at ih
    obtain ⟨ps, final, hjoined, hreads⟩ := ih hf
    have hsplit : c :: cs.take r.extra ++ joined ps final = c :: cs := by
      rw [hjoined, cons_append, take_append_drop]
    cases htoken : r.token with
    | none =>
      obtain ⟨hnesting, hlayout⟩ := Reading.layout_cases htoken hfaults
      rw [show r.nesting = n from hnesting] at hreads
      rw [filterMap_cons_none (by rfl)]
      rcases hlayout with hfront | ⟨body, hbody, hline, hnext⟩
      · obtain ⟨ps', final', hjoined', hreads'⟩ := hreads.prepend hfront
        exact ⟨ps', final', hjoined'.trans hsplit, hreads'⟩
      · rw [← hjoined] at hnext
        rw [hbody] at hsplit
        obtain ⟨ps', final', hjoined', hreads'⟩ := hreads.prepend_line hline hnext
        exact ⟨ps', final', hjoined'.trans hsplit, hreads'⟩
    | some s =>
      rw [filterMap_cons_some (by rfl)]
      have hcs : cs.take r.extra ++ joined ps final = cs := tail_eq_of_cons_eq hsplit
      refine ⟨⟨[], c :: cs.take r.extra⟩ :: ps, final, by simpa using hsplit, .token .nil ?_ hreads⟩
      exact ⟨by rw [hcs]; exact htoken, by rw [hcs]; exact hfaults, by rw [hcs], by rw [hcs],
        by rw [hcs, hjoined]⟩

/-- Pieces are read from the text they make, without faults, and they are those of its tokens. -/
theorem Reads.lexemes (h : Reads n ps final ss n') (file : String) (before : List Char) :
    (Lexeme.ofText n (joined ps final)).1.filterMap Lexeme.token = ss ∧
      (∀ l ∈ (Lexeme.ofText n (joined ps final)).1, l.faults = []) ∧
      (Lexeme.ofText n (joined ps final)).2 = n' ∧
      Cut file before ps final
        (Stream.place file (.behind before) (Lexeme.ofText n (joined ps final)).1).1 := by
  induction h generalizing before with
  | @done n final h =>
    obtain ⟨hn, hls⟩ := h.lexemes n
    rw [show joined [] final = final from rfl]
    refine ⟨filterMap_eq_nil_iff.mpr fun l hl => (hls l hl).1, fun l hl => (hls l hl).2, hn, ?_⟩
    have hplace := @Stream.place_append file (.behind before) _ (fun l hl => (hls l hl).1) []
    rw [append_nil] at hplace
    rw [hplace]
    exact .done h
  | @token n n' m gap later final c ps s ss hgap hread h ih =>
    obtain ⟨hsymbols, hfaults, hnesting, hcut⟩ := ih (before ++ gap ++ c :: later)
    obtain ⟨ls, hls, htext, hall⟩ := hgap.lexemes n (c :: (later ++ joined ps final))
    have hcons := @Lexeme.ofText_cons n c (later ++ joined ps final) _ rfl
    rw [hread.token, hread.faults, hread.nesting, hread.take, hread.drop] at hcons
    rw [hcons] at hls
    rw [joined_cons, cons_append, hls]
    refine ⟨?_, ?_, hnesting, ?_⟩
    · rw [filterMap_append, filterMap_eq_nil_iff.mpr fun l hl => (hall l hl).1,
        nil_append, filterMap_cons_some (by rfl), hsymbols]
    · intro l hl
      rcases mem_append.mp hl with hl | hl
      · exact (hall l hl).2
      · rcases mem_cons.mp hl with rfl | hl
        · rfl
        · exact hfaults l hl
    · have hwrites := hread.writes
      have hlast := hwrites.getLast_ne _ (getLast?_eq_some_getLast hwrites.ne_nil)
      have hprevious := Position.previous_behind_append_singleton
        (before ++ gap ++ (c :: later).dropLast) hlast
      rw [append_assoc, dropLast_concat_getLast] at hprevious
      rw [Stream.place_append fun l hl => (hall l hl).1, htext, ← Position.behind_append,
        Stream.place_symbol rfl, ← Position.behind_append]
      exact .token hgap hwrites (by rw [hprevious]) hcut

/-- The lexemes of a text without faults are pieces of it. -/
theorem cut_lexemes {cs : List Char} (before : List Char)
    (hf : ∀ l ∈ (Lexeme.ofText n cs).1, l.faults = []) :
    ∃ ps final, joined ps final = cs ∧
      Cut file before ps final (Stream.place file (.behind before) (Lexeme.ofText n cs).1).1 := by
  obtain ⟨ps, final, rfl, hreads⟩ := reads_lexemes hf
  exact ⟨ps, final, rfl, (hreads.lexemes file before).2.2.2⟩

theorem ofText_ok {file text : String} {tokens : List Token}
    (h : Stream.ofText file text = .ok tokens) :
    (∀ l ∈ (Lexeme.ofText {} text.toList).1, l.faults = []) ∧
      (Lexeme.ofText {} text.toList).2.templates = [] ∧
      tokens = (Stream.place file .start (Lexeme.ofText {} text.toList).1).1 ++
        [⟨.endMark, "", ⟨file, .behind text.toList, (Position.behind text.toList).previous⟩⟩] := by
  unfold Stream.ofText at h
  dsimp only at h
  split at h
  · rename_i hopen
    split at h
    · rename_i hfaults
      cases h
      refine ⟨Stream.place_faults (isEmpty_iff.mp hfaults), isEmpty_iff.mp hopen, ?_⟩
      rw [Stream.place_stop, Lexeme.text_ofText, ← Position.behind_nil, ← Position.behind_append,
        nil_append]
    · cases h
  · simp at h

/-- Nothing is lost: a text that has a token stream is cut into layout and the characters of its
tokens, which write their symbols and stand where their spans say, and one end mark closes the
stream. -/
theorem ofText_pieces {file text : String} {tokens : List Token}
    (h : Stream.ofText file text = .ok tokens) :
    ∃ ps final ts stop, text.toList = joined ps final ∧ Cut file [] ps final ts ∧
      tokens = ts ++ [stop] ∧ stop.kind = .endMark ∧ ∀ t ∈ ts, t.kind ≠ .endMark := by
  obtain ⟨hfaults, -, rfl⟩ := ofText_ok h
  obtain ⟨ps, final, hjoined, hcut⟩ := @cut_lexemes file _ _ [] hfaults
  refine ⟨ps, final, _, _, hjoined.symm, hcut, rfl, rfl, fun t ht => ?_⟩
  exact (Stream.place_valid (Stream.lexemes_spelled hfaults) t ht).inside

theorem declaration_pieces :
    ∃ tokens, Stream.ofText "m" "let s /* kept */ =\n  'it\\'s \\ud83d' // end" = .ok tokens ∧
      ∃ ps final ts stop,
        "let s /* kept */ =\n  'it\\'s \\ud83d' // end".toList = joined ps final ∧
        Cut "m" [] ps final ts ∧ tokens = ts ++ [stop] ∧ stop.kind = .endMark ∧
        ∀ t ∈ ts, t.kind ≠ .endMark := by
  have hrun : (Stream.ofText "m" "let s /* kept */ =\n  'it\\'s \\ud83d' // end").isOk = true := by
    decide +kernel
  cases h : Stream.ofText "m" "let s /* kept */ =\n  'it\\'s \\ud83d' // end" with
  | error ds => rw [h] at hrun; cases hrun
  | ok tokens => exact ⟨_, rfl, ofText_pieces h⟩

end Cutting

end Token

end StepBinding
