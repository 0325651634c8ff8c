import StepBinding.Proofs.Token.Symbols

/-! Every way to write a symbol. A word, a numeral and a mark are written as they are spelled; a
string and a chunk of a template stand between delimiters, with escapes. What is read at the start
of a text without a fault is a way to write the symbol that is read, and every way to write a
symbol is read as that symbol, if the text after it does not make it longer. -/

namespace StepBinding.Token

open List Text.CharClass

variable {m : Nat} {quote : Char}

/-- The body of a literal: a backslash takes the next character with it, and every other character
is allowed where it stands. -/
inductive Body (allowed : Char → List Char → Prop) : List Char → Prop
  | nil : Body allowed []
  | plain {c : Char} {cs : List Char} (hc : c ≠ '\\') (ha : allowed c cs) (h : Body allowed cs) :
      Body allowed (c :: cs)
  | pair {e : Char} {cs : List Char} (h : Body allowed cs) : Body allowed ('\\' :: e :: cs)

/-- A string goes on up to its quote and stays in its line. -/
def InString (quote c : Char) (_ : List Char) : Prop := c ≠ quote ∧ c ≠ '\n'

/-- A chunk of a template goes on up to a backquote or a substitution. -/
def InChunk (c : Char) (later : List Char) : Prop :=
  c ≠ '\x60' ∧ ¬(c = '$' ∧ later.head? = some '\x7b')

/-- The code points that the body of a literal stands for. -/
inductive StandsFor : List Char → List Nat → Prop
  | nil : StandsFor [] []
  | plain {c : Char} {cs : List Char} {vs : List Nat} (hc : c ≠ '\\') (h : StandsFor cs vs) :
      StandsFor (c :: cs) (c.toNat :: vs)
  | short {e : Char} {cs : List Char} {vs : List Nat} (he : e ≠ 'u') (h : StandsFor cs vs) :
      StandsFor ('\\' :: e :: cs) ((Escape.short e).map Char.toNat ++ vs)
  | number {a b c d : Char} {cs : List Char} {vs : List Nat} (ha : isHexDigit a = true)
      (hb : isHexDigit b = true) (hc : isHexDigit c = true) (hd : isHexDigit d = true)
      (h : StandsFor cs vs) : StandsFor ('\\' :: 'u' :: a :: b :: c :: d :: cs)
        ((((hexValue a * 16 + hexValue b) * 16 + hexValue c) * 16 + hexValue d) :: vs)

/-- The characters are a way to write the symbol. -/
inductive Writes : List Char → Symbol → Prop
  | word {cs : List Char} (h : IsWord (String.ofList cs)) :
      Writes cs (Kind.ofWord (String.ofList cs), .ofChars cs)
  | number {cs : List Char} (h : Numeral cs) : Writes cs (.number, .ofChars cs)
  | mark {cs : List Char} {k : Kind} (h : (cs, k) ∈ Kind.marks) : Writes cs (k, .ofChars cs)
  | string {quote : Char} {body : List Char} {vs : List Nat} (hq : quote = '"' ∨ quote = '\x27')
      (hb : Body (InString quote) body) (hv : StandsFor body vs) :
      Writes (quote :: (body ++ [quote])) (.string, ⟨vs⟩)
  | whole {body : List Char} {vs : List Nat} (hb : Body InChunk body) (hv : StandsFor body vs) :
      Writes ('\x60' :: (body ++ ['\x60'])) (.templateWhole, ⟨vs⟩)
  | head {body : List Char} {vs : List Nat} (hb : Body InChunk body) (hv : StandsFor body vs) :
      Writes ('\x60' :: (body ++ ['$', '\x7b'])) (.templateHead, ⟨vs⟩)
  | middle {body : List Char} {vs : List Nat} (hb : Body InChunk body) (hv : StandsFor body vs) :
      Writes ('\x7d' :: (body ++ ['$', '\x7b'])) (.templateMiddle, ⟨vs⟩)
  | tail {body : List Char} {vs : List Nat} (hb : Body InChunk body) (hv : StandsFor body vs) :
      Writes ('\x7d' :: (body ++ ['\x60'])) (.templateTail, ⟨vs⟩)

section Bodies

open Reading Escape

variable {n : Nesting} {cs ds : List Char} {vs : List Nat}

theorem StandsFor.decode_eq (h : StandsFor cs vs) : decode cs = vs := by
  induction h with
  | nil => simp [decode]
  | plain hc h ih =>
    rw [decode.eq_def]
    simp [hc, ih]
  | short he h ih => simp [decode, he, ih]
  | number ha hb hc hd h ih => simp [decode, unicode?, ha, hb, hc, hd, ih]

theorem StandsFor.flaws_eq (h : StandsFor cs vs) (offset : Nat) : flaws offset cs = [] := by
  induction h generalizing offset with
  | nil => simp [flaws]
  | plain hc h ih =>
    rw [flaws.eq_def]
    simp [hc, ih]
  | short he h ih => simp [flaws, he, ih]
  | number ha hb hc hd h ih => simp [flaws, unicode?, ha, hb, hc, hd, ih]

theorem unicode?_eq_some {u : Nat} (h : unicode? cs = some u) :
    ∃ a b c d, cs = a :: b :: c :: d :: cs.drop 4 ∧ isHexDigit a ∧ isHexDigit b ∧
      isHexDigit c ∧ isHexDigit d ∧
      u = ((hexValue a * 16 + hexValue b) * 16 + hexValue c) * 16 + hexValue d := by
  unfold unicode? at h
  split at h
  · rename_i a b c d rest
    split at h
    · rename_i hdigits
      simp only [Bool.and_eq_true] at hdigits
      obtain ⟨⟨⟨ha, hb⟩, hc⟩, hd⟩ := hdigits
      exact ⟨a, b, c, d, rfl, ha, hb, hc, hd, (Option.some.inj h).symm⟩
    · cases h
  · cases h

/-- A body without a flaw stands for what it is decoded to. -/
theorem standsFor_decode (offset : Nat) (h : flaws offset cs = []) : StandsFor cs (decode cs) := by
  fun_induction flaws offset cs with
  | case1 offset => simpa [decode] using StandsFor.nil
  | case2 offset c hc => cases h
  | case3 offset c hc e rest he u hu ih =>
    obtain ⟨a, b, x, y, hrest, ha, hb, hx, hy, hvalue⟩ := unicode?_eq_some hu
    have hdecode : decode (c :: e :: rest) = u :: decode (rest.drop 4) := by
      simp [decode, hc, he, hu]
    rw [hdecode, beq_iff_eq.mp hc, beq_iff_eq.mp he, hvalue, hrest]
    exact .number ha hb hx hy (ih h)
  | case4 => cases h
  | case5 offset c hc e rest he ih =>
    have he : e ≠ 'u' := by simpa using he
    have hdecode : decode (c :: e :: rest) = (short e).map Char.toNat ++ decode rest := by
      simp [decode, hc, he]
    rw [hdecode, beq_iff_eq.mp hc]
    exact .short he (ih h)
  | case6 offset c cs hc ih =>
    have hc : c ≠ '\\' := by simpa using hc
    have hdecode : decode (c :: cs) = c.toNat :: decode cs := by
      rw [decode.eq_def]
      simp [hc]
    rw [hdecode]
    exact .plain hc (ih h)

theorem Body.stringLength_append (h : Body (InString quote) cs) (hq : quote ≠ '\\') :
    stringLength quote (cs ++ quote :: ds) = (cs.length, true) := by
  induction h with
  | nil =>
    rw [nil_append, stringLength.eq_def]
    simp
  | plain hc ha h ih =>
    rw [cons_append, stringLength.eq_def]
    simp [hc, ha.1, ha.2, ih]
  | pair h ih =>
    rw [cons_append, cons_append, stringLength.eq_def]
    simp [hq.symm, ih]

/-- The body of a string that is closed, and the quote behind it. -/
theorem body_of_stringLength (h : stringLength quote cs = (m, true)) :
    Body (InString quote) (cs.take m) ∧ ∃ rest, cs = cs.take m ++ quote :: rest := by
  fun_induction stringLength quote cs generalizing m with
  | case1 => cases h
  | case2 c cs hc =>
    cases h
    exact ⟨.nil, cs, by rw [beq_iff_eq.mp hc]; rfl⟩
  | case3 => cases h
  | case4 => cases h
  | case5 c hq hn hb e rest k closed hrest ih =>
    cases h
    obtain ⟨hbody, later, hlater⟩ := ih hrest
    rw [beq_iff_eq.mp hb, take_succ_cons, take_succ_cons]
    exact ⟨.pair hbody, later, by rw [cons_append, cons_append, ← hlater]⟩
  | case6 c cs hq hn hb k closed hrest ih =>
    cases h
    obtain ⟨hbody, later, hlater⟩ := ih hrest
    rw [take_succ_cons]
    exact ⟨.plain (by simpa using hb) ⟨by simpa using hq, by simpa using hn⟩ hbody, later,
      by rw [cons_append, ← hlater]⟩

/-- The characters at which a chunk of a template ends. -/
def ChunkEnd.mark : ChunkEnd → List Char
  | .closing => ['\x60']
  | .substitution => ['$', '\x7b']
  | .missing => []

theorem Body.chunkLength_append (h : Body InChunk cs) (hd : ds.head? ≠ some '\x7b') :
    chunkLength (cs ++ ds) = (cs.length + (chunkLength ds).1, (chunkLength ds).2) := by
  induction h with
  | nil => simp
  | @plain c cs hc ha h ih =>
    have hnot : (c == '$' && (cs ++ ds).head? == some '\x7b') = false := by
      by_cases hdollar : c = '$'
      · cases cs with
        | nil => simpa [hdollar] using hd
        | cons x cs => simpa [hdollar] using fun hx => ha.2 ⟨hdollar, hx⟩
      · simp [hdollar]
    rw [cons_append, chunkLength.eq_def]
    simp only [beq_eq_false_iff_ne.mpr ha.1, beq_eq_false_iff_ne.mpr hc, hnot, Bool.false_eq_true,
      if_false, ih, length_cons, Prod.mk.injEq, and_true]
    omega
  | pair h ih =>
    rw [cons_append, cons_append, chunkLength.eq_def]
    simp only [ih, length_cons]
    simp
    omega

/-- The body of a chunk, and the characters behind it. -/
theorem body_of_chunkLength {e : ChunkEnd} (h : chunkLength cs = (m, e)) (he : e ≠ .missing) :
    Body InChunk (cs.take m) ∧ ∃ rest, cs = cs.take m ++ (ChunkEnd.mark e ++ rest) := by
  fun_induction chunkLength cs generalizing m with
  | case1 =>
    cases h
    exact absurd rfl he
  | case2 c cs hc =>
    cases h
    exact ⟨.nil, cs, by rw [beq_iff_eq.mp hc]; rfl⟩
  | case3 c cs hc hdollar =>
    cases h
    simp only [Bool.and_eq_true, beq_iff_eq] at hdollar
    obtain ⟨rfl, hbrace⟩ := hdollar
    obtain ⟨rest, rfl⟩ := head?_eq_some_iff.mp hbrace
    exact ⟨.nil, rest, rfl⟩
  | case4 =>
    cases h
    exact absurd rfl he
  | case5 c hc hb x rest k e' hrest hdollar ih =>
    cases h
    obtain ⟨hbody, later, hlater⟩ := ih hrest
    rw [beq_iff_eq.mp hb, take_succ_cons, take_succ_cons]
    exact ⟨.pair hbody, later, by rw [cons_append, cons_append, ← hlater]⟩
  | case6 c cs hc hdollar hb k e' hrest ih =>
    cases h
    obtain ⟨hbody, later, hlater⟩ := ih hrest
    rw [take_succ_cons]
    refine ⟨.plain (by simpa using hb) ⟨by simpa using hc, fun hx => hdollar ?_⟩ hbody, later,
      by rw [cons_append, ← hlater]⟩
    have hbrace : cs.head? = some '\x7b' := by
      rw [hlater, head?_append, hx.2]
      rfl
    simp [hx.1, hbrace]

end Bodies

section Readings

open Reading Escape

variable {n n' : Nesting} {c : Char} {cs ds : List Char} {s : Symbol}

theorem take_add_of_append {ms rest : List Char} (h : cs = cs.take m ++ (ms ++ rest)) :
    cs.take (m + ms.length) = cs.take m ++ ms := by
  have hdrop : cs.drop m = ms ++ rest :=
    append_cancel_left ((take_append_drop m cs).trans h)
  rw [take_add, hdrop, take_left' rfl]

theorem writes_ofString (hq : quote = '"' ∨ quote = '\x27')
    (h : (ofString n quote cs).token = some s) (hf : (ofString n quote cs).faults = []) :
    Writes (quote :: cs.take (ofString n quote cs).extra) s ∧
      n.step? s.1 = some (ofString n quote cs).nesting := by
  unfold ofString at h hf ⊢
  dsimp only at h hf ⊢
  split at h
  · rename_i hclosed
    rw [if_pos hclosed] at hf ⊢
    cases h
    obtain ⟨hbody, rest, hrest⟩ := body_of_stringLength (Prod.ext rfl hclosed)
    rw [show (stringLength quote cs).1 + 1 = (stringLength quote cs).1 + [quote].length from rfl,
      take_add_of_append hrest]
    exact ⟨.string hq hbody (standsFor_decode 1 (map_eq_nil_iff.mp hf)), rfl⟩
  · cases h

/-- A chunk that is read has a body and ends with the template or before a substitution. -/
theorem writes_ofChunk {whole part : Kind} (h : (ofChunk n whole part cs).token = some s)
    (hf : (ofChunk n whole part cs).faults = []) :
    ∃ body vs e, Body InChunk body ∧ StandsFor body vs ∧
      cs.take (ofChunk n whole part cs).extra = body ++ ChunkEnd.mark e ∧
      ((e = .closing ∧ s = (whole, ⟨vs⟩) ∧ (ofChunk n whole part cs).nesting = n) ∨
        (e = .substitution ∧ s = (part, ⟨vs⟩) ∧
          (ofChunk n whole part cs).nesting = { n with templates := n.braces :: n.templates })) := by
  unfold ofChunk at h hf ⊢
  dsimp only at h hf ⊢
  generalize hlength : chunkLength cs = chunk at h hf ⊢
  obtain ⟨length, ending⟩ := chunk
  cases ending with
  | missing => cases h
  | closing =>
    obtain ⟨hbody, rest, hrest⟩ := body_of_chunkLength hlength nofun
    cases h
    exact ⟨_, _, .closing, hbody, standsFor_decode 1 (map_eq_nil_iff.mp hf),
      take_add_of_append hrest, .inl ⟨rfl, rfl, rfl⟩⟩
  | substitution =>
    obtain ⟨hbody, rest, hrest⟩ := body_of_chunkLength hlength nofun
    cases h
    exact ⟨_, _, .substitution, hbody, standsFor_decode 1 (map_eq_nil_iff.mp hf),
      take_add_of_append hrest, .inr ⟨rfl, rfl, rfl⟩⟩

theorem writes_ofNumber (hc : isDigit c ∨ (c = '.' ∧ cs.head?.any isDigit))
    (h : (ofNumber n (c :: cs)).token = some s) (hf : (ofNumber n (c :: cs)).faults = []) :
    Writes (c :: cs.take (ofNumber n (c :: cs)).extra) s ∧
      n.step? s.1 = some (ofNumber n (c :: cs)).nesting := by
  obtain ⟨k, v⟩ := s
  have hspelled := ofNumber_spelled hc h hf
  suffices hv : k = .number ∧ v = .ofChars (c :: cs.take (ofNumber n (c :: cs)).extra) ∧
      (ofNumber n (c :: cs)).nesting = n by
    obtain ⟨rfl, rfl, hnesting⟩ := hv
    have hnumeral := hspelled.numeral rfl
    rw [Content.text_ofChars, String.toList_ofList] at hnumeral
    rw [hnesting]
    exact ⟨.number hnumeral, rfl⟩
  have hpos : 0 < decimalLength (c :: cs) := by
    refine Nat.pos_of_ne_zero fun hzero => (decimal_take hc).ne_nil ?_
    rw [hzero, take_zero]
  unfold ofNumber at h ⊢
  cases hhex : hexLength? (c :: cs) with
  | some digits =>
    rw [hhex] at h
    cases h
    exact ⟨rfl, rfl, rfl⟩
  | none =>
    rw [hhex] at h
    cases h
    refine ⟨rfl, ?_, rfl⟩
    rw [← take_succ_cons, Nat.sub_add_cancel hpos]

theorem writes_ofWord (hc : isWordStart c) (h : (ofWord n c cs).token = some s) :
    Writes (c :: cs.take (ofWord n c cs).extra) s ∧
      n.step? s.1 = some (ofWord n c cs).nesting := by
  cases h
  refine ⟨?_, Symbol.step?_word (Kind.isWord_ofWord _) n⟩
  rw [ofWord, takeWhile_prefix_eq]
  exact .word ⟨c, _, String.toList_ofList, hc, fun d hd => mem_takeWhile_imp hd⟩

theorem step?_mark_isSome {k : Kind}
    (hk : k ≠ .templateHead ∧ k ≠ .templateMiddle ∧ k ≠ .templateTail)
    (hbrace : k = .rbrace → n.templates.head? ≠ some n.braces) : ∃ n', n.step? k = some n' := by
  cases k with
  | rbrace => exact ⟨_, if_neg (hbrace rfl)⟩
  | templateMiddle => exact absurd rfl hk.2.1
  | templateTail => exact absurd rfl hk.2.2
  | _ => exact ⟨_, rfl⟩

theorem writes_ofMark (hc : c = '\x7d' → n.templates.head? ≠ some n.braces)
    (h : (ofMark n c cs).token = some s) :
    Writes (c :: cs.take (ofMark n c cs).extra) s ∧
      n.step? s.1 = some (ofMark n c cs).nesting := by
  unfold ofMark at h ⊢
  split at h
  · rename_i m k hfind
    cases h
    have hmem : (m, k) ∈ Kind.marks := mem_of_find?_eq_some hfind
    obtain ⟨rest, hrest⟩ : m <+: c :: cs :=
      isPrefixOf_iff_prefix.mp (by simpa using find?_some hfind)
    have hpos : 0 < m.length := length_pos_iff.mpr (mark_ne_nil hmem)
    have htext : c :: cs.take (m.length - 1) = m := by
      rw [← take_succ_cons, Nat.sub_add_cancel hpos, ← hrest, take_left' rfl]
    have hhead : c ∈ m.head? := by
      rw [← htext]
      rfl
    obtain ⟨-, -, -, -, -, -, -, hbrace⟩ := mark_start hmem c hhead
    refine ⟨by rw [htext]; exact .mark hmem, ?_⟩
    obtain ⟨n', hn'⟩ := step?_mark_isSome (n := n) (mark_kind hmem) fun hk => hc (hbrace.mpr hk)
    rw [hn']
    exact congrArg some (step?_mark (mark_kind hmem) hn').symm
  · cases h

/-- The ways to read what stands at the start of a text: layout, or one of the forms of a symbol. -/
theorem reading_cases (n : Nesting) (c : Char) (cs : List Char) :
    (isBlank c ∧ Reading.ofText n c cs = { nesting := n }) ∨
    (c = '/' ∧ cs.head? = some '/' ∧
      Reading.ofText n c cs = { extra := (cs.takeWhile (· != '\n')).length, nesting := n }) ∨
    (c = '/' ∧ cs.head? = some '*' ∧ Reading.ofText n c cs =
      { extra := (commentLength (cs.drop 1)).1 + 1,
        faults := if (commentLength (cs.drop 1)).2 then [] else [(0, .openComment)],
        nesting := n }) ∨
    ((c = '"' ∨ c = '\x27') ∧ Reading.ofText n c cs = ofString n c cs) ∨
    (c = '\x60' ∧ Reading.ofText n c cs = ofChunk n .templateWhole .templateHead cs) ∨
    ((isDigit c ∨ (c = '.' ∧ cs.head?.any isDigit)) ∧
      Reading.ofText n c cs = ofNumber n (c :: cs)) ∨
    (isWordStart c ∧ Reading.ofText n c cs = ofWord n c cs) ∨
    (c = '\x7d' ∧ n.templates.head? = some n.braces ∧ Reading.ofText n c cs =
      ofChunk { n with templates := n.templates.tail } .templateTail .templateMiddle cs) ∨
    ((c = '\x7d' → n.templates.head? ≠ some n.braces) ∧
      Reading.ofText n c cs = ofMark n c cs) := by
  unfold Reading.ofText
  split
  · rename_i h
    exact .inl ⟨h, rfl⟩
  refine .inr ?_
  split
  · rename_i h
    simp only [Bool.and_eq_true, beq_iff_eq] at h
    exact .inl ⟨h.1, h.2, rfl⟩
  refine .inr ?_
  split
  · rename_i h
    simp only [Bool.and_eq_true, beq_iff_eq] at h
    exact .inl ⟨h.1, h.2, rfl⟩
  refine .inr ?_
  split
  · rename_i h
    simp only [Bool.or_eq_true, beq_iff_eq] at h
    exact .inl ⟨h, rfl⟩
  refine .inr ?_
  split
  · rename_i h
    exact .inl ⟨beq_iff_eq.mp h, rfl⟩
  refine .inr ?_
  split
  · rename_i h
    simp only [Bool.or_eq_true, Bool.and_eq_true, beq_iff_eq] at h
    exact .inl ⟨h, rfl⟩
  refine .inr ?_
  split
  · rename_i h
    exact .inl ⟨h, rfl⟩
  refine .inr ?_
  split
  · rename_i h
    simp only [Bool.and_eq_true, beq_iff_eq] at h
    exact .inl ⟨h.1, h.2, rfl⟩
  · rename_i h
    simp only [Bool.and_eq_true, beq_iff_eq, not_and] at h
    exact .inr ⟨h, rfl⟩

/-- What is read at the start of a text without a fault is a way to write the symbol, and the symbol
can stand there. -/
theorem writes_of_reading (h : (Reading.ofText n c cs).token = some s)
    (hf : (Reading.ofText n c cs).faults = []) :
    Writes (c :: cs.take (Reading.ofText n c cs).extra) s ∧
      n.step? s.1 = some (Reading.ofText n c cs).nesting := by
  rcases reading_cases n c cs with ⟨-, hr⟩ | ⟨-, -, hr⟩ | ⟨-, -, hr⟩ | ⟨hc, hr⟩ | ⟨rfl, hr⟩ |
    ⟨hc, hr⟩ | ⟨hc, hr⟩ | ⟨rfl, hopen, hr⟩ | ⟨hc, hr⟩ <;> rw [hr] at h hf ⊢
  · cases h
  · cases h
  · cases h
  · exact writes_ofString hc h hf
  · obtain ⟨body, vs, e, hbody, hvs, htake, ⟨rfl, rfl, hn⟩ | ⟨rfl, rfl, hn⟩⟩ := writes_ofChunk h hf
    · rw [htake, hn]
      exact ⟨.whole hbody hvs, rfl⟩
    · rw [htake, hn]
      exact ⟨.head hbody hvs, rfl⟩
  · exact writes_ofNumber hc h hf
  · exact writes_ofWord hc h
  · obtain ⟨body, vs, e, hbody, hvs, htake, ⟨rfl, rfl, hn⟩ | ⟨rfl, rfl, hn⟩⟩ := writes_ofChunk h hf
    · rw [htake, hn]
      exact ⟨.tail hbody hvs, if_pos hopen⟩
    · rw [htake, hn]
      exact ⟨.middle hbody hvs, if_pos hopen⟩
  · exact writes_ofMark hc h

theorem Body.ofChunk_eq {whole part : Kind} {body : List Char} {vs : List Nat} (hb : Body InChunk body)
    (hv : StandsFor body vs) :
    ofChunk n whole part (body ++ ['\x60'] ++ ds) =
        { extra := (body ++ ['\x60']).length, token := some (whole, ⟨vs⟩),
          nesting := n } ∧
      ofChunk n whole part (body ++ ['$', '\x7b'] ++ ds) =
        { extra := (body ++ ['$', '\x7b']).length, token := some (part, ⟨vs⟩),
          nesting := { n with templates := n.braces :: n.templates } } := by
  have hclosing : chunkLength (['\x60'] ++ ds) = (0, .closing) := by simp [chunkLength.eq_def]
  have hopening : chunkLength (['$', '\x7b'] ++ ds) = (0, .substitution) := by simp [chunkLength]
  constructor
  · have hlength := @Body.chunkLength_append _ (['\x60'] ++ ds) hb (by simp)
    rw [append_assoc, ofChunk, hlength, hclosing]
    simp [hv.decode_eq, hv.flaws_eq]
  · have hlength := @Body.chunkLength_append _ (['$', '\x7b'] ++ ds) hb (by simp)
    rw [append_assoc, ofChunk, hlength, hopening]
    simp [hv.decode_eq, hv.flaws_eq]

theorem Body.ofString_eq {body : List Char} {vs : List Nat} (hq : quote = '"' ∨ quote = '\x27')
    (hb : Body (InString quote) body) (hv : StandsFor body vs) :
    Reading.ofText n quote (body ++ [quote] ++ ds) =
      { extra := (body ++ [quote]).length, token := some (.string, ⟨vs⟩),
        nesting := n } := by
  have hquote : quote ≠ '\\' := by rcases hq with rfl | rfl <;> decide
  have hread : Reading.ofText n quote (body ++ [quote] ++ ds) =
      ofString n quote (body ++ [quote] ++ ds) := by
    unfold Reading.ofText
    rcases hq with rfl | rfl <;>
      rw [if_neg (by decide), if_neg (by simp), if_neg (by simp), if_pos (by decide)]
  have hlength := @Body.stringLength_append _ _ ds hb hquote
  rw [hread, append_assoc, singleton_append, ofString, hlength]
  simp [hv.decode_eq, hv.flaws_eq]

/-- Every way to write a symbol is read as the symbol, if the symbol can stand there and the text
after it does not make it longer. -/
theorem Writes.reading (h : Writes cs s) (hn : n.step? s.1 = some n')
    (hd : ∀ c ∈ cs.getLast?, Apart c ds) :
    ∃ c later, cs = c :: later ∧ Reading.ofText n c (later ++ ds) =
      { extra := later.length, token := some s, nesting := n' } := by
  cases h with
  | word h =>
    rw [Symbol.step?_word (Kind.isWord_ofWord _)] at hn
    cases hn
    obtain ⟨x, hx, hpart⟩ := h.getLast_isWordPart
    rw [String.toList_ofList] at hx
    have hread := reading_word (n := n) h ((hd x hx).head_not_isWordPart hpart)
    rwa [String.toList_ofList] at hread
  | number h =>
    cases hn
    exact reading_number h hd
  | mark h => exact reading_mark h hn hd
  | string hq hb hv =>
    cases hn
    exact ⟨_, _, rfl, hb.ofString_eq hq hv⟩
  | whole hb hv =>
    cases hn
    exact ⟨_, _, rfl, ofText_tick.trans (hb.ofChunk_eq hv).1⟩
  | head hb hv =>
    cases hn
    exact ⟨_, _, rfl, ofText_tick.trans (hb.ofChunk_eq hv).2⟩
  | middle hb hv =>
    obtain ⟨hopen, hn⟩ := Option.ite_none_right_eq_some.mp hn
    cases hn
    exact ⟨_, _, rfl, (ofText_brace hopen).trans (hb.ofChunk_eq hv).2⟩
  | tail hb hv =>
    obtain ⟨hopen, hn⟩ := Option.ite_none_right_eq_some.mp hn
    cases hn
    exact ⟨_, _, rfl, (ofText_brace hopen).trans (hb.ofChunk_eq hv).1⟩

end Readings

end StepBinding.Token
