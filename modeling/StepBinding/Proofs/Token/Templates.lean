import StepBinding.Proofs.Token.Layout
import StepBinding.Proofs.Token.Spells

/-! Literals are read back as they were printed. A text that stands alone is read in the same way
inside of a template, where a closing brace follows it: the brace makes no symbol longer, and the
depth of braces and templates around the text only shifts what is counted inside. So a template that
is put together from chunks and substitutions gives the chunks back, with the symbols of the
substitutions between them. -/

namespace StepBinding.Token

open List Text.CharClass

variable {d length : Nat} {whole part k : Kind} {text : String}

section Before

open Reading

variable {n m m' : Nesting} {c : Char} {cs ds : List Char} {s : Symbol}

theorem takeWhile_before {p : Char → Bool} {d : Char} (hd : p d = false) (cs ds : List Char) :
    (cs ++ d :: ds).takeWhile p = cs.takeWhile p := by
  induction cs with
  | nil => simp [hd]
  | cons c cs ih => by_cases hc : p c = true <;> simp [hc, ih]

theorem digitsLength_before (cs ds : List Char) :
    digitsLength (cs ++ '\x7d' :: ds) = digitsLength cs := by
  rw [digitsLength, takeWhile_before (by decide)]
  rfl

theorem fractionLength_before (cs ds : List Char) :
    fractionLength (cs ++ '\x7d' :: ds) = fractionLength cs := by
  cases cs with
  | nil => rfl
  | cons c cs => simp only [cons_append, fractionLength, digitsLength_before]

theorem exponentLength_before (cs ds : List Char) :
    exponentLength (cs ++ '\x7d' :: ds) = exponentLength cs := by
  have hzero : digitsLength ('\x7d' :: ds) = 0 := digitsLength_before [] ds
  match cs with
  | [] => rfl
  | [c] =>
    have hnone : digitsLength [] = 0 := rfl
    simp [exponentLength, hzero, hnone]
  | c :: d :: cs =>
    have hmore := digitsLength_before (d :: cs) ds
    simp only [cons_append] at hmore
    simp only [cons_append, exponentLength, digitsLength_before, hmore]

theorem digitsLength_le (cs : List Char) : digitsLength cs ≤ cs.length :=
  (List.takeWhile_prefix _).length_le

theorem fractionLength_le (cs : List Char) : fractionLength cs ≤ cs.length := by
  cases cs with
  | nil => exact .refl
  | cons c cs =>
    have := digitsLength_le cs
    simp only [fractionLength, length_cons]
    split <;> omega

theorem exponentLength_le (cs : List Char) : exponentLength cs ≤ cs.length := by
  match cs with
  | [] => exact .refl
  | [c] => simp [exponentLength, digitsLength]
  | c :: d :: cs =>
    have h := digitsLength_le cs
    have h' := digitsLength_le (d :: cs)
    simp only [length_cons] at h'
    simp only [exponentLength, length_cons]
    split
    · split
      · omega
      · split <;> omega
    · omega

theorem decimalLength_before (cs ds : List Char) :
    decimalLength (cs ++ '\x7d' :: ds) = decimalLength cs := by
  have hwhole := digitsLength_le cs
  have hfraction := fractionLength_le (cs.drop (digitsLength cs))
  rw [length_drop] at hfraction
  unfold decimalLength
  dsimp only
  rw [digitsLength_before, drop_append_of_le_length hwhole, fractionLength_before,
    drop_append_of_le_length (by omega), exponentLength_before]

theorem decimalLength_le (cs : List Char) : decimalLength cs ≤ cs.length := by
  have hwhole := digitsLength_le cs
  have hfraction := fractionLength_le (cs.drop (digitsLength cs))
  have hexponent := exponentLength_le
    (cs.drop (digitsLength cs + fractionLength (cs.drop (digitsLength cs))))
  rw [length_drop] at hfraction hexponent
  unfold decimalLength
  dsimp only
  omega

theorem hexLength?_before (cs ds : List Char) :
    hexLength? (c :: (cs ++ '\x7d' :: ds)) = hexLength? (c :: cs) := by
  cases cs with
  | nil => simp [hexLength?]
  | cons x cs =>
    have hdigits := takeWhile_before (p := isHexDigit) (d := '\x7d') (by decide) cs ds
    simp only [cons_append, hexLength?, hdigits]

theorem hexLength?_le {digits : Nat} (h : hexLength? cs = some digits) :
    digits + 2 ≤ cs.length := by
  unfold hexLength? at h
  split at h
  · rename_i c x cs
    split at h
    · cases h
      have := (List.takeWhile_prefix isHexDigit (l := cs)).length_le
      simp only [length_cons]
      omega
    · cases h
  · cases h

theorem ofNumber_before (c : Char) (cs ds : List Char) :
    ofNumber m (c :: (cs ++ '\x7d' :: ds)) = { ofNumber n (c :: cs) with nesting := m } := by
  have hlong := decimalLength_before (c :: cs) ds
  have hle := decimalLength_le (c :: cs)
  unfold ofNumber
  rw [hexLength?_before]
  cases hhex : hexLength? (c :: cs) with
  | some digits =>
    have hdigits := hexLength?_le hhex
    simp only [← cons_append, take_append_of_le_length hdigits]
  | none =>
    have hhead (rest : List Char) :
        (rest ++ '\x7d' :: ds).head?.any isWordStart = rest.head?.any isWordStart := by
      cases rest with
      | nil => exact show isWordStart '\x7d' = false by decide
      | cons d rest => rfl
    simp only [← cons_append, hlong, take_append_of_le_length hle,
      drop_append_of_le_length hle, hhead]

theorem stringLength_lt {quote : Char} (h : stringLength quote cs = (length, true)) :
    length < cs.length := by
  obtain ⟨-, rest, hrest⟩ := body_of_stringLength h
  have hlength := congrArg List.length hrest
  simp only [length_append, length_take, length_cons] at hlength
  omega

theorem chunkLength_le {e : ChunkEnd} (h : chunkLength cs = (length, e)) (he : e ≠ .missing) :
    length + (ChunkEnd.mark e).length ≤ cs.length := by
  obtain ⟨-, rest, hrest⟩ := body_of_chunkLength h he
  have hmark : 0 < (ChunkEnd.mark e).length := by
    cases e with
    | missing => exact absurd rfl he
    | _ => exact Nat.succ_pos _
  have hlength := congrArg List.length hrest
  simp only [length_append, length_take] at hlength
  omega

theorem ofString_before {quote : Char} (hq : quote ≠ '\\')
    (h : (ofString n quote cs).token = some s) (ds : List Char) :
    ofString m quote (cs ++ ds) = { ofString n quote cs with nesting := m } ∧ s.1 = .string := by
  unfold ofString at h ⊢
  dsimp only at h ⊢
  generalize hlength : stringLength quote cs = string at h ⊢
  obtain ⟨length, closed⟩ := string
  cases closed with
  | false => cases h
  | true =>
    obtain ⟨hbody, rest, hrest⟩ := body_of_stringLength hlength
    have hle : length ≤ cs.length := Nat.le_of_lt (stringLength_lt hlength)
    have hlong : stringLength quote (cs ++ ds) = (length, true) := by
      have happend := @Body.stringLength_append _ _ (rest ++ ds) hbody hq
      rwa [← cons_append, ← append_assoc, ← hrest, length_take, Nat.min_eq_left hle] at happend
    cases h
    simp only [hlong, if_true, take_append_of_le_length hle, and_self]

/-- A chunk that is read is read in the same way whatever follows it. -/
theorem ofChunk_before (h : (ofChunk n whole part cs).token = some s) (ds : List Char) :
    ∃ n', ofChunk m whole part (cs ++ ds) = { ofChunk n whole part cs with nesting := n' } ∧
      (s.1 = whole ∧ n' = m ∨ s.1 = part ∧ n' = { m with templates := m.braces :: m.templates }) := by
  unfold ofChunk at h ⊢
  dsimp only at h ⊢
  generalize hlength : chunkLength cs = chunk at h ⊢
  obtain ⟨length, e⟩ := chunk
  have hmissing : e ≠ .missing := by
    rintro rfl
    cases h
  obtain ⟨hbody, rest, hrest⟩ := body_of_chunkLength hlength hmissing
  have hle : length ≤ cs.length := Nat.le_of_add_right_le (chunkLength_le hlength hmissing)
  have hend (ds : List Char) : chunkLength (ChunkEnd.mark e ++ ds) = (0, e) := by
    cases e with
    | missing => exact absurd rfl hmissing
    | closing => simp [ChunkEnd.mark, chunkLength.eq_def]
    | substitution => simp [ChunkEnd.mark, chunkLength]
  have hlong : chunkLength (cs ++ ds) = (length, e) := by
    have happend := @Body.chunkLength_append _ (ChunkEnd.mark e ++ (rest ++ ds)) hbody (by
      cases e with
      | missing => exact absurd rfl hmissing
      | _ => simp [ChunkEnd.mark])
    rw [← append_assoc (ChunkEnd.mark e), ← append_assoc, ← hrest] at happend
    rw [happend, append_assoc, hend, length_take, Nat.min_eq_left hle, Nat.add_zero]
  rw [hlong, take_append_of_le_length hle]
  cases e with
  | missing => exact absurd rfl hmissing
  | closing =>
    cases h
    exact ⟨m, rfl, .inl ⟨rfl, rfl⟩⟩
  | substitution =>
    cases h
    exact ⟨_, rfl, .inr ⟨rfl, rfl⟩⟩

theorem ofWord_before (c : Char) (cs ds : List Char) :
    ofWord m c (cs ++ '\x7d' :: ds) = { ofWord n c cs with nesting := m } := by
  unfold ofWord
  rw [takeWhile_before (by decide)]

/-- No mark goes on with a closing brace. -/
theorem mark_prefix_before {mark : List Char × Kind} (h : mark ∈ Kind.marks) (c : Char)
    (cs ds : List Char) :
    mark.1.isPrefixOf (c :: (cs ++ '\x7d' :: ds)) = mark.1.isPrefixOf (c :: cs) := by
  have hall : ∀ a ∈ Kind.marks, '\x7d' ∉ a.1.tail := by decide
  have htail := hall mark h
  rw [Bool.eq_iff_iff, isPrefixOf_iff_prefix, isPrefixOf_iff_prefix]
  refine ⟨fun hprefix => ?_, fun hprefix => hprefix.trans ?_⟩
  · rcases prefix_or_prefix_of_prefix hprefix
      (show c :: cs <+: c :: (cs ++ '\x7d' :: ds) from ⟨'\x7d' :: ds, rfl⟩) with hshort | ⟨more, hmore⟩
    · exact hshort
    · -- the mark covers the whole text, so the brace would be inside of it
      cases more with
      | nil => exact ⟨[], by simpa using hmore.symm⟩
      | cons d more =>
        rw [← hmore] at hprefix htail
        have hbrace : d = '\x7d' := by
          obtain ⟨rest, hrest⟩ := hprefix
          simp only [append_assoc, cons_append, List.cons.injEq, true_and,
            append_cancel_left_eq] at hrest
          exact hrest.1
        simp [hbrace] at htail
  · exact ⟨'\x7d' :: ds, rfl⟩

theorem ofMark_before (h : (ofMark n c cs).token = some s) (hm : m.step? s.1 = some m')
    (ds : List Char) : ofMark m c (cs ++ '\x7d' :: ds) = { ofMark n c cs with nesting := m' } := by
  have hfind : (Kind.marks.find? fun mark => mark.1.isPrefixOf (c :: (cs ++ '\x7d' :: ds))) =
      Kind.marks.find? fun mark => mark.1.isPrefixOf (c :: cs) := by
    rw [← head?_filter, ← head?_filter,
      filter_congr fun mark hmark => mark_prefix_before hmark c cs ds]
  unfold ofMark at h ⊢
  rw [hfind]
  split at h
  · rename_i mark kind hmark
    cases h
    exact congrArg (Reading.mk _ _ _)
      (step?_mark (mark_kind (mem_of_find?_eq_some hmark)) hm)
  · cases h

/-- What is read as a symbol is read in the same way in another nesting that takes the symbol, also
where a closing brace follows the text. -/
theorem reading_before (h : (Reading.ofText n c cs).token = some s) (hm : m.step? s.1 = some m')
    (ds : List Char) :
    Reading.ofText m c (cs ++ '\x7d' :: ds) = { Reading.ofText n c cs with nesting := m' } := by
  have hhead {d : Char} (hd : '\x7d' ≠ d) :
      ((cs ++ '\x7d' :: ds).head? == some d) = (cs.head? == some d) := by
    cases cs with
    | nil => simpa using hd
    | cons x cs => rfl
  have hdigit : (cs ++ '\x7d' :: ds).head?.any isDigit = cs.head?.any isDigit := by
    cases cs with
    | nil => exact show isDigit '\x7d' = false by decide
    | cons x cs => rfl
  unfold Reading.ofText at h ⊢
  rw [hhead (d := '/') (by decide), hhead (d := '*') (by decide), hdigit]
  -- layout is no symbol; which form a symbol has is told by the same characters in both texts
  split at h
  · cases h
  rename_i hblank
  rw [if_neg hblank, if_neg hblank]
  split at h
  · cases h
  rename_i hline
  rw [if_neg hline, if_neg hline]
  split at h
  · cases h
  rename_i hblock
  rw [if_neg hblock, if_neg hblock]
  split at h
  · rename_i hquote
    rw [if_pos hquote, if_pos hquote]
    have hq : c ≠ '\\' := by
      rintro rfl
      revert hquote
      decide
    obtain ⟨hsame, hkind⟩ := ofString_before (m := m) hq h ('\x7d' :: ds)
    rw [hkind] at hm
    obtain rfl : m = m' := Option.some.inj hm
    exact hsame
  rename_i hquote
  rw [if_neg hquote, if_neg hquote]
  split at h
  · rename_i htick
    rw [if_pos htick, if_pos htick]
    obtain ⟨n', hsame, ⟨hkind, rfl⟩ | ⟨hkind, rfl⟩⟩ := ofChunk_before h ('\x7d' :: ds) <;>
      rw [hkind] at hm <;> rw [hsame] <;> exact congrArg (Reading.mk _ _ _) (Option.some.inj hm)
  rename_i htick
  rw [if_neg htick, if_neg htick]
  split at h
  · rename_i hnumber
    rw [if_pos hnumber, if_pos hnumber]
    have hkind : s.1 = .number := by
      unfold ofNumber at h
      split at h <;> cases h <;> rfl
    rw [hkind] at hm
    cases hm
    exact ofNumber_before c cs ds
  rename_i hnumber
  rw [if_neg hnumber, if_neg hnumber]
  split at h
  · rename_i hword
    rw [if_pos hword, if_pos hword]
    cases h
    rw [Symbol.step?_word (Kind.isWord_ofWord _)] at hm
    cases hm
    exact ofWord_before c cs ds
  rename_i hword
  rw [if_neg hword, if_neg hword]
  split at h
  · -- the symbol goes on with a template, so the other nesting has one open as well
    rename_i hbrace
    rw [if_pos hbrace]
    simp only [Bool.and_eq_true, beq_iff_eq] at hbrace
    obtain ⟨n', hsame, hkind⟩ :=
      ofChunk_before (m := { m with templates := m.templates.tail }) h ('\x7d' :: ds)
    have hopen : m.templates.head? = some m.braces ∧ n' = m' := by
      rcases hkind with ⟨hkind, rfl⟩ | ⟨hkind, rfl⟩ <;> rw [hkind] at hm <;> exact Nesting.of_guard hm
    rw [if_pos (by simp [hbrace.1, hopen.1]), hsame, hopen.2]
  · rename_i hbrace
    rw [if_neg hbrace, ← ofMark_before h hm ds, if_neg]
    -- a closing brace that is a symbol of its own closes no substitution
    intro hclose
    simp only [Bool.and_eq_true, beq_iff_eq] at hclose
    obtain ⟨rfl, hopen⟩ := hclose
    have hmark : (ofMark n '\x7d' cs).token = some (.rbrace, .ofChars ['\x7d']) := rfl
    rw [hmark] at h
    cases h
    rw [Nesting.step?, if_pos hopen] at hm
    cases hm

theorem ofChunk_extra_le (h : (ofChunk n whole part cs).token = some s) :
    (ofChunk n whole part cs).extra ≤ cs.length := by
  unfold ofChunk at h ⊢
  dsimp only at h ⊢
  generalize hlength : chunkLength cs = chunk at h ⊢
  obtain ⟨length, e⟩ := chunk
  cases e with
  | missing => cases h
  | closing => exact chunkLength_le hlength nofun
  | substitution => exact chunkLength_le hlength nofun

theorem extra_le (h : (Reading.ofText n c cs).token = some s) :
    (Reading.ofText n c cs).extra ≤ cs.length := by
  rcases reading_cases n c cs with ⟨-, hr⟩ | ⟨-, -, hr⟩ | ⟨-, -, hr⟩ | ⟨-, hr⟩ | ⟨-, hr⟩ |
    ⟨-, hr⟩ | ⟨-, hr⟩ | ⟨-, -, hr⟩ | ⟨-, hr⟩ <;> rw [hr] at h ⊢
  · cases h
  · cases h
  · cases h
  · unfold ofString at h ⊢
    dsimp only at h ⊢
    generalize hlength : stringLength c cs = string at h ⊢
    obtain ⟨length, closed⟩ := string
    cases closed with
    | false => cases h
    | true => exact stringLength_lt hlength
  · exact ofChunk_extra_le h
  · unfold ofNumber
    cases hhex : hexLength? (c :: cs) with
    | some digits => exact Nat.le_of_succ_le_succ (hexLength?_le hhex)
    | none => exact Nat.sub_le_of_le_add (decimalLength_le (c :: cs))
  · exact (List.takeWhile_prefix _).length_le
  · exact ofChunk_extra_le h
  · unfold ofMark at h ⊢
    split at h
    · rename_i mark kind hmark
      have hprefix : mark <+: c :: cs :=
        isPrefixOf_iff_prefix.mp (by simpa using find?_some hmark)
      exact Nat.sub_le_of_le_add hprefix.length_le
    · cases h

end Before

/-- A comment, which starts with two characters that no symbol starts with. -/
def Lexeme.isComment (l : Lexeme) : Bool :=
  ['/', '/'].isPrefixOf l.text || ['/', '*'].isPrefixOf l.text

section Moved

variable {n m m' base : Nesting} {c : Char} {cs : List Char} {ks : List Kind}

/-- Layout that is no comment is a blank. -/
theorem isBlank_of_reading (h : (Reading.ofText n c cs).token = none)
    (hf : (Reading.ofText n c cs).faults = [])
    (hc : Lexeme.isComment { text := c :: cs.take (Reading.ofText n c cs).extra } = false) :
    isBlank c := by
  rcases reading_cases n c cs with ⟨hblank, -⟩ | ⟨rfl, hslash, hr⟩ | ⟨rfl, hstar, hr⟩ | ⟨-, hr⟩ |
    ⟨-, hr⟩ | ⟨-, hr⟩ | ⟨-, hr⟩ | ⟨-, -, hr⟩ | ⟨-, hr⟩
  · exact hblank
  · obtain ⟨rest, rfl⟩ := head?_eq_some_iff.mp hslash
    rw [hr] at hc
    simp [Lexeme.isComment] at hc
  · obtain ⟨rest, rfl⟩ := head?_eq_some_iff.mp hstar
    rw [hr] at hc
    simp [Lexeme.isComment] at hc
  · exact absurd (hr ▸ hf) (ofString_faults (hr ▸ h))
  · exact absurd (hr ▸ hf) (ofChunk_faults (hr ▸ h))
  · rw [hr] at h
    unfold Reading.ofNumber at h
    split at h <;> cases h
  · rw [hr] at h
    cases h
  · exact absurd (hr ▸ hf) (ofChunk_faults (hr ▸ h))
  · exact absurd (hr ▸ hf) (ofMark_faults (hr ▸ h))

/-- The kinds of the tokens of a text without faults can stand there. -/
theorem after?_lexemes (hf : ∀ l ∈ (Lexeme.ofText n cs).1, l.faults = []) :
    n.after? (((Lexeme.ofText n cs).1.filterMap Lexeme.token).map Prod.fst) =
      some (Lexeme.ofText n cs).2 := by
  fun_induction Lexeme.ofText n cs with
  | case1 n => rfl
  | case2 n c cs r later final hlater ih =>
    obtain ⟨hfaults, hf⟩ := forall_mem_cons.mp hf
    rw [hlater] at ih
    cases htoken : r.token with
    | none =>
      rw [filterMap_cons_none (by rfl), ← ih hf]
      exact congrArg (Nesting.after? · _) (Reading.layout_cases htoken hfaults).1.symm
    | some s =>
      rw [filterMap_cons_some (by rfl), map_cons, Nesting.after?,
        (writes_of_reading htoken hfaults).2]
      exact ih hf

/-- A text without comments is read in the same way in another nesting that takes its tokens, with a
closing brace behind it. -/
theorem lexemes_before (hf : ∀ l ∈ (Lexeme.ofText n cs).1, l.faults = [])
    (hc : ∀ l ∈ (Lexeme.ofText n cs).1, l.isComment = false)
    (hm : m.after? (((Lexeme.ofText n cs).1.filterMap Lexeme.token).map Prod.fst) = some m')
    (ds : List Char) :
    Lexeme.ofText m (cs ++ '\x7d' :: ds) =
      ((Lexeme.ofText n cs).1 ++ (Lexeme.ofText m' ('\x7d' :: ds)).1,
        (Lexeme.ofText m' ('\x7d' :: ds)).2) := by
  revert m
  fun_induction Lexeme.ofText n cs with
  | case1 n =>
    intro m hm
    obtain rfl : m = m' := Option.some.inj hm
    rfl
  | case2 n c cs r later final hlater ih =>
    intro m hm
    obtain ⟨hfaults, hf⟩ := forall_mem_cons.mp hf
    obtain ⟨hcomment, hc⟩ := forall_mem_cons.mp hc
    rw [hlater] at ih
    cases htoken : r.token with
    | none =>
      have hblank := isBlank_of_reading htoken hfaults hcomment
      have hr : r = { nesting := n } := reading_blank hblank
      rw [filterMap_cons_none (by exact htoken)] at hm
      rw [cons_append, Lexeme.ofText_cons (reading_blank hblank)]
      have hrest := ih hf hc hm
      simp only [hr, drop_zero] at hrest
      simp only [hr, drop_zero, hrest, take_zero, cons_append]
    | some s =>
      rw [filterMap_cons_some (by exact htoken), map_cons, Nesting.after?,
        Option.bind_eq_some_iff] at hm
      obtain ⟨m1, hstep, hm⟩ := hm
      have hle : r.extra ≤ cs.length := extra_le htoken
      rw [cons_append, Lexeme.ofText_cons (reading_before htoken hstep ds)]
      have hrest := ih hf hc hm
      rw [← drop_append_of_le_length hle] at hrest
      simp only [show Reading.ofText n c cs = r from rfl, htoken, hrest,
        cons_append, take_append_of_le_length hle]

/-- A nesting inside of another one, where it is counted from the depth of the other. -/
def Nesting.inside (base n : Nesting) : Nesting where
  braces := base.braces + n.braces
  templates := n.templates.map (base.braces + ·) ++ base.templates

/-- The depth of braces after symbols of some kinds, if each closing brace has its opening one. -/
def braceDepth : Nat → List Kind → Option Nat
  | d, [] => some d
  | d, .lbrace :: ks => braceDepth (d + 1) ks
  | 0, .rbrace :: _ => none
  | d + 1, .rbrace :: ks => braceDepth d ks
  | d, _ :: ks => braceDepth d ks

/-- A symbol that closes no brace of the surroundings is counted inside of a substitution as it is
counted alone. -/
theorem step?_inside {n' : Nesting} (hbase : base.templates.head? = some base.braces)
    (hk : k = .rbrace → 0 < n.braces) (h : n.step? k = some n') :
    (base.inside n).step? k = some (base.inside n') := by
  have hhead : n.templates.head? = some n.braces →
      (base.inside n).templates.head? = some (base.inside n).braces := by
    intro hopen
    obtain ⟨later, hlater⟩ := head?_eq_some_iff.mp hopen
    simp [Nesting.inside, hlater]
  have htail (d : Nat) : n.templates.head? = some d → (base.inside n).templates.tail =
      n.templates.tail.map (base.braces + ·) ++ base.templates := by
    intro hopen
    obtain ⟨later, hlater⟩ := head?_eq_some_iff.mp hopen
    simp [Nesting.inside, hlater]
  cases k with
  | lbrace =>
    cases h
    rfl
  | rbrace =>
    have hpos := hk rfl
    obtain ⟨hopen, rfl⟩ := Nesting.of_rbrace h
    have hstill : (base.inside n).templates.head? ≠ some (base.inside n).braces := by
      cases htemplates : n.templates with
      | nil =>
        simp only [Nesting.inside, htemplates, map_nil, nil_append, hbase]
        intro hsame
        have := Option.some.inj hsame
        omega
      | cons d later =>
        simp only [htemplates, head?_cons] at hopen
        simpa [Nesting.inside, htemplates] using hopen
    rw [Nesting.step?, if_neg hstill]
    simp only [Nesting.inside, Option.some.injEq, Nesting.mk.injEq, and_true]
    omega
  | templateHead =>
    cases h
    rfl
  | templateMiddle | templateTail =>
    obtain ⟨hopen, rfl⟩ := Nesting.of_guard h
    rw [Nesting.step?, if_pos (hhead hopen), htail _ hopen]
    rfl
  | _ =>
    cases h
    rfl

/-- The depth of braces follows the nesting. -/
theorem braceDepth_step {n' : Nesting} (h : n.step? k = some n')
    (hd : braceDepth n.braces (k :: ks) = some d) :
    braceDepth n'.braces ks = some d ∧ (k = .rbrace → 0 < n.braces) := by
  cases k with
  | lbrace =>
    cases h
    exact ⟨hd, nofun⟩
  | rbrace =>
    obtain ⟨-, rfl⟩ := Nesting.of_rbrace h
    cases hn : n.braces with
    | zero =>
      rw [hn] at hd
      cases hd
    | succ b =>
      rw [hn] at hd
      exact ⟨by simpa [hn, braceDepth] using hd, fun _ => Nat.succ_pos b⟩
  | templateMiddle | templateTail =>
    obtain ⟨-, rfl⟩ := Nesting.of_guard h
    exact ⟨by cases hn : n.braces <;> simpa [hn, braceDepth] using hd, nofun⟩
  | _ =>
    cases h
    exact ⟨by cases hn : n.braces <;> simpa [hn, braceDepth] using hd, nofun⟩

/-- Symbols that close no brace of the surroundings are counted inside of a substitution as they are
counted alone. -/
theorem after?_inside {n' : Nesting} (hbase : base.templates.head? = some base.braces)
    (h : n.after? ks = some n') (hd : braceDepth n.braces ks = some d) :
    (base.inside n).after? ks = some (base.inside n') ∧ n'.braces = d := by
  induction ks generalizing n with
  | nil =>
    cases h
    cases hd
    exact ⟨rfl, rfl⟩
  | cons k ks ih =>
    rw [Nesting.after?, Option.bind_eq_some_iff] at h
    obtain ⟨n1, hstep, h⟩ := h
    obtain ⟨hd, hk⟩ := braceDepth_step hstep hd
    rw [Nesting.after?, step?_inside hbase hk hstep]
    exact ih h hd

end Moved

/-- The symbols of a text that stands alone. -/
def symbolsOf (text : String) : List Symbol :=
  (Lexeme.ofText {} text.toList).1.filterMap Lexeme.token

theorem map_symbol_ofText {file : String} {tokens : List Token}
    (h : Stream.ofText file text = .ok tokens) :
    tokens.map symbol = symbolsOf text ++ [((.endMark, "") : Symbol)] := by
  obtain ⟨-, -, rfl⟩ := ofText_ok h
  rw [map_append, Stream.map_symbol_place]
  rfl

/-- A text that can stand in a substitution: it has a token stream of its own, without comments,
and each brace of it has its partner in it. -/
structure Standalone (text : String) : Prop where
  lexes : ∃ file tokens, Stream.ofText file text = .ok tokens
  bare : ∀ l ∈ (Lexeme.ofText {} text.toList).1, l.isComment = false
  level : braceDepth 0 ((symbolsOf text).map Prod.fst) = some 0

theorem Standalone.faults (h : Standalone text) :
    ∀ l ∈ (Lexeme.ofText {} text.toList).1, l.faults = [] := by
  obtain ⟨file, tokens, hok⟩ := h.lexes
  exact (ofText_ok hok).1

/-- A substitution is read up to its closing brace as it is read alone. -/
theorem Standalone.lexemes {base : Nesting} (h : Standalone text)
    (hbase : base.templates.head? = some base.braces) (ds : List Char) :
    Lexeme.ofText base (text.toList ++ '\x7d' :: ds) =
      ((Lexeme.ofText {} text.toList).1 ++ (Lexeme.ofText base ('\x7d' :: ds)).1,
        (Lexeme.ofText base ('\x7d' :: ds)).2) := by
  obtain ⟨file, tokens, hok⟩ := h.lexes
  obtain ⟨-, hopen, -⟩ := ofText_ok hok
  obtain ⟨hafter, hdepth⟩ := after?_inside hbase (after?_lexemes h.faults) h.level
  have hfinal : (Lexeme.ofText {} text.toList).2 = {} := by
    cases hnesting : (Lexeme.ofText {} text.toList).2 with
    | mk braces templates =>
      rw [hnesting] at hdepth hopen
      simp_all
  have hsame : base.inside {} = base := by simp [Nesting.inside]
  rw [hfinal, hsame] at hafter
  exact lexemes_before h.faults h.bare hafter ds

section Chunks

open Tree.Print Reading

variable {n : Nesting}

theorem head?_templateChars (cs : List Char) (h : (templateChars cs).head? = some '\x7b') :
    cs.head? = some '\x7b' := by
  cases cs with
  | nil => cases h
  | cons c cs =>
    unfold templateChars at h
    split at h
    · cases h
    · split at h
      · cases h
      · exact h

/-- An escaped chunk stays in its template and stands for the chunk. -/
theorem templateChars_written (cs : List Char) :
    Body InChunk (templateChars cs) ∧ StandsFor (templateChars cs) (cs.map Char.toNat) := by
  fun_induction templateChars cs with
  | case1 => exact ⟨.nil, .nil⟩
  | case2 c cs hc ih =>
    simp only [Bool.or_eq_true, beq_iff_eq] at hc
    rcases hc with rfl | rfl <;> exact ⟨.pair ih.1, .short (by decide) ih.2⟩
  | case3 c cs hc hdollar ih =>
    simp only [Bool.and_eq_true, beq_iff_eq] at hdollar
    obtain ⟨rfl, -⟩ := hdollar
    exact ⟨.pair ih.1, .short (by decide) ih.2⟩
  | case4 c cs hc hdollar ih =>
    simp only [Bool.or_eq_true, Bool.and_eq_true, beq_iff_eq, not_or, not_and] at hc hdollar
    have hchunk : InChunk c (templateChars cs) :=
      ⟨hc.2, fun ⟨hc, hbrace⟩ => hdollar hc (head?_templateChars cs hbrace)⟩
    exact ⟨.plain hc.1 hchunk ih.1, .plain hc.1 ih.2⟩

/-- The symbols of a template from the chunk `q` on, each substitution with the chunk behind it. The
chunk is of the kind `whole` if it ends the template. -/
def chunkSymbols (whole part : Kind) (q : String) : List (Tree.Print.Piece × String) → List Symbol
  | [] => [(whole, q)]
  | (x, q') :: ps =>
    (part, q) :: (symbolsOf x.1 ++ chunkSymbols .templateTail .templateMiddle q' ps)

/-- The text is read as the symbols, whatever follows it: its lexemes make up the text and have no
faults, the last of them is the last symbol, and what follows is read in the nesting `n'`. -/
def ReadsTo (n n' : Nesting) (text : List Char) (ss : List Symbol) : Prop :=
  ∀ rest, ∃ ls, Lexeme.ofText n (text ++ rest) =
      (ls ++ (Lexeme.ofText n' rest).1, (Lexeme.ofText n' rest).2) ∧
    ls.flatMap Lexeme.text = text ∧ ls.filterMap Lexeme.token = ss ∧
    (∀ l ∈ ls, l.faults = []) ∧ ls.getLast?.bind Lexeme.token = ss.getLast?

theorem flatMap_text_of_append {n n' : Nesting} {text rest : List Char} {ls : List Lexeme}
    (h : Lexeme.ofText n (text ++ rest) =
      (ls ++ (Lexeme.ofText n' rest).1, (Lexeme.ofText n' rest).2)) :
    ls.flatMap Lexeme.text = text := by
  have hall := Lexeme.text_ofText n (text ++ rest)
  rw [h, flatMap_append, Lexeme.text_ofText] at hall
  exact append_cancel_right hall

theorem toList_templateBody_nil (q : String) :
    (templateBody [q] []).toList = templateChars q.toList := by
  simp [templateBody]

theorem toList_templateBody_cons (q : String) (qs : List String) (x : Tree.Print.Piece)
    (xs : List Tree.Print.Piece) :
    (templateBody (q :: qs) (x :: xs)).toList = templateChars q.toList ++ ['$', '\x7b'] ++
      (x.1.toList ++ '\x7d' :: (templateBody qs xs).toList) := by
  simp [templateBody]

theorem chunkSymbols_ne_nil (whole part : Kind) (q : String)
    (ps : List (Tree.Print.Piece × String)) : chunkSymbols whole part q ps ≠ [] := by
  cases ps <;> exact nofun

theorem getLast?_cons_append {α : Type} {x y : α} {xs ys : List α} (h : ys.getLast? = some y) :
    (x :: (xs ++ ys)).getLast? = some y := by
  rw [← cons_append, getLast?_append, h]
  rfl

/-- A template is read from one of its chunks on, where the character in front of the chunk is read
as the start of a chunk. -/
theorem readsTo_chunks {n0 : Nesting} {c : Char} {whole part : Kind}
    (hread : ∀ cs, Reading.ofText n0 c cs = ofChunk n whole part cs) (q : String)
    (ps : List (Tree.Print.Piece × String)) (hps : ∀ p ∈ ps, Standalone p.1.1) :
    ReadsTo n0 n
      (c :: ((templateBody (q :: ps.map Prod.snd) (ps.map Prod.fst)).toList ++ ['\x60']))
      (chunkSymbols whole part q ps) := by
  intro rest
  obtain ⟨hbody, hvalue⟩ := templateChars_written q.toList
  induction ps generalizing n0 c whole part q with
  | nil =>
    have hchunk := (hread _).trans (@Body.ofChunk_eq _ rest _ _ _ _ hbody hvalue).1
    rw [map_nil, map_nil, toList_templateBody_nil, cons_append,
      Lexeme.ofText_cons hchunk, drop_left' rfl, take_left' rfl]
    exact ⟨[_], rfl, by simp, rfl, by simp, rfl⟩
  | cons p ps ih =>
    obtain ⟨x, q'⟩ := p
    obtain ⟨hx, hps⟩ := forall_mem_cons.mp hps
    -- the substitution is read in the nesting behind the chunk, and its brace opens the next chunk
    let inner : Nesting := { n with templates := n.braces :: n.templates }
    obtain ⟨ls, hreads, htext, htokens, hfaults, hlast⟩ := @ih inner _ _ _ (fun cs => ofText_brace rfl)
      q' hps (templateChars_written q'.toList).1 (templateChars_written q'.toList).2
    have hchunk := (hread _).trans (@Body.ofChunk_eq _ (x.1.toList ++ '\x7d' ::
      ((templateBody (q' :: ps.map Prod.snd) (ps.map Prod.fst)).toList ++ '\x60' :: rest)) _ _ _ _ hbody
      hvalue).2
    have hwhole : Lexeme.ofText n0
        (c :: ((templateBody (q :: ((x, q') :: ps).map Prod.snd) (((x, q') :: ps).map Prod.fst)).toList
          ++ ['\x60']) ++ rest) =
        (⟨c :: (templateChars q.toList ++ ['$', '\x7b']), some (part, q), []⟩ ::
          ((Lexeme.ofText {} x.1.toList).1 ++ ls) ++ (Lexeme.ofText n rest).1,
          (Lexeme.ofText n rest).2) := by
      rw [cons_append, append_assoc, singleton_append] at hreads
      have hsplit : c :: ((templateBody (q :: ((x, q') :: ps).map Prod.snd)
          (((x, q') :: ps).map Prod.fst)).toList ++ ['\x60']) ++ rest =
          c :: (templateChars q.toList ++ ['$', '\x7b'] ++ (x.1.toList ++ '\x7d' ::
            ((templateBody (q' :: ps.map Prod.snd) (ps.map Prod.fst)).toList ++
              '\x60' :: rest))) := by
        simp [toList_templateBody_cons]
      rw [hsplit, Lexeme.ofText_cons hchunk, drop_left' rfl, take_left' rfl,
        hx.lexemes rfl, hreads, cons_append, append_assoc]
      rfl
    refine ⟨_, hwhole, flatMap_text_of_append hwhole, ?_, ?_, ?_⟩
    · rw [filterMap_cons_some (by rfl), filterMap_append, htokens]
      rfl
    · intro l hl
      rcases mem_cons.mp hl with rfl | hl
      · rfl
      · exact (mem_append.mp hl).elim (hx.faults l) (hfaults l)
    · obtain ⟨s, hs⟩ := Option.isSome_iff_exists.mp
        (getLast?_isSome.mpr (chunkSymbols_ne_nil .templateTail .templateMiddle q' ps))
      rw [hs, Option.bind_eq_some_iff] at hlast
      obtain ⟨l, hl, htoken⟩ := hlast
      rw [getLast?_cons_append hl, chunkSymbols, getLast?_cons_append hs]
      exact htoken

/-- Literals that are printed are read back. A quoted string is read as one string, and a template
from chunks and substitutions that can stand alone as its chunks, with the symbols of the
substitutions between them; both end with their closing quote. -/
theorem literals_reread (n : Nesting) :
    (∀ v rest, Lexeme.ofText n ((quote v).toList ++ rest) =
      (⟨(quote v).toList, some (.string, v), []⟩ :: (Lexeme.ofText n rest).1,
        (Lexeme.ofText n rest).2)) ∧
    ∀ q ps, (∀ p ∈ ps, Standalone p.1.1) →
      ReadsTo n n
        ("\x60" ++ templateBody (q :: ps.map Prod.snd) (ps.map Prod.fst) ++ "\x60").toList
        (chunkSymbols .templateWhole .templateHead q ps) := by
  refine ⟨fun v rest => ?_, fun q ps hps => ?_⟩
  · have hapart : ∀ c ∈ (quote v).toList.getLast?, Apart c rest := by
      have hlast : (quote v).toList.getLast? = some '"' := by
        rw [quote, String.toList_ofList, List.getLast?_concat]
      rw [hlast]
      rintro c ⟨⟩
      cases rest with
      | nil => trivial
      | cons d rest => exact ⟨by simp [joins], by simp, fun hword => absurd hword (by decide)⟩
    obtain ⟨c, later, htext, hread⟩ := (writes_quote v).reading (n := n) rfl hapart
    rw [htext, List.cons_append, Lexeme.ofText_cons hread, List.drop_left' rfl, List.take_left' rfl]
  · have htext : ("\x60" ++ templateBody (q :: ps.map Prod.snd) (ps.map Prod.fst) ++
        "\x60").toList =
        '\x60' :: ((templateBody (q :: ps.map Prod.snd) (ps.map Prod.fst)).toList ++ ['\x60']) := by
      simp
    rw [htext]
    exact readsTo_chunks (fun cs => ofText_tick) q ps hps

theorem nested_template_reread :
    Standalone "\x7bk: \x60$\x7by\x7d\x60\x7d" ∧
      (∀ rest, Lexeme.ofText ⟨1, [1]⟩ ((quote "\\\x00").toList ++ rest) =
        (⟨(quote "\\\x00").toList, some (.string, "\\\x00"), []⟩ :: (Lexeme.ofText ⟨1, [1]⟩ rest).1,
          (Lexeme.ofText ⟨1, [1]⟩ rest).2)) ∧
      ReadsTo ⟨1, [1]⟩ ⟨1, [1]⟩
        "\x60a$$\x7b\x7bk: \x60$\x7by\x7d\x60\x7d\x7d\\$\x7b\\\x60\x60".toList
        [(.templateHead, "a$"), (.lbrace, "\x7b"), (.identifier, "k"), (.colon, ":"),
          (.templateHead, ""), (.identifier, "y"), (.templateTail, ""), (.rbrace, "\x7d"),
          (.templateTail, "$\x7b\x60")] := by
  have hrun : (Stream.ofText "m" "\x7bk: \x60$\x7by\x7d\x60\x7d").isOk = true := by decide +kernel
  have halone : Standalone "\x7bk: \x60$\x7by\x7d\x60\x7d" := by
    refine ⟨⟨"m", ?_⟩, by decide +kernel, by decide +kernel⟩
    cases h : Stream.ofText "m" "\x7bk: \x60$\x7by\x7d\x60\x7d" with
    | error ds => rw [h] at hrun; cases hrun
    | ok tokens => exact ⟨tokens, rfl⟩
  have hread := (literals_reread ⟨1, [1]⟩).2 "a$"
    [(("\x7bk: \x60$\x7by\x7d\x60\x7d", 12), "$\x7b\x60")] (by simpa using halone)
  have htext : ("\x60" ++ templateBody ["a$", "$\x7b\x60"]
      [("\x7bk: \x60$\x7by\x7d\x60\x7d", 12)] ++ "\x60").toList =
      "\x60a$$\x7b\x7bk: \x60$\x7by\x7d\x60\x7d\x7d\\$\x7b\\\x60\x60".toList := by
    decide +kernel
  have hsymbols : chunkSymbols .templateWhole .templateHead "a$"
      [(("\x7bk: \x60$\x7by\x7d\x60\x7d", 12), "$\x7b\x60")] =
      ([(.templateHead, "a$"), (.lbrace, "\x7b"), (.identifier, "k"), (.colon, ":"),
        (.templateHead, ""), (.identifier, "y"), (.templateTail, ""), (.rbrace, "\x7d"),
        (.templateTail, "$\x7b\x60")] : List Symbol) := by
    decide +kernel
  rw [hsymbols, List.map_singleton, List.map_singleton, htext] at hread
  exact ⟨halone, fun rest => (literals_reread ⟨1, [1]⟩).1 _ rest, hread⟩

end Chunks

end StepBinding.Token
