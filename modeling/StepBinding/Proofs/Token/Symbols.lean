import StepBinding.Proofs.Token.Valid

/-! Symbols, which are tokens without their places. A word, a numeral or a mark in a text is read as
such, if the text after it does not make it longer. The lexemes of a text without faults make up its
token stream. -/

namespace StepBinding.Token

open List Text.CharClass

variable {d c : Char} {ds whole fraction exponent : List Char} {n n' : Nesting}

/-- What a token is, apart from its place. -/
abbrev Symbol := Kind × Content

def symbol (t : Token) : Symbol := (t.kind, t.content)

section Characters

open Text.Unicode

variable {c : Char}

theorem ne_of_isWordStart (h : isWordStart c) (hd : isWordStart d = false) : c ≠ d := by
  rintro rfl
  rw [h] at hd
  cases hd

theorem ne_of_isDigit (h : isDigit c) (hd : isDigit d = false) : c ≠ d := by
  rintro rfl
  rw [h] at hd
  cases hd

/-- The inside runs of a class as intervals, where `start` code points come before the first run. -/
def intervals (start : Nat) : List Nat → List (Nat × Nat)
  | gap :: size :: runs =>
    (start + gap, start + gap + size) :: intervals (start + gap + size) runs
  | _ => []

theorem mem_intervals {runs : List Nat} {n : Nat} (start : Nat) (h : (place? runs n).isSome) :
    ∃ i ∈ intervals start runs, i.1 ≤ start + n ∧ start + n < i.2 := by
  fun_induction place? runs n generalizing start with
  | case1 => cases h
  | case2 gap size runs n hgap hsize => exact ⟨_, mem_cons_self, by dsimp only; omega⟩
  | case3 gap size runs n hgap hsize ih =>
    obtain ⟨i, hi, hbounds⟩ := ih (start + gap + size) h
    exact ⟨i, mem_cons_of_mem _ hi, by omega⟩
  | case4 => cases h

/-- Classes whose intervals do not meet have no character in common. -/
theorem not_includes_of_apart {runs others : List Nat}
    (h : (intervals 0 others).all fun j => (intervals 0 runs).all fun i => i.2.ble j.1 || j.2.ble i.1)
    (hc : includes runs c) : includes others c = false := by
  rw [Bool.eq_false_iff]
  intro hd
  obtain ⟨i, hi, hbounds⟩ := mem_intervals 0 hc
  obtain ⟨j, hj, hbounds'⟩ := mem_intervals 0 hd
  have := all_eq_true.mp (all_eq_true.mp h j hj) i hi
  simp only [Bool.or_eq_true, Nat.ble_eq] at this
  omega

theorem not_isDigit_of_isLetter (h : isLetter c) : isDigit c = false := by
  unfold isDigit
  rw [not_includes_of_apart (by decide +kernel) h, not_includes_of_apart (by decide +kernel) h,
    Bool.or_self]

theorem not_isDigit_of_isWordStart (h : isWordStart c) : isDigit c = false := by
  simp only [isWordStart, Bool.or_eq_true, beq_iff_eq] at h
  rcases h with (h | rfl) | rfl
  · exact not_isDigit_of_isLetter h
  · decide
  · decide

theorem isLetter_of_ascii (h : 65 ≤ c.toNat ∧ c.toNat ≤ 90 ∨ 97 ≤ c.toNat ∧ c.toNat ≤ 122) :
    isLetter c := by
  have hletters : letters = 65 :: 26 :: 6 :: 26 :: letters.drop 4 := rfl
  unfold isLetter includes
  rw [hletters, place?, place?]
  split
  · omega
  · split
    · rfl
    · rw [if_neg (by omega), if_pos (by omega)]
      rfl

theorem isDigit_of_ascii (h : 48 ≤ c.toNat ∧ c.toNat ≤ 57) : isDigit c := by
  have hdecimals : decimals = 48 :: 10 :: decimals.drop 2 := rfl
  unfold isDigit includes
  rw [hdecimals, place?, if_neg (by omega), if_pos (by omega)]
  rfl

theorem isWordPart_of_isWordStart (h : isWordStart c) : isWordPart c := by
  simp only [isWordStart, isWordPart, isAlphanumeric, Bool.or_eq_true] at h ⊢
  rcases h with (h | h) | h <;> simp [h]

theorem isWordPart_of_isLetter (h : isLetter c) : isWordPart c := by
  simp [isWordPart, isAlphanumeric, h]

theorem isWordPart_of_isDigit (h : isDigit c) : isWordPart c := by
  simp [isWordPart, isAlphanumeric, h]

theorem isWordPart_of_isHexDigit (h : isHexDigit c) : isWordPart c := by
  simp only [isHexDigit, inRanges, any_cons, any_nil, Bool.or_eq_true, Bool.and_eq_true,
    decide_eq_true_eq, Bool.or_false] at h
  rcases h with h | h | h
  · exact isWordPart_of_isDigit (isDigit_of_ascii (by omega))
  · exact isWordPart_of_isLetter (isLetter_of_ascii (by omega))
  · exact isWordPart_of_isLetter (isLetter_of_ascii (by omega))

end Characters

/-- Two characters that belong to one mark, or start a comment, where the second follows the first
one. -/
def joins (c d : Char) : Bool :=
  (d == '=' && ['=', '!', '<', '>', '+', '-', '*', '/', '%'].contains c)
    || (c == '=' && d == '>') || (c == d && ['?', '+', '-', '/'].contains c)
    || (c == '/' && d == '*')

/-- A text that does not make a symbol longer whose last character is `c`. -/
def Apart (c : Char) : List Char → Prop
  | [] => True
  | d :: ds =>
    joins c d = false ∧ (c = '.' → isDigit d = false)
      ∧ (isWordPart c = true → isWordPart d = false ∧ (d = '.' → ds.head?.any isDigit = false))

namespace Nesting

/-- The nesting after a symbol, if the symbol can stand there. -/
def step? (n : Nesting) : Kind → Option Nesting
  | .lbrace => some { n with braces := n.braces + 1 }
  | .rbrace =>
    if n.templates.head? = some n.braces then none else some { n with braces := n.braces - 1 }
  | .templateHead => some { n with templates := n.braces :: n.templates }
  | .templateMiddle =>
    if n.templates.head? = some n.braces then
      some { n with templates := n.braces :: n.templates.tail }
    else none
  | .templateTail =>
    if n.templates.head? = some n.braces then some { n with templates := n.templates.tail } else none
  | _ => some n

variable {n m m' : Nesting} {p : Prop} [Decidable p]

/-- A symbol that only a substitution can be left with. -/
theorem of_guard (h : (if p then some m else none) = some m') : p ∧ m = m' :=
  (Option.ite_none_right_eq_some.mp h).imp_right Option.some.inj

theorem of_rbrace (h : n.step? .rbrace = some m) :
    n.templates.head? ≠ some n.braces ∧ { n with braces := n.braces - 1 } = m :=
  (Option.ite_none_left_eq_some.mp h).imp_right Option.some.inj

end Nesting

theorem Apart.head_not_isWordPart (h : Apart c ds) (hc : isWordPart c) :
    ∀ d ∈ ds.head?, isWordPart d = false := by
  cases ds with
  | nil => exact nofun
  | cons d ds =>
    intro d' hd
    cases hd
    exact (h.2.2 hc).1

theorem takeWhile_append_eq {p : Char → Bool} {cs : List Char} (h : ∀ c ∈ cs, p c)
    (hd : ∀ d ∈ ds.head?, p d = false) : (cs ++ ds).takeWhile p = cs := by
  rw [takeWhile_append_of_pos h]
  cases ds with
  | nil => simp
  | cons d ds => rw [takeWhile_cons_of_neg (by simp [hd d rfl]), append_nil]

section Readings

variable {n : Nesting} {c : Char} {cs ds : List Char}

theorem ofText_word (h : isWordStart c) : Reading.ofText n c cs = Reading.ofWord n c cs := by
  have hne {d : Char} (hd : isWordStart d = false) : (c == d) = false :=
    beq_eq_false_iff_ne.mpr (ne_of_isWordStart h hd)
  unfold Reading.ofText
  simp only [hne (d := ' ') (by decide), hne (d := '\t') (by decide), hne (d := '\r') (by decide),
    hne (d := '\n') (by decide), hne (d := '/') (by decide), hne (d := '"') (by decide),
    hne (d := '\x27') (by decide), hne (d := '\x60') (by decide), hne (d := '.') (by decide),
    not_isDigit_of_isWordStart h, h, Bool.or_self, Bool.false_and, Bool.false_eq_true, if_false,
    if_true]

theorem ofText_number (h : isDigit c ∨ (c = '.' ∧ cs.head?.any isDigit)) :
    Reading.ofText n c cs = Reading.ofNumber n (c :: cs) := by
  have hne {d : Char} (hd : isDigit d = false) (hp : '.' ≠ d) : (c == d) = false := by
    rw [beq_eq_false_iff_ne]
    rcases h with h | ⟨rfl, -⟩
    · exact ne_of_isDigit h hd
    · exact hp
  have hnum : isDigit c || (c == '.' && cs.head?.any isDigit) := by
    rcases h with h | ⟨rfl, h⟩
    · rw [h, Bool.true_or]
    · rw [h]
      decide
  unfold Reading.ofText
  simp only [hne (d := ' ') (by decide) (by decide), hne (d := '\t') (by decide) (by decide),
    hne (d := '\r') (by decide) (by decide), hne (d := '\n') (by decide) (by decide),
    hne (d := '/') (by decide) (by decide), hne (d := '"') (by decide) (by decide),
    hne (d := '\x27') (by decide) (by decide), hne (d := '\x60') (by decide) (by decide), hnum,
    Bool.or_self, Bool.false_and, Bool.false_eq_true, if_false, if_true]

theorem IsWord.getLast_isWordPart {w : String} (h : IsWord w) :
    ∃ x ∈ w.toList.getLast?, isWordPart x := by
  obtain ⟨c, cs, hw, hc, hcs⟩ := h
  rw [hw]
  refine ⟨_, getLast?_eq_some_getLast (cons_ne_nil c cs), ?_⟩
  have hparts : ∀ d ∈ c :: cs, isWordPart d :=
    forall_mem_cons.mpr ⟨isWordPart_of_isWordStart hc, hcs⟩
  exact hparts _ (getLast_mem _)

theorem reading_word {w : String} (h : IsWord w) (hd : ∀ d ∈ ds.head?, isWordPart d = false) :
    ∃ c cs, w.toList = c :: cs ∧ Reading.ofText n c (cs ++ ds) =
      { extra := cs.length, token := some (Kind.ofWord w, w), nesting := n } := by
  obtain ⟨c, cs, hw, hc, hcs⟩ := h
  refine ⟨c, cs, hw, ?_⟩
  rw [ofText_word hc, Reading.ofWord, takeWhile_append_eq hcs hd, ← hw, String.ofList_toList]

end Readings

section Numerals

open Reading

variable {cs ds : List Char}

theorem head_not_isDigit (h : ∀ d ∈ ds.head?, isWordPart d = false) :
    ∀ d ∈ ds.head?, isDigit d = false := by
  intro d hd
  rw [Bool.eq_false_iff]
  intro hdigit
  have hpart := h d hd
  rw [isWordPart_of_isDigit hdigit] at hpart
  cases hpart

theorem digitsLength_append (h : ∀ c ∈ cs, isDigit c)
    (hd : ∀ d ∈ ds.head?, isDigit d = false) : digitsLength (cs ++ ds) = cs.length := by
  rw [digitsLength, takeWhile_append_eq h hd]

theorem digitsLength_eq_zero (h : ds.head?.any isDigit = false) : digitsLength ds = 0 := by
  cases ds with
  | nil => rfl
  | cons d ds =>
    have hd : isDigit d = false := h
    rw [digitsLength, takeWhile_cons_of_neg (by simp [hd])]
    rfl

theorem exponentLength_append (h : Exponent cs) (hd : ∀ d ∈ ds.head?, isWordPart d = false) :
    exponentLength (cs ++ ds) = cs.length := by
  rcases h with rfl | ⟨e, sign, digits, rfl, he, hsign, hdigits⟩
  · cases ds with
    | nil => rfl
    | cons d ds =>
      have hne {x : Char} (hx : isWordPart x) : (d == x) = false := by
        rw [beq_eq_false_iff_ne]
        rintro rfl
        rw [hd d rfl] at hx
        cases hx
      simp [exponentLength, hne (x := 'e') (by decide), hne (x := 'E') (by decide)]
  · have hlength := digitsLength_append hdigits.2 (head_not_isDigit hd)
    have hpos : 0 < digits.length := length_pos_iff.mpr hdigits.1
    have hletter : e == 'e' || e == 'E' := by
      rcases he with rfl | rfl <;> rfl
    rcases hsign with rfl | rfl | rfl
    · simp only [nil_append, cons_append, exponentLength, hletter, if_true, hlength,
        length_cons, gt_iff_lt, hpos]
    all_goals
      have hzero (s : Char) (hs : isDigit s = false) :
          digitsLength (s :: (digits ++ ds)) = 0 := digitsLength_eq_zero hs
      simp [exponentLength, hletter, hlength, hzero '+' (by decide), hzero '-' (by decide),
        hdigits.1]

theorem fractionLength_append (h : Fraction cs) (hd : ∀ d ∈ ds.head?, isDigit d = false)
    (hpoint : cs = [] → ∀ rest, ds = '.' :: rest → rest.head?.any isDigit = false) :
    fractionLength (cs ++ ds) = cs.length := by
  rcases h with rfl | ⟨digits, rfl, hdigits⟩
  · cases ds with
    | nil => rfl
    | cons d ds =>
      by_cases hp : d = '.'
      · subst hp
        simp [fractionLength, digitsLength_eq_zero (hpoint rfl ds rfl)]
      · simp [fractionLength, hp]
  · simp [fractionLength, digitsLength_append hdigits.2 hd, hdigits.1]

theorem not_isDigit_head_exponent (h : Exponent cs) (hd : ∀ d ∈ ds.head?, isWordPart d = false) :
    ∀ d ∈ (cs ++ ds).head?, isDigit d = false := by
  rcases h with rfl | ⟨e, sign, digits, rfl, he, -, -⟩
  · exact head_not_isDigit hd
  · intro d hd
    cases hd
    rcases he with rfl | rfl <;> decide

theorem decimalLength_append (hw : ∀ c ∈ whole, isDigit c) (hf : Fraction fraction)
    (hx : Exponent exponent) (hd : ∀ d ∈ ds.head?, isWordPart d = false)
    (hpoint : ∀ rest, ds = '.' :: rest → rest.head?.any isDigit = false) :
    decimalLength (whole ++ fraction ++ exponent ++ ds) =
      (whole ++ fraction ++ exponent).length := by
  have htail := not_isDigit_head_exponent hx hd
  have hfraction : fractionLength (fraction ++ (exponent ++ ds)) = fraction.length := by
    refine fractionLength_append hf htail fun _ rest hrest => ?_
    rcases hx with rfl | ⟨e, sign, digits, rfl, he, -, -⟩
    · exact hpoint rest hrest
    · rcases he with rfl | rfl <;> cases hrest
  have hwhole : digitsLength (whole ++ (fraction ++ (exponent ++ ds))) = whole.length := by
    refine digitsLength_append hw ?_
    rcases hf with rfl | ⟨digits, rfl, -⟩
    · exact htail
    · intro d hd
      cases hd
      decide
  simp only [decimalLength, append_assoc, hwhole, drop_left', hfraction, length_append]
  rw [← append_assoc whole, drop_left' (length_append ..), exponentLength_append hx hd]
  omega

theorem mem_of_getLast?_append {c : Char} (h : ds ≠ []) (hc : c ∈ (cs ++ ds).getLast?) : c ∈ ds := by
  rw [getLast?_append, getLast?_eq_some_getLast h, Option.some_or] at hc
  cases hc
  exact getLast_mem h

theorem Digits.getLast_isWordPart (h : Digits ds) : ∀ c ∈ (cs ++ ds).getLast?, isWordPart c :=
  fun c hc => isWordPart_of_isDigit (h.2 c (mem_of_getLast?_append h.1 hc))

theorem Numeral.ne_nil (h : Numeral cs) : cs ≠ [] := by
  cases h with
  | hexadecimal => exact nofun
  | decimal _ _ _ hne => simp_all

theorem Numeral.getLast_isWordPart (h : Numeral cs) : ∀ c ∈ cs.getLast?, isWordPart c := by
  cases h with
  | @hexadecimal x hs hx hne h =>
    exact fun c hc => isWordPart_of_isHexDigit (h c (@mem_of_getLast?_append ['0', x] _ _ hne hc))
  | @decimal whole fraction exponent hw hf hx hne =>
    rcases hx with rfl | ⟨e, sign, digits, rfl, -, -, hdigits⟩
    · rcases hf with rfl | ⟨digits, rfl, hdigits⟩
      · rw [append_nil] at hne ⊢
        simpa using @Digits.getLast_isWordPart [] _ ⟨hne, hw⟩
      · simpa using @Digits.getLast_isWordPart (whole ++ ['.']) _ hdigits
    · simpa using @Digits.getLast_isWordPart (whole ++ fraction ++ e :: sign) _ hdigits

/-- A decimal numeral does not start like a hexadecimal one. -/
theorem hexLength?_decimal (hw : ∀ c ∈ whole, isDigit c) (hf : Fraction fraction)
    (hx : Exponent exponent) (hd : ∀ d ∈ ds.head?, isWordPart d = false) :
    hexLength? (whole ++ fraction ++ exponent ++ ds) = none := by
  have hnot {c d : Char} (hd : d ≠ 'x' ∧ d ≠ 'X') (cs : List Char) :
      hexLength? (c :: d :: cs) = none := by
    simp [hexLength?, hd.1, hd.2]
  have hdigit {c : Char} (h : isDigit c) : c ≠ 'x' ∧ c ≠ 'X' :=
    ⟨ne_of_isDigit h (by decide), ne_of_isDigit h (by decide)⟩
  have hfirst : ∀ d ∈ (fraction ++ (exponent ++ ds)).head?, d ≠ 'x' ∧ d ≠ 'X' := by
    rcases hf with rfl | ⟨digits, rfl, -⟩
    · rcases hx with rfl | ⟨e, sign, digits, rfl, he, -⟩
      · intro d hmem
        have hpart := hd d hmem
        constructor <;> rintro rfl <;> exact absurd hpart (by decide)
      · intro d hmem
        cases hmem
        rcases he with rfl | rfl <;> decide
    · intro d hmem
      cases hmem
      decide
  have hzero {c : Char} (h : (c == '0') = false) (cs : List Char) : hexLength? (c :: cs) = none := by
    cases cs <;> simp [hexLength?, h]
  simp only [append_assoc]
  cases whole with
  | nil =>
    rcases hf with rfl | ⟨digits, rfl, -⟩
    · rcases hx with rfl | ⟨e, sign, digits, rfl, he, -⟩
      · cases ds with
        | nil => rfl
        | cons d ds =>
          refine hzero (beq_eq_false_iff_ne.mpr ?_) ds
          rintro rfl
          exact absurd (hd _ rfl) (by decide)
      · rcases he with rfl | rfl <;> exact hzero (by decide) _
    · exact hzero (by decide) _
  | cons c whole =>
    obtain ⟨-, hw⟩ := forall_mem_cons.mp hw
    cases whole with
    | nil =>
      rw [cons_append, nil_append]
      cases hrest : fraction ++ (exponent ++ ds) with
      | nil => rfl
      | cons d rest => exact hnot (hfirst d (by rw [hrest]; rfl)) rest
    | cons d whole => exact hnot (hdigit (hw d mem_cons_self)) _

theorem reading_number {n : Nesting} {text : List Char} (h : Numeral text)
    (hd : ∀ c ∈ text.getLast?, Apart c ds) :
    ∃ c cs, text = c :: cs ∧ Reading.ofText n c (cs ++ ds) =
      { extra := cs.length, token := some (.number, .ofChars text), nesting := n } := by
  have hlast := h.getLast_isWordPart
  have hmem : text.getLast h.ne_nil ∈ text.getLast? := getLast?_eq_some_getLast h.ne_nil
  have hapart := hd _ hmem
  have hpart := hapart.head_not_isWordPart (hlast _ hmem)
  have hpoint : ∀ rest, ds = '.' :: rest → rest.head?.any isDigit = false := by
    rintro rest rfl
    exact (hapart.2.2 (hlast _ hmem)).2 rfl
  cases h with
  | @hexadecimal x hs hx hne h =>
    refine ⟨_, _, rfl, ?_⟩
    have hlength : hexLength? ('0' :: x :: (hs ++ ds)) = some hs.length := by
      have hletter : x == 'x' || x == 'X' := by rcases hx with rfl | rfl <;> rfl
      simp only [hexLength?, hletter, beq_self_eq_true, Bool.and_self, if_true]
      rw [takeWhile_append_eq h]
      intro d hd
      rw [Bool.eq_false_iff]
      intro hhex
      have := hpart d hd
      rw [isWordPart_of_isHexDigit hhex] at this
      cases this
    rw [cons_append, ofText_number (.inl (by decide)), ofNumber, hlength]
    simp only [length_eq_zero_iff, hne, if_false, length_cons, take_succ_cons, take_left']
  | @decimal whole fraction exponent hw hf hx hne =>
    have hhead : ∃ c cs, whole ++ fraction ++ exponent = c :: cs ∧
        (isDigit c ∨ (c = '.' ∧ (cs ++ ds).head?.any isDigit)) := by
      cases whole with
      | cons c whole => exact ⟨_, _, rfl, .inl (hw c mem_cons_self)⟩
      | nil =>
        rcases hf with rfl | ⟨digits, rfl, hdigits⟩
        · exact absurd rfl hne
        · refine ⟨_, _, rfl, .inr ⟨rfl, ?_⟩⟩
          cases digits with
          | nil => exact absurd rfl hdigits.1
          | cons d digits => exact hdigits.2 d mem_cons_self
    obtain ⟨c, cs, htext, hc⟩ := hhead
    have hlength := decimalLength_append hw hf hx hpart hpoint
    have hhex := hexLength?_decimal hw hf hx hpart
    rw [htext] at hlength hhex ⊢
    refine ⟨c, cs, rfl, ?_⟩
    have hfault : (ds.head?.any isWordStart) = false := by
      cases ds with
      | nil => rfl
      | cons d ds =>
        refine Bool.eq_false_iff.mpr fun hstart => ?_
        have := hpart d rfl
        rw [isWordPart_of_isWordStart hstart] at this
        cases this
    rw [ofText_number hc, ← cons_append, ofNumber, hhex, hlength]
    simp only [drop_left', take_left', hfault, Bool.false_eq_true, if_false, length_cons,
      Nat.add_sub_cancel]

end Numerals

section Marks

variable {m ds : List Char} {k : Kind}

/-- A mark that goes on where another one ends joins the characters there. -/
theorem joins_of_isPrefixOf : ∀ a ∈ Kind.marks, ∀ b ∈ Kind.marks, a.1.isPrefixOf b.1 →
    ∀ c ∈ a.1.getLast?, ∀ d ∈ (b.1.drop a.1.length).head?, joins c d := by
  have hall : ∀ a ∈ Kind.marks, ∀ b ∈ Kind.marks, a.1.isPrefixOf b.1 →
      (a.1.getLast?.all fun c => (b.1.drop a.1.length).head?.all (joins c)) := by
    decide +kernel
  intro a ha b hb hprefix c hc d hd
  have hc' := (Option.all_eq_true _ _).mp (hall a ha b hb hprefix) c hc
  exact (Option.all_eq_true _ _).mp hc' d hd

/-- No mark comes after its own beginnings. -/
theorem marks_pairwise : Kind.marks.Pairwise fun a b => a.1.isPrefixOf b.1 = false := by
  decide +kernel

theorem mark_ne_nil (h : (m, k) ∈ Kind.marks) : m ≠ [] := by
  have : ∀ a ∈ Kind.marks, a.1 ≠ [] := by decide
  exact this _ h

theorem find?_mark (h : (m, k) ∈ Kind.marks) (hd : ∀ c ∈ m.getLast?, Apart c ds) :
    Kind.marks.find? (fun mark => mark.1.isPrefixOf (m ++ ds)) = some (m, k) := by
  rw [find?_eq_some_iff_append]
  refine ⟨List.isPrefixOf_iff_prefix.mpr (prefix_append m ds), ?_⟩
  obtain ⟨before, later, hsplit⟩ := append_of_mem h
  refine ⟨before, later, hsplit, fun a ha => ?_⟩
  have hpair := marks_pairwise
  rw [hsplit, pairwise_append] at hpair
  have hnot := hpair.2.2 a ha (m, k) mem_cons_self
  rw [Bool.not_eq_true', Bool.eq_false_iff, Ne, isPrefixOf_iff_prefix]
  intro hprefix
  have hmem : a ∈ Kind.marks := hsplit ▸ mem_append_left _ ha
  -- the earlier mark is longer, so the text after the mark starts with what joins it
  rcases prefix_or_prefix_of_prefix hprefix (prefix_append m ds) with hshort | hlong
  · rw [List.isPrefixOf_iff_prefix.mpr hshort] at hnot
    cases hnot
  · obtain ⟨more, hmore⟩ := hlong
    rw [← hmore, prefix_append_right_inj] at hprefix
    cases more with
    | nil =>
      rw [append_nil] at hmore
      rw [← hmore, isPrefixOf_iff_prefix.mpr (prefix_refl _)] at hnot
      cases hnot
    | cons d more =>
      obtain ⟨rest, rfl⟩ := hprefix
      have hlast : m.getLast (mark_ne_nil h) ∈ m.getLast? := getLast?_eq_some_getLast _
      have hjoins := joins_of_isPrefixOf (m, k) h a hmem
        (List.isPrefixOf_iff_prefix.mpr ⟨_, hmore⟩) _ hlast d (by simp [← hmore])
      rw [(hd _ hlast).1] at hjoins
      cases hjoins

theorem mark_kind (h : (m, k) ∈ Kind.marks) :
    k ≠ .templateHead ∧ k ≠ .templateMiddle ∧ k ≠ .templateTail := by
  have : ∀ a ∈ Kind.marks, a.2 ≠ .templateHead ∧ a.2 ≠ .templateMiddle ∧ a.2 ≠ .templateTail := by
    decide
  exact this _ h

theorem step?_mark :
    k ≠ .templateHead ∧ k ≠ .templateMiddle ∧ k ≠ .templateTail → n.step? k = some n' →
      (match k with
        | .lbrace => { n with braces := n.braces + 1 }
        | .rbrace => { n with braces := n.braces - 1 }
        | _ => n) = n' := by
  intro hk h
  cases k with
  | rbrace =>
    change (if n.templates.head? = some n.braces then none else some _) = some n' at h
    split at h <;> cases h
    rfl
  | templateHead => exact absurd rfl hk.1
  | templateMiddle => exact absurd rfl hk.2.1
  | templateTail => exact absurd rfl hk.2.2
  | _ => exact Option.some.inj h

/-- What the first character of a mark is not. -/
theorem mark_start (h : (m, k) ∈ Kind.marks) : ∀ c ∈ m.head?,
    (c == ' ' || c == '\t' || c == '\r' || c == '\n') = false ∧ (c == '"' || c == '\x27') = false ∧
      (c == '\x60') = false ∧ isDigit c = false ∧ isWordStart c = false ∧
      (c = '/' → m = ['/'] ∨ m = ['/', '=']) ∧ (c = '.' → m = ['.']) ∧
      (c = '\x7d' ↔ k = .rbrace) := by
  have hall : ∀ a ∈ Kind.marks, (a.1.head?.all fun c => decide (
      (c == ' ' || c == '\t' || c == '\r' || c == '\n') = false ∧ (c == '"' || c == '\x27') = false ∧
      (c == '\x60') = false ∧ isDigit c = false ∧ isWordStart c = false ∧
      (c = '/' → a.1 = ['/'] ∨ a.1 = ['/', '=']) ∧ (c = '.' → a.1 = ['.']) ∧
      (c = '\x7d' ↔ a.2 = .rbrace))) := by
    decide +kernel
  intro c hc
  exact of_decide_eq_true ((Option.all_eq_true _ _).mp (hall _ h) c hc)

theorem Apart.ne_comment (h : Apart '/' ds) :
    (ds.head? == some '/') = false ∧ (ds.head? == some '*') = false := by
  cases ds with
  | nil => exact ⟨rfl, rfl⟩
  | cons d ds =>
    have hjoins := h.1
    constructor <;>
    · rw [beq_eq_false_iff_ne]
      intro hd
      cases hd
      exact absurd hjoins (by decide)

theorem reading_mark (h : (m, k) ∈ Kind.marks) (hn : n.step? k = some n')
    (hd : ∀ c ∈ m.getLast?, Apart c ds) :
    ∃ c cs, m = c :: cs ∧ Reading.ofText n c (cs ++ ds) =
      { extra := cs.length, token := some (k, .ofChars m), nesting := n' } := by
  cases m with
  | nil => exact absurd rfl (mark_ne_nil h)
  | cons c cs =>
    refine ⟨c, cs, rfl, ?_⟩
    obtain ⟨hblank, hquote, htick, hdigit, hword, hslash, hpoint, hbrace⟩ := mark_start h c rfl
    have hcomment : (c == '/' && (cs ++ ds).head? == some '/') = false ∧
        (c == '/' && (cs ++ ds).head? == some '*') = false := by
      by_cases hc : c = '/'
      · rcases hslash hc with hm | hm <;> cases hm
        · simpa using (hd '/' rfl).ne_comment
        · exact ⟨rfl, rfl⟩
      · simp [hc]
    have hnumber : (c == '.' && (cs ++ ds).head?.any isDigit) = false := by
      by_cases hc : c = '.'
      · cases hpoint hc
        have hapart := hd '.' rfl
        cases ds with
        | nil => rfl
        | cons d ds => simpa using hapart.2.1 rfl
      · simp [hc]
    have hclose : (c == '\x7d' && n.templates.head? == some n.braces) = false := by
      by_cases hc : c = '\x7d'
      · rw [hbrace.mp hc] at hn
        change (if n.templates.head? = some n.braces then none else some _) = some n' at hn
        split at hn
        · cases hn
        · simp_all
      · simp [hc]
    unfold Reading.ofText
    simp only [hblank, hcomment.1, hcomment.2, hquote, htick, hdigit, hnumber, hword, hclose,
      Bool.or_self, Bool.false_eq_true, if_false]
    have hfind := find?_mark h hd
    rw [cons_append] at hfind
    simp only [Reading.ofMark, hfind, length_cons, Nat.add_sub_cancel]
    exact congrArg (Reading.mk _ _ _) (step?_mark (mark_kind h) hn)

end Marks

section Templates

open Reading

variable {n : Nesting} {cs : List Char}

theorem ofText_tick : Reading.ofText n '\x60' cs = ofChunk n .templateWhole .templateHead cs := by
  unfold Reading.ofText
  rw [if_neg (by decide), if_neg (by simp), if_neg (by simp), if_neg (by decide), if_pos (by decide)]

theorem ofText_brace (h : n.templates.head? = some n.braces) : Reading.ofText n '\x7d' cs =
    ofChunk { n with templates := n.templates.tail } .templateTail .templateMiddle cs := by
  unfold Reading.ofText
  rw [if_neg (by decide), if_neg (by simp), if_neg (by simp), if_neg (by decide), if_neg (by decide),
    if_neg (by simp [show isDigit '\x7d' = false by decide]), if_neg (by decide),
    if_pos (by simp [h])]

end Templates

/-- Kinds that words have. -/
def Kind.isWord (k : Kind) : Bool := k == .identifier || k.isReserved

theorem Kind.isWord_ofWord (w : String) : (Kind.ofWord w).isWord := by
  unfold Kind.ofWord
  cases h : Kind.reserved.lookup w with
  | none => rfl
  | some k =>
    have hkinds : ∀ entry ∈ Kind.reserved, entry.2.isWord := by decide
    obtain ⟨l, l', hl, -⟩ := lookup_eq_some_iff.mp h
    exact hkinds (w, k) (hl ▸ mem_append_right l mem_cons_self)

theorem Symbol.step?_word {k : Kind} (h : k.isWord) (n : Nesting) : n.step? k = some n := by
  cases k <;> first | rfl | exact absurd h (by decide)

def isBlank (c : Char) : Bool := c == ' ' || c == '\t' || c == '\r' || c == '\n'

/-- Characters that never make the symbol before them longer. -/
def breaks (d : Char) : Bool :=
  !isWordPart d && !(['=', '>', '?', '+', '-', '/', '*', '.'].contains d)

theorem apart_of_breaks (h : breaks d) (c : Char) (ds : List Char) : Apart c (d :: ds) := by
  simp only [breaks, Bool.and_eq_true, Bool.not_eq_true', contains_eq_mem, decide_eq_false_iff_not,
    mem_cons, not_mem_nil, or_false, not_or] at h
  obtain ⟨hpart, hequals, hgreater, hquestion, hplus, hminus, hslash, hstar, hpoint⟩ := h
  have hdigit : isDigit d = false := @head_not_isDigit [d] (by simpa using hpart) d rfl
  refine ⟨?_, fun _ => hdigit, fun _ => ⟨hpart, fun h => absurd h hpoint⟩⟩
  simp only [joins, beq_eq_false_iff_ne.mpr hequals, beq_eq_false_iff_ne.mpr hgreater,
    beq_eq_false_iff_ne.mpr hstar, Bool.false_and, Bool.and_false, Bool.false_or, Bool.or_false]
  by_cases hcd : c = d
  · subst hcd
    simp [hquestion, hplus, hminus, hslash]
  · simp [hcd]

theorem breaks_of_isBlank (h : isBlank c) : breaks c := by
  simp only [isBlank, Bool.or_eq_true, beq_iff_eq] at h
  rcases h with ((rfl | rfl) | rfl) | rfl <;> decide

namespace Stream

theorem map_symbol_place (file : String) (p : Position) (ls : List Lexeme) :
    (place file p ls).1.map symbol = ls.filterMap Lexeme.token := by
  induction ls generalizing p with
  | nil => rfl
  | cons l ls ih =>
    unfold place
    cases hl : l.token with
    | none => simpa [hl] using ih _
    | some token => simpa [hl, symbol] using ih _

theorem faults_place {file : String} {p : Position} {ls : List Lexeme}
    (h : ∀ l ∈ ls, l.faults = []) : (place file p ls).2.1 = [] := by
  induction ls generalizing p with
  | nil => rfl
  | cons l ls ih =>
    obtain ⟨hl, hls⟩ := forall_mem_cons.mp h
    unfold place
    cases hk : l.token <;> simpa [hl] using ih hls

/-- A text whose lexemes have no faults and leave no template open has a stream of their tokens. -/
theorem ofText_of_lexemes {file text : String}
    (hfaults : ∀ l ∈ (Lexeme.ofText {} text.toList).1, l.faults = [])
    (hopen : (Lexeme.ofText {} text.toList).2.templates = []) :
    ∃ tokens, ofText file text = .ok tokens ∧ tokens.map symbol =
      (Lexeme.ofText {} text.toList).1.filterMap Lexeme.token ++ [((.endMark, "") : Symbol)] := by
  unfold ofText
  simp only [hopen, faults_place hfaults, isEmpty_nil, if_true]
  refine ⟨_, rfl, ?_⟩
  rw [map_append, map_symbol_place]
  rfl

end Stream

end StepBinding.Token
