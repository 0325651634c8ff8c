import Mathlib.Data.List.TakeWhile
import StepBinding.Token.Stream

/-! The spellings of the tokens that a program text can have. A word is a letter and further
letters or digits, a name is a word that is not reserved, and a numeral is a whole part, a
fraction and an exponent, of which some may be missing, or hexadecimal digits. Every token of
a stream is spelled as its kind asks, and only the last one is the end mark. -/

namespace StepBinding.Token

open List Text.CharClass

variable {cs : List Char} {p : Char → Bool} {c : Char}

def IsWord (s : String) : Prop :=
  ∃ c cs, s.toList = c :: cs ∧ isWordStart c = true ∧ ∀ d ∈ cs, isWordPart d = true

/-- A word that is an identifier. -/
def IsName (s : String) : Prop := IsWord s ∧ Kind.ofWord s = .identifier

/-- At least one digit. -/
def Digits (cs : List Char) : Prop := cs ≠ [] ∧ ∀ c ∈ cs, isDigit c = true

/-- A point and digits, or nothing. -/
def Fraction (cs : List Char) : Prop := cs = [] ∨ ∃ ds, cs = '.' :: ds ∧ Digits ds

/-- The letter of an exponent, a sign or none, and digits; or nothing. -/
def Exponent (cs : List Char) : Prop :=
  cs = [] ∨ ∃ e sign ds, cs = e :: (sign ++ ds) ∧ (e = 'e' ∨ e = 'E')
    ∧ (sign = [] ∨ sign = ['+'] ∨ sign = ['-']) ∧ Digits ds

inductive Numeral : List Char → Prop
  | hexadecimal {x : Char} {hs : List Char} (hx : x = 'x' ∨ x = 'X') (hne : hs ≠ [])
      (h : ∀ c ∈ hs, isHexDigit c = true) : Numeral ('0' :: x :: hs)
  | decimal {whole fraction exponent : List Char} (hw : ∀ c ∈ whole, isDigit c = true)
      (hf : Fraction fraction) (hx : Exponent exponent) (hne : whole ++ fraction ≠ []) :
      Numeral (whole ++ fraction ++ exponent)

/-- The spelling is one that a token of the kind can have. -/
structure Spelled (k : Kind) (text : String) : Prop where
  name : k = .identifier → IsName text
  word : k.isReserved = true → IsWord text
  numeral : k = .number → Numeral text.toList
  inside : k ≠ .endMark

section Numbers

open Reading

theorem takeWhile_prefix_eq (cs : List Char) : cs.take (cs.takeWhile p).length = cs.takeWhile p :=
  prefix_iff_eq_take.mp (List.takeWhile_prefix p) ▸ rfl

theorem digits_takeWhile (h : 0 < digitsLength cs) : Digits (cs.take (digitsLength cs)) := by
  rw [digitsLength, takeWhile_prefix_eq]
  exact ⟨ne_nil_of_length_pos h, fun c hc => mem_takeWhile_imp hc⟩

theorem fraction_take (cs : List Char) : Fraction (cs.take (fractionLength cs)) := by
  unfold fractionLength
  split
  · exact .inl rfl
  · rename_i c cs
    split
    · rename_i h
      simp only [Bool.and_eq_true, beq_iff_eq, decide_eq_true_eq] at h
      exact .inr ⟨_, by rw [take_succ_cons, h.1], digits_takeWhile h.2⟩
    · exact .inl rfl

theorem exponent_take (cs : List Char) : Exponent (cs.take (exponentLength cs)) := by
  unfold exponentLength
  split
  · exact .inl rfl
  · rename_i c cs
    split
    · rename_i he
      simp only [Bool.or_eq_true, beq_iff_eq] at he
      split
      · rename_i h
        exact .inr ⟨c, [], _, by rw [take_succ_cons]; rfl, he, .inl rfl, digits_takeWhile h⟩
      · split
        · rename_i s rest _
          split
          · rename_i h
            simp only [Bool.and_eq_true, Bool.or_eq_true, beq_iff_eq, decide_eq_true_eq] at h
            refine .inr ⟨c, [s], _, ?_, he, ?_, digits_takeWhile h.2⟩
            · rw [take_succ_cons, take_succ_cons]
              rfl
            · rcases h.1 with rfl | rfl
              · exact .inr (.inl rfl)
              · exact .inr (.inr rfl)
          · exact .inl rfl
        · exact .inl rfl
    · exact .inl rfl

theorem decimal_take (h : isDigit c ∨ (c = '.' ∧ cs.head?.any isDigit)) :
    Numeral ((c :: cs).take (decimalLength (c :: cs))) := by
  unfold decimalLength
  rw [take_add, take_add, digitsLength, takeWhile_prefix_eq]
  refine .decimal (fun d hd => mem_takeWhile_imp hd) (fraction_take _) (exponent_take _) ?_
  rcases h with h | ⟨rfl, h⟩
  · rw [takeWhile_cons_of_pos h]
    exact fun h => by cases h
  · cases cs with
    | nil => cases h
    | cons d cs =>
      have hpoint : isDigit '.' = false := by decide
      have hd : isDigit d := h
      rw [takeWhile_cons_of_neg (by rw [hpoint]; decide)]
      have hpos : 0 < digitsLength (d :: cs) := by
        rw [digitsLength, takeWhile_cons_of_pos hd]
        exact Nat.succ_pos _
      simp only [length_nil, drop_zero, nil_append, fractionLength, beq_self_eq_true,
        Bool.true_and, hpos, decide_true, if_true, take_succ_cons]
      rintro ⟨⟩

end Numbers

section Readings

variable {n : Nesting} {k : Kind} {v : Content}

/-- A kind whose spelling is free. -/
theorem spelled_of_free {k : Kind} (h : k ≠ .identifier ∧ k.isReserved = false ∧ k ≠ .number ∧
    k ≠ .endMark) (text : String) : Spelled k text :=
  ⟨fun hk => absurd hk h.1, fun hk => absurd hk (by rw [h.2.1]; exact nofun),
    fun hk => absurd hk h.2.2.1, h.2.2.2⟩

theorem ofString_spelled {quote : Char} (h : (Reading.ofString n quote cs).token = some (k, v)) :
    Spelled k v.text := by
  unfold Reading.ofString at h
  dsimp only at h
  split at h
  · cases h; exact spelled_of_free (by decide) _
  · cases h

theorem ofChunk_spelled {whole part : Kind}
    (hw : ∀ text, Spelled whole text) (hp : ∀ text, Spelled part text)
    (h : (Reading.ofChunk n whole part cs).token = some (k, v)) : Spelled k v.text := by
  unfold Reading.ofChunk at h
  dsimp only at h
  split at h
  · cases h; exact hw _
  · cases h; exact hp _
  · cases h

theorem ofNumber_spelled (hc : isDigit c ∨ (c = '.' ∧ cs.head?.any isDigit))
    (h : (Reading.ofNumber n (c :: cs)).token = some (k, v))
    (hf : (Reading.ofNumber n (c :: cs)).faults = []) : Spelled k v.text := by
  suffices hnum : k = .number ∧ Numeral v.text.toList from
    ⟨fun hk => absurd (hnum.1.symm.trans hk) nofun, fun hk => absurd hk (by rw [hnum.1]; decide),
      fun _ => hnum.2, by rw [hnum.1]; exact nofun⟩
  unfold Reading.ofNumber at h hf
  split at h
  · rename_i digits hd
    rw [hd] at hf
    cases h
    refine ⟨rfl, ?_⟩
    rw [Content.text_ofChars, String.toList_ofList]
    unfold Reading.hexLength? at hd
    split at hd
    · rename_i z x hs heq
      split at hd
      · rename_i hzx
        simp only [Bool.and_eq_true, Bool.or_eq_true, beq_iff_eq] at hzx
        cases hd
        rw [heq, take_succ_cons, take_succ_cons, takeWhile_prefix_eq, hzx.1]
        refine .hexadecimal hzx.2 (fun hnil => ?_) fun d hd => mem_takeWhile_imp hd
        simp [hnil] at hf
      · cases hd
    · cases hd
  · cases h
    refine ⟨rfl, ?_⟩
    rw [Content.text_ofChars, String.toList_ofList]
    exact decimal_take hc

theorem ofWord_spelled (hc : isWordStart c)
    (h : (Reading.ofWord n c cs).token = some (k, v)) : Spelled k v.text := by
  cases h
  have hword : IsWord (String.ofList (c :: cs.takeWhile isWordPart)) :=
    ⟨c, cs.takeWhile isWordPart, String.toList_ofList, hc, fun d hd => mem_takeWhile_imp hd⟩
  rw [Content.text_ofChars]
  refine ⟨fun hk => ⟨hword, hk⟩, fun _ => hword, fun hk => ?_, fun hk => ?_⟩
  all_goals
    rw [Kind.ofWord] at hk
    cases hl : Kind.reserved.lookup (String.ofList (c :: cs.takeWhile isWordPart)) with
    | none => rw [hl] at hk; cases hk
    | some k' =>
      rw [hl] at hk
      have hkinds : ∀ entry ∈ Kind.reserved, entry.2 ≠ .number ∧ entry.2 ≠ .endMark := by decide
      obtain ⟨l, l', hl, _⟩ := lookup_eq_some_iff.mp hl
      have := hkinds (_, k') (hl ▸ mem_append_right l mem_cons_self)
      simp_all

theorem ofMark_spelled (h : (Reading.ofMark n c cs).token = some (k, v)) : Spelled k v.text := by
  unfold Reading.ofMark at h
  split at h
  · rename_i mark kind hfind
    cases h
    have hmarks : ∀ m ∈ Kind.marks, m.2 ≠ .identifier ∧ m.2.isReserved = false ∧ m.2 ≠ .number ∧
        m.2 ≠ .endMark := by decide
    exact spelled_of_free (hmarks _ (mem_of_find?_eq_some hfind)) _
  · cases h

/-- What is read without a fault is spelled as its kind asks. -/
theorem ofText_spelled (h : (Reading.ofText n c cs).token = some (k, v))
    (hf : (Reading.ofText n c cs).faults = []) : Spelled k v.text := by
  unfold Reading.ofText at h hf
  split at h
  · cases h
  split at h
  · cases h
  split at h
  · cases h
  split at h
  · exact ofString_spelled h
  split at h
  · exact ofChunk_spelled (spelled_of_free (by decide)) (spelled_of_free (by decide)) h
  split at h
  · rename_i hnum
    simp only [*] at hf
    simp only [Bool.or_eq_true, Bool.and_eq_true, beq_iff_eq] at hnum
    exact ofNumber_spelled hnum h (by simpa using hf)
  split at h
  · rename_i hw
    exact ofWord_spelled hw h
  split at h
  · exact ofChunk_spelled (spelled_of_free (by decide)) (spelled_of_free (by decide)) h
  · exact ofMark_spelled h

end Readings

end StepBinding.Token

namespace StepBinding.Token.Stream

open List Lexeme

variable {file : String} {p : Position} {ls : List Lexeme}

/-- The spelling of a token is one of its kind. -/
def Valid (t : Token) : Prop := Spelled t.kind t.text

theorem place_valid (h : ∀ l ∈ ls, ∀ k v, l.token = some (k, v) → Spelled k v.text) :
    ∀ t ∈ (place file p ls).1, Valid t := by
  induction ls generalizing p with
  | nil => exact nofun
  | cons l ls ih =>
    obtain ⟨hl, hls⟩ := forall_mem_cons.mp h
    intro t ht
    unfold place at ht
    dsimp only at ht
    cases hk : l.token with
    | none => rw [hk] at ht; exact ih hls t ht
    | some token =>
      rw [hk] at ht
      rcases mem_cons.mp ht with rfl | ht
      · exact hl _ _ hk
      · exact ih hls t ht

theorem place_faults (h : (place file p ls).2.1 = []) : ∀ l ∈ ls, l.faults = [] := by
  induction ls generalizing p with
  | nil => exact nofun
  | cons l ls ih =>
    unfold place at h
    dsimp only at h
    have hboth : l.faults = [] ∧ (place file (p.after l.text) ls).2.1 = [] := by
      cases hk : l.token <;> rw [hk] at h <;> simpa using h
    exact forall_mem_cons.mpr ⟨hboth.1, ih hboth.2⟩

theorem lexemes_spelled {n : Nesting} {cs : List Char}
    (h : ∀ l ∈ (Lexeme.ofText n cs).1, l.faults = []) :
    ∀ l ∈ (Lexeme.ofText n cs).1, ∀ k v, l.token = some (k, v) → Spelled k v.text := by
  fun_induction Lexeme.ofText n cs with
  | case1 => exact forall_mem_nil _
  | case2 n c cs r later final hlater ih =>
    rw [hlater] at ih
    obtain ⟨hl, hls⟩ := forall_mem_cons.mp h
    exact forall_mem_cons.mpr ⟨fun k v hk => ofText_spelled hk hl, ih hls⟩

/-- The tokens of a text are spelled as their kinds ask, and an end mark follows them. -/
theorem ofText_valid {text : String} {tokens : List Token} (h : ofText file text = .ok tokens) :
    ∃ ts stop, tokens = ts ++ [stop] ∧ stop.kind = .endMark ∧ ∀ t ∈ ts, Valid t := by
  unfold ofText at h
  dsimp only at h
  split at h
  · split at h
    · rename_i hfaults
      cases h
      exact ⟨_, _, rfl, rfl, place_valid (lexemes_spelled
        (place_faults (isEmpty_iff.mp hfaults)))⟩
    · cases h
  · simp at h

end StepBinding.Token.Stream
