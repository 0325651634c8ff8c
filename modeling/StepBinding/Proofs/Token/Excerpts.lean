import Mathlib.Data.List.Infix
import StepBinding.Proofs.Token.Layout
import StepBinding.Source

/-! The text at the range of a token. Positions count line feeds, while the lines of a source are cut
at every line end. The two agree as far as lines end in line feeds, alone or behind carriage returns:
there the line of a token is the one it stands in, and its range covers its own characters. A token
over several lines is shown with line feeds between them, so its own lines must end in these. -/

namespace StepBinding

open List

namespace Text.Lines

open CharClass

/-- Whether every line ends in a line feed, alone or behind a carriage return. -/
def endsInFeeds : List Char → Bool
  | [] => true
  | '\r' :: '\n' :: cs => endsInFeeds cs
  | c :: cs => (c == '\n' || !isLineEnd c) && endsInFeeds cs

/-- The characters of a text after its last line feed. -/
def lastLine (cs : List Char) : List Char := (cs.reverse.takeWhile (· != '\n')).reverse

/-- The characters of a text up to its first line end. -/
def firstLine (cs : List Char) : List Char := cs.takeWhile (!isLineEnd ·)

section Split

variable {c : Char} {cs front rest l : List Char} {ls : List (List Char)}

theorem isLineEnd_feed : isLineEnd '\n' := rfl

theorem lastLine_append_feed (cs rest : List Char) : lastLine (cs ++ '\n' :: rest) = lastLine rest := by
  unfold lastLine
  rw [reverse_append, reverse_cons, append_assoc, takeWhile_append]
  split
  · rename_i hall
    rw [(List.takeWhile_prefix _).eq_of_length hall]
    simp
  · rfl

theorem lastLine_append (cs : List Char) (h : '\n' ∉ rest) :
    lastLine (cs ++ rest) = lastLine cs ++ rest := by
  have hall : ∀ c ∈ rest.reverse, (c != '\n') := fun c hc => by
    rw [bne_iff_ne]
    rintro rfl
    exact h (mem_reverse.mp hc)
  simp [lastLine, takeWhile_append_of_pos hall]

theorem lastLine_of_not_mem (h : '\n' ∉ cs) : lastLine cs = cs := lastLine_append [] h

theorem lastLine_cons_of_mem (c : Char) (h : '\n' ∈ cs) : lastLine (c :: cs) = lastLine cs := by
  obtain ⟨a, b, rfl⟩ := append_of_mem h
  rw [← cons_append, lastLine_append_feed, lastLine_append_feed]

theorem splitKeeping_cons (hc : c ≠ '\r') : splitKeeping (c :: cs) =
    if isLineEnd c then [c] :: splitKeeping cs else prepend c (splitKeeping cs) := by
  rw [splitKeeping]
  intro _ h
  exact absurd h hc

theorem splitKeeping_feed (cs : List Char) : splitKeeping ('\n' :: cs) = ['\n'] :: splitKeeping cs :=
  splitKeeping_cons (by decide)

theorem isLineEnd_of_mem_lastLine (h : endsInFeeds cs) :
    ∀ c ∈ lastLine cs, isLineEnd c = false := by
  fun_induction endsInFeeds cs with
  | case1 => simp [lastLine]
  | case2 cs ih =>
    rw [lastLine_cons_of_mem _ (by simp), ← nil_append ('\n' :: cs), lastLine_append_feed]
    exact ih h
  | case3 c cs hpair ih =>
    obtain ⟨hc, hcs⟩ := Bool.and_eq_true_iff.mp h
    by_cases hmem : '\n' ∈ cs
    · rw [lastLine_cons_of_mem _ hmem]
      exact ih hcs
    · rcases Bool.or_eq_true_iff.mp hc with hc | hc
      · rw [beq_iff_eq.mp hc, ← nil_append ('\n' :: cs), lastLine_append_feed]
        exact ih hcs
      · rw [← singleton_append, lastLine_append _ hmem]
        have hcs := ih hcs
        rw [lastLine_of_not_mem hmem] at hcs
        have hfeed : c ≠ '\n' := by rintro rfl; cases hc
        rw [lastLine_of_not_mem (by simpa using hfeed.symm)]
        exact forall_mem_cons.mpr ⟨by simpa using hc, hcs⟩

/-- The lines of a text, counted by its line feeds, and the one that goes on behind it. -/
theorem splitKeeping_append (hfront : endsInFeeds front) (hrest : splitKeeping rest = l :: ls) :
    ∃ done, done.length = front.count '\n' ∧
      splitKeeping (front ++ rest) = done ++ (lastLine front ++ l) :: ls := by
  fun_induction endsInFeeds front with
  | case1 => exact ⟨[], rfl, hrest⟩
  | case2 cs ih =>
    obtain ⟨done, hlength, hsplit⟩ := ih hfront
    refine ⟨['\r', '\n'] :: done, by simp [hlength], ?_⟩
    rw [lastLine_cons_of_mem _ (by simp), ← nil_append ('\n' :: cs), lastLine_append_feed]
    exact congrArg (_ :: ·) hsplit
  | case3 c cs hpair ih =>
    obtain ⟨hc, hcs⟩ := Bool.and_eq_true_iff.mp hfront
    obtain ⟨done, hlength, hsplit⟩ := ih hcs
    rcases Bool.or_eq_true_iff.mp hc with hc | hc
    · cases beq_iff_eq.mp hc
      refine ⟨['\n'] :: done, by simp [hlength], ?_⟩
      rw [← nil_append ('\n' :: cs), lastLine_append_feed, nil_append, cons_append,
        splitKeeping_feed, hsplit, cons_append]
    · have hend : isLineEnd c = false := by simpa using hc
      have hreturn : c ≠ '\r' := by rintro rfl; cases hc
      have hfeed : c ≠ '\n' := by rintro rfl; cases hc
      rw [cons_append, splitKeeping_cons hreturn, hsplit, hend, if_neg Bool.false_ne_true,
        count_cons_of_ne hfeed]
      cases done with
      | nil =>
        have hnot : '\n' ∉ cs := count_eq_zero.mp hlength.symm
        refine ⟨[], hlength, ?_⟩
        rw [lastLine_of_not_mem hnot, lastLine_of_not_mem (by simpa using ⟨hfeed.symm, hnot⟩)]
        rfl
      | cons d done =>
        have hmem : '\n' ∈ cs := count_pos_iff.mp (by rw [← hlength]; simp)
        exact ⟨(c :: d) :: done, hlength, by rw [lastLine_cons_of_mem _ hmem]; rfl⟩

theorem splitKeeping_first (h : cs ≠ []) :
    ∃ l ls, splitKeeping cs = l :: ls ∧ dropEnd l = firstLine cs := by
  fun_induction splitKeeping cs with
  | case1 => exact absurd rfl h
  | case2 cs ih => exact ⟨_, _, rfl, rfl⟩
  | case3 c cs hpair hc ih => exact ⟨_, _, rfl, by simp [dropEnd, firstLine, hc]⟩
  | case4 c cs hpair hc ih =>
    cases cs with
    | nil => exact ⟨[c], [], rfl, by simp [dropEnd, firstLine, hc]⟩
    | cons d cs =>
      obtain ⟨l, ls, hsplit, hline⟩ := ih (by simp)
      refine ⟨c :: l, ls, by rw [hsplit]; rfl, ?_⟩
      unfold dropEnd firstLine at *
      simp [hc, hline]

/-- The line in which a text behind the first lines starts. -/
theorem lineIn?_behind {s : SourceText} (hfront : endsInFeeds front) (hrest : rest ≠ [])
    (htext : s.text.toList = front ++ rest) :
    SourceText.lineIn? s.lines (front.count '\n' + 1) =
      some (String.ofList (lastLine front ++ firstLine rest)) := by
  obtain ⟨l, ls, hsplit, hline⟩ := splitKeeping_first hrest
  obtain ⟨done, hlength, hall⟩ := splitKeeping_append hfront hsplit
  have hlast : dropEnd (lastLine front) = lastLine front :=
    filter_eq_self.mpr fun c hc => by rw [isLineEnd_of_mem_lastLine hfront c hc]; rfl
  change (split s.text)[front.count '\n']? = _
  rw [split, htext, hall, ← hlength, getElem?_map, getElem?_append_right .refl,
    Nat.sub_self]
  unfold dropEnd at *
  simp [hlast, hline]

end Split

section Segments

variable {i : Nat} {front back cs seg : List Char} {segs : List (List Char)} {s : SourceText}

theorem endsInFeeds_append (hfront : endsInFeeds front)
    (h : ∀ c ∈ cs, isLineEnd c → c = '\n') : endsInFeeds (front ++ cs) := by
  have hcons {c : Char} {cs : List Char} (hc : c == '\n' || !isLineEnd c)
      (hcs : endsInFeeds cs) : endsInFeeds (c :: cs) := by
    rw [endsInFeeds, hc, hcs]
    · rfl
    · rintro _ rfl
      cases hc
  fun_induction endsInFeeds front with
  | case1 =>
    induction cs with
    | nil => rfl
    | cons c cs ih =>
      obtain ⟨hc, hcs⟩ := forall_mem_cons.mp h
      refine hcons ?_ (ih hcs)
      cases hend : isLineEnd c with
      | false => simp
      | true => simp [hc hend]
  | case2 front ih => exact ih hfront
  | case3 c front hpair ih =>
    obtain ⟨hc, hfront⟩ := Bool.and_eq_true_iff.mp hfront
    exact hcons hc (ih hfront)

/-- A text as its parts between line feeds. -/
theorem exists_segments (h : ∀ c ∈ cs, isLineEnd c → c = '\n') :
    ∃ segs, segs ≠ [] ∧ ['\n'].intercalate segs = cs ∧
      ∀ seg ∈ segs, ∀ c ∈ seg, isLineEnd c = false := by
  induction cs with
  | nil => exact ⟨[[]], by simp, rfl, by simp⟩
  | cons c cs ih =>
    obtain ⟨hc, hcs⟩ := forall_mem_cons.mp h
    obtain ⟨segs, hne, rfl, hsegs⟩ := ih hcs
    obtain ⟨seg, segs, rfl⟩ := exists_cons_of_ne_nil hne
    cases hend : isLineEnd c with
    | true =>
      cases hc hend
      exact ⟨[] :: seg :: segs, by simp, by simp, forall_mem_cons.mpr ⟨by simp, hsegs⟩⟩
    | false =>
      obtain ⟨hseg, hsegs⟩ := forall_mem_cons.mp hsegs
      refine ⟨(c :: seg) :: segs, by simp, ?_, forall_mem_cons.mpr ⟨?_, hsegs⟩⟩
      · cases segs <;> simp
      · exact forall_mem_cons.mpr ⟨hend, hseg⟩

theorem count_segments (hne : segs ≠ []) (hsegs : ∀ seg ∈ segs, '\n' ∉ seg) :
    (['\n'].intercalate segs).count '\n' + 1 = segs.length := by
  induction segs with
  | nil => exact absurd rfl hne
  | cons seg segs ih =>
    obtain ⟨hseg, hsegs⟩ := forall_mem_cons.mp hsegs
    cases segs with
    | nil => simpa using count_eq_zero.mpr hseg
    | cons seg' segs =>
      rw [intercalate_cons_cons]
      simp [count_eq_zero.mpr hseg, ← ih (by simp) hsegs]

theorem lastLine_segments (hsegs : ∀ seg ∈ segs, '\n' ∉ seg) (hi : i + 1 = segs.length) :
    lastLine (front ++ ['\n'].intercalate segs) =
      (if i = 0 then lastLine front else []) ++ segs[i] := by
  induction segs generalizing front i with
  | nil => cases hi
  | cons seg segs ih =>
    obtain ⟨hseg, hsegs⟩ := forall_mem_cons.mp hsegs
    cases segs with
    | nil =>
      cases hi
      simpa using lastLine_append front hseg
    | cons seg' segs =>
      obtain ⟨i, rfl⟩ : ∃ j, i = j + 1 := ⟨segs.length, by simpa using hi⟩
      have hlast := @ih i (front ++ (seg ++ ['\n'])) hsegs (by simpa using hi)
      rw [← append_assoc front seg, lastLine_append_feed] at hlast
      rw [intercalate_cons_cons]
      simpa [lastLine] using hlast

/-- The lines of a text with parts between line feeds. -/
theorem lineIn?_segment (hfront : endsInFeeds front)
    (hsegs : ∀ seg ∈ segs, ∀ c ∈ seg, isLineEnd c = false) (hlast : segs.getLast? ≠ some [])
    (htext : s.text.toList = front ++ (['\n'].intercalate segs ++ back)) (hi : i < segs.length) :
    SourceText.lineIn? s.lines (front.count '\n' + 1 + i) =
      some (String.ofList ((if i = 0 then lastLine front else []) ++
        (segs[i] ++ if i + 1 = segs.length then firstLine back else []))) := by
  induction segs generalizing front i with
  | nil => simp at hi
  | cons seg segs ih =>
    obtain ⟨hseg, hsegs⟩ := forall_mem_cons.mp hsegs
    have hfirst (cs : List Char) : firstLine (seg ++ cs) = seg ++ firstLine cs :=
      takeWhile_append_of_pos fun c hc => by rw [hseg c hc]; rfl
    cases segs with
    | nil =>
      obtain rfl : i = 0 := by simpa using hi
      have hne : seg ++ back ≠ [] := by
        intro h
        exact hlast (by rw [append_eq_nil_iff.mp h |>.1]; rfl)
      have hline := lineIn?_behind hfront hne (by simpa using htext)
      simpa [hfirst] using hline
    | cons seg' segs =>
      rw [intercalate_cons_cons] at htext
      cases i with
      | zero =>
        have hline := @lineIn?_behind front (seg ++ '\n' :: (['\n'].intercalate (seg' :: segs) ++ back))
          s hfront (by simp) (by simpa using htext)
        rw [hfirst] at hline
        simpa [firstLine, isLineEnd_feed] using hline
      | succ i =>
        have hfront' : endsInFeeds (front ++ (seg ++ ['\n'])) :=
          endsInFeeds_append hfront fun c hc hend => by
            rcases mem_append.mp hc with hc | hc
            · rw [hseg c hc] at hend
              cases hend
            · exact mem_singleton.mp hc
        have hline := @ih i (front ++ (seg ++ ['\n'])) hfront' hsegs (by simpa using hlast)
          (by simpa using htext) (by simpa using hi)
        rw [← append_assoc front seg, lastLine_append_feed] at hline
        have hseg' : seg.count '\n' = 0 := count_eq_zero.mpr fun h => by cases hseg _ h
        simpa [lastLine, hseg', Nat.add_assoc, Nat.add_comm, Nat.add_left_comm] using hline

end Segments

end Text.Lines

namespace SourceText

open Text.Lines Text.CharClass

variable {front cs back : List Char} {s : SourceText}

theorem slice_cast (cs : List Char) (a b : Nat) :
    slice cs a b = String.ofList ((cs.take b).drop a) := by
  unfold slice
  dsimp only
  rw [if_neg (by omega), if_neg (by omega), Int.toNat_natCast, Int.toNat_natCast]

/-- The parts of a text between line feeds are what is between its first and its last place. -/
theorem between_segments {segs : List (List Char)} (hfront : endsInFeeds front)
    (hsegs : ∀ seg ∈ segs, ∀ c ∈ seg, isLineEnd c = false) (hlast : segs.getLast? ≠ some [])
    (htext : s.text.toList = front ++ (['\n'].intercalate segs ++ back)) (hne : segs ≠ []) :
    s.between (front.count '\n' + 1 : Nat) ((lastLine front).length + 1 : Nat)
      (front.count '\n' + segs.length : Nat)
      (lastLine (front ++ ['\n'].intercalate segs)).length =
    "\n".intercalate (segs.map String.ofList) := by
  have hfeeds : ∀ seg ∈ segs, '\n' ∉ seg := fun seg hseg hmem => by cases hsegs seg hseg _ hmem
  have hline (i : Nat) (hi : i < segs.length) : (s.lineAt (front.count '\n' + 1 + i)).toList =
      (if i = 0 then lastLine front else []) ++
        (segs[i] ++ if i + 1 = segs.length then firstLine back else []) := by
    rw [lineAt, lineIn?_segment hfront hsegs hlast htext hi, Option.getD_some, String.toList_ofList]
  have hstart : (((lastLine front).length + 1 : Nat) : Int) - 1 = (lastLine front).length := by omega
  have hlength : 0 < segs.length := length_pos_iff.mpr hne
  have hstop := @lastLine_segments (segs.length - 1) front segs hfeeds (by omega)
  unfold between
  dsimp only
  rw [hstop, hstart]
  by_cases hone : segs.length = 1
  · obtain ⟨seg, rfl⟩ := length_eq_one_iff.mp hone
    rw [if_pos (by simp), Int.toNat_natCast, hline 0 (by simp), slice_cast]
    simp [← append_assoc]
  · rw [if_neg (by omega)]
    congr 1
    apply ext_getElem
    · simp only [length_map, length_range]
      omega
    intro i hi _
    have hi' : i < segs.length := by simp at hi; omega
    have hat : ((front.count '\n' + 1 : Nat) + (i : Nat) : Int).toNat = front.count '\n' + 1 + i := by
      omega
    rw [getElem_map, getElem_map, getElem_range, hat, hline i hi']
    by_cases hzero : i = 0
    · subst hzero
      rw [if_pos rfl, if_pos rfl, if_neg (by omega), slice_cast, append_nil, take_length,
        drop_left]
    · rw [if_neg hzero, if_neg hzero]
      by_cases hend : i + 1 = segs.length
      · rw [if_pos (by omega), if_pos hend, if_neg (by omega)]
        obtain rfl : segs.length - 1 = i := by omega
        exact (slice_cast _ 0 _).trans (by simp)
      · rw [if_neg (by omega), if_neg hend]
        simp

/-- A text whose lines end in line feeds is what its range covers, behind such a text too. -/
theorem textOf_behind (hfront : endsInFeeds front)
    (hcs : ∀ c ∈ cs, isLineEnd c → c = '\n') (hlast : ∀ c, cs.getLast? = some c → c ≠ '\n')
    (hne : cs ≠ []) (htext : s.text.toList = front ++ (cs ++ back)) :
    s.textOf (.behind front) (.behind (front ++ cs.dropLast)) = String.ofList cs := by
  obtain ⟨segs, hsegs, hjoined, hends⟩ := exists_segments hcs
  have hfeeds : ∀ seg ∈ segs, '\n' ∉ seg := fun seg hseg hmem => by cases hends seg hseg _ hmem
  have hlength : 0 < segs.length := length_pos_iff.mpr hsegs
  have hcount := count_segments hsegs hfeeds
  obtain ⟨init, c, rfl⟩ : ∃ init c, cs = init ++ [c] := ⟨_, _, (dropLast_concat_getLast hne).symm⟩
  have hc : c ≠ '\n' := hlast c (by simp)
  have hbehind (front : List Char) : lastLine (front ++ (init ++ [c])) =
      lastLine (front ++ init) ++ [c] := by
    rw [← append_assoc, lastLine_append _ (by simpa using hc.symm)]
  have hfilled : segs.getLast? ≠ some [] := by
    intro hempty
    have hline := @lastLine_segments (segs.length - 1) [] segs hfeeds (by omega)
    rw [getLast?_eq_getElem?, getElem?_eq_getElem (by omega)] at hempty
    rw [hjoined, hbehind, Option.some.inj hempty] at hline
    simp [lastLine] at hline
  have hcovered := between_segments hfront hends hfilled (by rwa [hjoined]) hsegs
  rw [hjoined, count_append, count_singleton, if_neg (by simpa using hc)] at hcount
  rw [hjoined, hbehind, ← hcount] at hcovered
  have htexts : "\n".intercalate (segs.map String.ofList) = String.ofList (init ++ [c]) := by
    rw [← String.toList_inj, String.toList_intercalate, map_map, ← hjoined,
      @String.toList_ofList (['\n'].intercalate segs)]
    exact congrArg _ ((map_congr_left fun seg _ => String.toList_ofList).trans (map_id segs))
  rw [htexts] at hcovered
  rw [textOf, dropLast_concat]
  simpa [Position.behind, lastLine, Nat.add_assoc] using hcovered

end SourceText

namespace Token

open Text.Lines Text.CharClass

theorem Cut.exists_of_mem {file : String} {before final : List Char} {ps : List Piece}
    {ts : List Token} {t : Token} (h : Cut file before ps final ts) (ht : t ∈ ts) :
    ∃ front slice back, before ++ joined ps final = front ++ (slice ++ back) ∧
      Writes slice (symbol t) ∧ t.span = ⟨file, .behind front, .behind (front ++ slice.dropLast)⟩ := by
  induction h with
  | done => cases ht
  | @token before final p ps t' ts hgap hwrites hspan h ih =>
    rw [joined_cons]
    rcases mem_cons.mp ht with rfl | ht
    · exact ⟨before ++ p.gap, p.text, joined ps final, by simp, hwrites, hspan⟩
    · obtain ⟨front, slice, back, hsplit, hslice⟩ := ih ht
      exact ⟨front, slice, back, by rw [← hsplit]; simp, hslice⟩

/-- Every token was read from characters of the text, between the places that its span counts in line
feeds. If the lines before it end in these, the line with the number of its first line is the one it
starts in; if its own lines do so too, its span covers just its characters. -/
theorem tokens_excerpted {file text : String} {tokens : List Token} {t : Token}
    (h : Stream.ofText file text = .ok tokens) (ht : t ∈ tokens) (hk : t.kind ≠ .endMark) :
    ∃ front slice back, text.toList = front ++ (slice ++ back) ∧ Writes slice (symbol t) ∧
      t.span = ⟨file, .behind front, .behind (front ++ slice.dropLast)⟩ ∧
      (endsInFeeds front = true →
        SourceText.lineIn? (SourceText.mk text file).lines t.span.start.line =
          some (String.ofList (lastLine front ++ firstLine (slice ++ back))) ∧
        ((∀ c ∈ slice, isLineEnd c = true → c = '\n') →
          (SourceText.mk text file).textOf t.span.start t.span.stop = String.ofList slice)) := by
  obtain ⟨hfaults, -, rfl⟩ := ofText_ok h
  obtain ⟨ps, final, hjoined, hcut⟩ := @cut_lexemes file _ _ [] hfaults
  have ht : t ∈ (Stream.place file .start (Lexeme.ofText {} text.toList).1).1 := by
    rcases List.mem_append.mp ht with ht | ht
    · exact ht
    · cases List.mem_singleton.mp ht
      exact absurd rfl hk
  obtain ⟨front, slice, back, hsplit, hwrites, hspan⟩ := hcut.exists_of_mem ht
  rw [List.nil_append, hjoined] at hsplit
  refine ⟨front, slice, back, hsplit, hwrites, hspan, fun hfront => ?_⟩
  rw [hspan]
  exact ⟨lineIn?_behind hfront (by simp [hwrites.ne_nil]) hsplit, fun hslice =>
    SourceText.textOf_behind hfront hslice hwrites.getLast_ne hwrites.ne_nil hsplit⟩

/-- A template over two lines, behind a line that ends in two characters. -/
def twoLines : String := "a\r\n  \x60b\nc\x60"

/-- The template starts in the second line, and its characters are what its span covers. -/
theorem two_lines_excerpted :
    ∃ tokens t, Stream.ofText "m" twoLines = .ok tokens ∧ t ∈ tokens ∧
      t = ⟨.templateWhole, "b\nc", ⟨"m", ⟨2, 3⟩, ⟨3, 2⟩⟩⟩ ∧
      endsInFeeds "a\r\n  ".toList = true ∧
      SourceText.lineIn? (SourceText.mk twoLines "m").lines 2 = some "  \x60b" ∧
      (SourceText.mk twoLines "m").textOf ⟨2, 3⟩ ⟨3, 2⟩ = "\x60b\nc\x60" := by
  have hrun : (Stream.ofText "m" twoLines).toOption.bind (·[1]?) =
      some ⟨.templateWhole, "b\nc", ⟨"m", ⟨2, 3⟩, ⟨3, 2⟩⟩⟩ := by decide +kernel
  cases h : Stream.ofText "m" twoLines with
  | error ds => rw [h] at hrun; cases hrun
  | ok tokens =>
    rw [h] at hrun
    have ht := List.mem_of_getElem? hrun
    obtain ⟨front, slice, back, htext, -, hspan, hfound⟩ := tokens_excerpted h ht (by decide)
    obtain ⟨hstart, hstop⟩ : Position.behind front = ⟨2, 3⟩ ∧
        Position.behind (front ++ slice.dropLast) = ⟨3, 2⟩ := by
      simpa using hspan.symm
    -- only one part of the text ends at each of the two places
    obtain rfl : front = "a\r\n  ".toList := by
      have hall : ∀ cs ∈ twoLines.toList.inits, Position.behind cs = ⟨2, 3⟩ →
          cs = "a\r\n  ".toList := by decide +kernel
      exact hall front ((List.mem_inits _ _).mpr ⟨_, htext.symm⟩) hstart
    obtain ⟨rfl, rfl⟩ : slice = "\x60b\nc\x60".toList ∧ back = [] := by
      have hall : ∀ cs ∈ "\x60b\nc\x60".toList.inits,
          Position.behind ("a\r\n  ".toList ++ cs.dropLast) = ⟨3, 2⟩ →
          cs = "\x60b\nc\x60".toList := by decide +kernel
      have hsplit : twoLines.toList = "a\r\n  ".toList ++ "\x60b\nc\x60".toList := by decide
      have hrest := (List.append_cancel_left (hsplit.symm.trans htext)).symm
      have hslice := hall slice ((List.mem_inits _ _).mpr ⟨_, hrest⟩) hstop
      rw [hslice] at hrest
      exact ⟨hslice, List.append_right_eq_self.mp hrest⟩
    have hfeeds : endsInFeeds "a\r\n  ".toList = true := by decide
    obtain ⟨hline, hcovered⟩ := hfound hfeeds
    have hinner : ("\x60b\nc\x60".toList.all fun c => !isLineEnd c || c == '\n') = true := by decide
    exact ⟨tokens, _, rfl, ht, rfl, hfeeds, hline, hcovered fun c hc hend => by
      simpa [hend] using List.all_eq_true.mp hinner c hc⟩

/-- A line that ends in a form feed is no line of the positions: behind it nothing of a token is found
at its span. -/
theorem form_feed_misplaces :
    (Stream.ofText "m" "/*\x0c*/ x").toOption.bind (·[0]?) =
        some ⟨.identifier, "x", ⟨"m", ⟨1, 7⟩, ⟨1, 7⟩⟩⟩ ∧
      SourceText.lineIn? (SourceText.mk "/*\x0c*/ x" "m").lines 1 = some "/*" ∧
      (SourceText.mk "/*\x0c*/ x" "m").textOf ⟨1, 7⟩ ⟨1, 7⟩ = "" := by
  decide +kernel

end Token

end StepBinding
