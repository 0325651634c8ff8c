import StepBinding.Proofs.Token.Layout

/-! Texts that differ in their layout. The tokens of a text start one behind the other, and their
places determine how the text is cut. If the layout between the tokens is replaced by other layout
that starts with a blank, the symbols of the text stay. -/

namespace StepBinding

open List

namespace Position

variable {p q r : Position}

theorem before_iff : p.before q ↔ p.line < q.line ∨ p.line = q.line ∧ p.column < q.column := by
  simp [before]

theorem before_trans (h : p.before q) (h' : q.before r) : p.before r := by
  rw [before_iff] at *
  omega

theorem before_irrefl (p : Position) : p.before p = false := by
  rw [Bool.eq_false_iff, Ne, before_iff]
  omega

theorem before_asymm (h : p.before q) : q.before p = false := by
  rw [Bool.eq_false_iff, Ne, before_iff]
  rw [before_iff] at h
  omega

theorem before_or_eq (p q : Position) : p.before q ∨ p = q ∨ q.before p := by
  obtain ⟨l, c⟩ := p
  obtain ⟨l', c'⟩ := q
  simp only [before_iff, mk.injEq]
  omega

theorem before_next (p : Position) (c : Char) : p.before (p.next c) := by
  rw [before_iff]
  unfold next
  split <;> simp

theorem behind_before {text : List Char} (before : List Char) (h : text ≠ []) :
    (behind before).before (behind (before ++ text)) := by
  rw [behind_append]
  generalize behind before = p
  induction text generalizing p with
  | nil => exact absurd rfl h
  | cons c text ih =>
    cases text with
    | nil => exact p.before_next c
    | cons d text => exact before_trans (p.before_next c) (ih nofun (p.next c))

/-- A place determines the text in front of it. -/
theorem eq_of_behind_eq {front back front' back' : List Char} (h : front ++ back = front' ++ back')
    (hplace : behind front = behind front') : front = front' := by
  have hlong {front text : List Char} (h : behind front = behind (front ++ text)) : text = [] := by
    cases text with
    | nil => rfl
    | cons c text =>
      have hbefore := behind_before front (cons_ne_nil c text)
      rw [← h, before_irrefl] at hbefore
      cases hbefore
  rcases append_eq_append_iff.mp h with ⟨text, rfl, -⟩ | ⟨text, rfl, -⟩
  · rw [hlong hplace, append_nil]
  · rw [hlong hplace.symm, append_nil]

end Position

namespace Token

open Text.CharClass

variable {file : String} {before final final' : List Char} {ps ps' : List Piece} {ts : List Token}
  {n m : Nesting} {ss : List Symbol}

/-- The tokens of a text determine how it is cut. -/
theorem Cut.unique (h : Cut file before ps final ts) (h' : Cut file before ps' final' ts)
    (hjoined : joined ps final = joined ps' final') : ps = ps' ∧ final = final' := by
  induction h generalizing ps' with
  | done => cases h' with
    | done => exact ⟨rfl, hjoined⟩
  | @token before final p ps t ts hgap hwrites hspan h ih =>
    cases h' with
    | @token _ _ p' ps' _ _ hgap' hwrites' hspan' h' =>
      rw [hspan] at hspan'
      simp only [Span.mk.injEq, true_and] at hspan'
      obtain ⟨hstart, hstop⟩ := hspan'
      obtain ⟨gap, text⟩ := p
      obtain ⟨gap', text'⟩ := p'
      dsimp only at hwrites hwrites' hstart hstop hgap h h' ih
      rw [joined_cons, joined_cons] at hjoined
      dsimp only at hjoined
      have hgaps : before ++ gap = before ++ gap' := by
        refine @Position.eq_of_behind_eq _ (text ++ joined ps final) _ (text' ++ joined ps' final')
          ?_ hstart
        rw [append_assoc, append_assoc, hjoined]
      obtain rfl := append_cancel_left hgaps
      replace hjoined := append_cancel_left hjoined
      have hsplit {text : List Char} (hne : text ≠ []) (rest : List Char) :
          before ++ gap ++ text.dropLast ++ ([text.getLast hne] ++ rest) =
            before ++ gap ++ (text ++ rest) := by
        rw [← append_assoc, append_assoc (before ++ gap), dropLast_concat_getLast, append_assoc]
      have hinit : text.dropLast = text'.dropLast := by
        refine append_cancel_left (@Position.eq_of_behind_eq _
          ([text.getLast hwrites.ne_nil] ++ joined ps final) _
          ([text'.getLast hwrites'.ne_nil] ++ joined ps' final') ?_ hstop)
        rw [hsplit, hsplit, hjoined]
      have hlength : text.length = text'.length := by
        have hpos := length_pos_iff.mpr hwrites.ne_nil
        have hpos' := length_pos_iff.mpr hwrites'.ne_nil
        have := congrArg List.length hinit
        simp only [length_dropLast] at this
        omega
      obtain ⟨rfl, hrest⟩ := append_inj hjoined hlength
      obtain ⟨rfl, rfl⟩ := ih h' hrest
      exact ⟨rfl, rfl⟩

/-- The same texts of tokens with other layout. Behind every token but the last one it starts with a
blank; behind the last one it stays or starts with a blank, too. -/
structure Respaced (ps : List Piece) (final : List Char) (ps' : List Piece) (final' : List Char) :
    Prop where
  texts : ps'.map Piece.text = ps.map Piece.text
  layout : ∀ p ∈ ps', Layout p.gap
  between : ∀ p ∈ ps'.tail, ∃ c ∈ p.gap.head?, isBlank c = true
  trailing : final' = final ∨ Trailing final' ∧ ∀ c ∈ final'.head?, isBlank c = true

/-- A blank after a symbol, or nothing, does not change it. -/
theorem ReadsAs.blank {c : Char} {later rest rest' : List Char} {s : Symbol}
    (h : ReadsAs n c later rest s m) (hrest : ∀ d ∈ rest'.head?, isBlank d) :
    ReadsAs n c later rest' s m := by
  have hstep := (writes_of_reading h.token h.faults).2
  rw [h.nesting] at hstep
  have hapart (x : Char) : Apart x rest' := by
    cases rest' with
    | nil => exact trivial
    | cons d rest' => exact apart_of_breaks (breaks_of_isBlank (hrest d rfl)) x rest'
  obtain ⟨c', later', hcons, hread⟩ := h.writes.reading hstep fun x _ => hapart x
  cases hcons
  constructor <;> simp [hread]

theorem Reads.respaced (h : Reads n ps final ss m) (hspaced : Respaced ps final ps' final') :
    Reads n ps' final' ss m := by
  induction h generalizing ps' with
  | done h =>
    have hnil : ps' = [] := by simpa using hspaced.texts
    subst hnil
    rcases hspaced.trailing with rfl | ⟨h', -⟩
    · exact .done h
    · exact .done h'
  | @token n n1 m gap later final c ps s ss hgap hread h ih =>
    obtain ⟨⟨gap', text'⟩, qs, rfl⟩ : ∃ p qs, ps' = p :: qs := by
      cases ps' with
      | nil => cases hspaced.texts
      | cons p qs => exact ⟨p, qs, rfl⟩
    obtain ⟨htext, htexts⟩ := cons_eq_cons.mp hspaced.texts
    dsimp only at htext
    subst htext
    obtain ⟨hlayout, hlayouts⟩ := forall_mem_cons.mp hspaced.layout
    refine .token hlayout ?_ (ih ⟨htexts, hlayouts, fun p hp => hspaced.between p
      (mem_of_mem_tail hp), hspaced.trailing⟩)
    cases qs with
    | nil =>
      have hnil : ps = [] := by simpa using htexts.symm
      subst hnil
      rcases hspaced.trailing with rfl | ⟨-, hblank⟩
      · exact hread
      · exact hread.blank hblank
    | cons q qs =>
      obtain ⟨d, hd, hblank⟩ := hspaced.between q mem_cons_self
      refine hread.blank fun x hx => ?_
      rw [joined_cons, head?_append, Option.mem_def.mp hd] at hx
      cases hx
      exact hblank

theorem Cut.starts (h : Cut file before ps final ts) :
    ∀ t ∈ ts, ∃ front back stop, joined ps final = front ++ back ∧ back ≠ [] ∧
      t.span = ⟨file, .behind (before ++ front), stop⟩ := by
  induction h with
  | done => exact nofun
  | @token before final p ps t ts hgap hwrites hspan h ih =>
    intro u hu
    rw [joined_cons]
    rcases mem_cons.mp hu with rfl | hu
    · exact ⟨p.gap, _, _, rfl, by simp [hwrites.ne_nil], hspan⟩
    · obtain ⟨front, back, stop, hjoined, hne, hspan⟩ := ih u hu
      refine ⟨p.gap ++ p.text ++ front, back, stop, by simp [hjoined], hne, ?_⟩
      simpa using hspan

theorem Cut.sorted (h : Cut file before ps final ts) :
    ts.Pairwise fun t u => t.span.start.before u.span.start := by
  induction h with
  | done => exact .nil
  | @token before final p ps t ts hgap hwrites hspan h ih =>
    refine .cons (fun u hu => ?_) ih
    obtain ⟨front, back, stop, -, -, hspan'⟩ := h.starts u hu
    rw [hspan, hspan', append_assoc (before ++ p.gap)]
    exact Position.behind_before _ (by simp [hwrites.ne_nil])

/-- Tokens of one file that start one behind the other. -/
structure Ordered (file : String) (tokens : List Token) : Prop where
  file_eq : ∀ t ∈ tokens, t.span.file = file
  line_pos : ∀ t ∈ tokens, 0 < t.span.start.line
  sorted : tokens.Pairwise fun t u => t.span.start.before u.span.start = true

theorem Ordered.sublist {tokens : List Token} (h : Ordered file tokens) (hts : ts.Sublist tokens) :
    Ordered file ts where
  file_eq t ht := h.file_eq t (hts.subset ht)
  line_pos t ht := h.line_pos t (hts.subset ht)
  sorted := h.sorted.sublist hts

namespace Stream

variable {text text' : String} {tokens : List Token} {stop : Token}

theorem ofText_ordered (h : ofText file text = .ok tokens) : Ordered file tokens := by
  obtain ⟨hfaults, -, rfl⟩ := ofText_ok h
  obtain ⟨ps, final, hjoined, hcut⟩ := @cut_lexemes file _ _ [] hfaults
  have hstarts := hcut.starts
  rw [Position.behind_nil] at hcut hstarts
  refine ⟨fun t ht => ?_, fun t ht => ?_, pairwise_append.mpr ⟨hcut.sorted, by simp, ?_⟩⟩
  · rcases mem_append.mp ht with ht | ht
    · obtain ⟨front, back, stop, -, -, hspan⟩ := hstarts t ht
      rw [hspan]
    · cases mem_singleton.mp ht
      rfl
  · rcases mem_append.mp ht with ht | ht
    · obtain ⟨front, back, stop, -, -, hspan⟩ := hstarts t ht
      rw [hspan]
      exact Nat.succ_pos _
    · cases mem_singleton.mp ht
      exact Nat.succ_pos _
  · intro t ht u hu
    cases mem_singleton.mp hu
    obtain ⟨front, back, stop, hsplit, hne, hspan⟩ := hstarts t ht
    rw [hspan, ← hjoined, hsplit]
    exact Position.behind_before front hne

/-- The symbols of a text do not depend on its layout. -/
theorem ofText_respaced (h : ofText file text = .ok (ts ++ [stop]))
    (htext : text.toList = joined ps final) (hcut : Cut file [] ps final ts)
    (hspaced : Respaced ps final ps' final') (htext' : text'.toList = joined ps' final') :
    ∃ tokens, ofText file text' = .ok tokens ∧
      tokens.map symbol = (ts ++ [stop]).map symbol := by
  obtain ⟨hfaults, hopen, htokens⟩ := ofText_ok h
  obtain ⟨rfl, hstop⟩ := append_inj' htokens rfl
  cases hstop
  obtain ⟨ps0, final0, hjoined, hreads⟩ := reads_lexemes hfaults
  obtain ⟨-, -, -, hcut0⟩ := hreads.lexemes file []
  rw [hjoined, Position.behind_nil] at hcut0
  obtain ⟨rfl, rfl⟩ := hcut0.unique hcut (hjoined.trans htext)
  obtain ⟨hsymbols, hfaults', hnesting, -⟩ := (hreads.respaced hspaced).lexemes file []
  rw [← htext'] at hsymbols hfaults' hnesting
  obtain ⟨tokens, htokens, hmap⟩ := @ofText_of_lexemes file text' hfaults' (by rw [hnesting, hopen])
  refine ⟨tokens, htokens, ?_⟩
  rw [hmap, hsymbols, map_append, map_symbol_place]
  rfl

end Stream

end Token

end StepBinding
