import StepBinding.Proofs.Compile.Relocated
import StepBinding.Proofs.Token.Respaced

/-! Layout does not matter. The result for a token stream depends only on its symbols, apart from
places: the tokens are those with the same symbols at numbered places, moved to where they stand.
Since other layout between the tokens of a text keeps its symbols, it keeps the result. -/

namespace StepBinding

open List Token Construct

namespace Compile

variable {settings : LowerSettings} {file text text' : String} {tokens tokens' : List Token}

/-- Symbols at numbered places, all before the first line. -/
def numbered (file : String) (ss : List Symbol) : List Token :=
  ss.mapIdx fun i s => ⟨s.1, s.2, .point file ⟨0, i + 1⟩⟩

/-- The start that belongs to a numbered place. All other places go behind the lines up to `bound`,
where nothing else is, so that the order of places stays. -/
def startOf (bound : Nat) (tokens : List Token) : Position → Position
  | ⟨0, 0⟩ => ⟨0, 0⟩
  | ⟨0, i + 1⟩ => (tokens[i]?.map fun t => t.span.start).getD ⟨bound + 1, i⟩
  | ⟨line + 1, column⟩ => ⟨bound + 2 + line, column⟩

/-- The end that belongs to a numbered place. -/
def stopOf (tokens : List Token) : Position → Position
  | ⟨0, i + 1⟩ => (tokens[i]?.map fun t => t.span.stop).getD ⟨0, i + 1⟩
  | p => p

/-- Moves numbered places to the places of tokens. -/
def relocation (bound : Nat) (tokens : List Token) : Change where
  span s := ⟨s.file, startOf bound tokens s.start, stopOf tokens s.stop⟩
  through _ _ := rfl

theorem map_relocation (bound : Nat) (hfile : ∀ t ∈ tokens, t.span.file = file) :
    (numbered file (tokens.map symbol)).map (relocation bound tokens).token = tokens := by
  refine ext_getElem? fun i => ?_
  simp only [numbered, getElem?_map, getElem?_mapIdx]
  cases ht : tokens[i]? with
  | none => rfl
  | some t =>
    simp only [Option.map_some, Option.some.injEq]
    have := hfile t (mem_of_getElem? ht)
    obtain ⟨kind, text, f, start, stop⟩ := t
    simp_all [relocation, Change.token, symbol, Span.point, startOf, stopOf]

theorem startOf_before (bound : Nat) (hordered : Ordered file tokens)
    (hbound : ∀ t ∈ tokens, t.span.start.line ≤ bound) {p q : Position} (h : p.before q) :
    (startOf bound tokens p).before (startOf bound tokens q) := by
  rw [Position.before_iff] at h ⊢
  have hsome {i : Nat} {t : Token} (ht : tokens[i]? = some t) :
      0 < t.span.start.line ∧ t.span.start.line ≤ bound :=
    ⟨hordered.line_pos t (mem_of_getElem? ht), hbound t (mem_of_getElem? ht)⟩
  match p, q, h with
  | ⟨0, 0⟩, ⟨0, j + 1⟩, _ =>
    cases ht : tokens[j]? with
    | none => simp [startOf, ht]
    | some t => exact .inl (by simpa [startOf, ht] using (hsome ht).1)
  | ⟨0, 0⟩, ⟨line + 1, column⟩, _ => exact .inl (by simp only [startOf]; omega)
  | ⟨0, i + 1⟩, ⟨0, j + 1⟩, h =>
    have hij : i < j := by simpa using h
    cases hu : tokens[j]? with
    | none =>
      cases ht : tokens[i]? with
      | none => exact .inr (by simpa [startOf, ht, hu] using hij)
      | some t =>
        have := (hsome ht).2
        exact .inl (by simp only [startOf, ht, hu, Option.map_some, Option.map_none,
          Option.getD_some, Option.getD_none]; omega)
    | some u =>
      obtain ⟨hj, rfl⟩ := List.getElem?_eq_some_iff.mp hu
      have hi : i < tokens.length := by omega
      have hsorted := pairwise_iff_getElem.mp hordered.sorted i j hi hj hij
      rw [Position.before_iff] at hsorted
      simpa [startOf, hi, hj] using hsorted
  | ⟨0, i + 1⟩, ⟨line + 1, column⟩, _ =>
    cases ht : tokens[i]? with
    | none => exact .inl (by simp only [startOf, ht, Option.map_none, Option.getD_none]; omega)
    | some t =>
      have := (hsome ht).2
      exact .inl (by simp only [startOf, ht, Option.map_some, Option.getD_some]; omega)
  | ⟨line + 1, column⟩, ⟨line' + 1, column'⟩, h =>
    simp only [startOf] at h ⊢
    omega

theorem exists_bound (ts : List Token) : ∃ bound, ∀ t ∈ ts, t.span.start.line ≤ bound := by
  induction ts with
  | nil => exact ⟨0, nofun⟩
  | cons t ts ih =>
    obtain ⟨bound, hbound⟩ := ih
    refine ⟨bound + t.span.start.line, forall_mem_cons.mpr ⟨by omega, fun u hu => ?_⟩⟩
    have := hbound u hu
    omega

theorem rigid_relocation (bound : Nat) (hordered : Ordered file tokens)
    (hbound : ∀ t ∈ tokens, t.span.start.line ≤ bound) : (relocation bound tokens).Rigid where
  default := rfl
  before a b := by
    have hmono {p q : Position} := @startOf_before file tokens bound hordered hbound p q
    rcases Position.before_or_eq a.start b.start with h | h | h
    · rw [h]
      exact hmono h
    · simp only [relocation, h, Position.before_irrefl]
    · rw [Position.before_asymm h]
      exact Position.before_asymm (hmono h)

/-- Apart from places, the result depends on the symbols only. -/
theorem resultOf_symbols (hvalid : ∃ ts stop, tokens = ts ++ [stop] ∧ stop.kind = .endMark ∧
      ∀ t ∈ ts, Stream.Valid t) (hordered : Ordered file tokens) (hordered' : Ordered file tokens')
    (hsymbols : tokens'.map symbol = tokens.map symbol) (settings : LowerSettings) :
    (resultOf settings file tokens').map Result.unplaced =
      (resultOf settings file tokens).map Result.unplaced := by
  have hcanonical := (valid_map (relocation 0 tokens)).mp
    ((map_relocation 0 hordered.file_eq).symm ▸ hvalid)
  have hnumbered {ts : List Token} (h : Ordered file ts) (hts : ts.map symbol = tokens.map symbol) :
      (resultOf settings file ts).map Result.unplaced =
        (resultOf settings file (numbered file (tokens.map symbol))).map Result.unplaced := by
    obtain ⟨bound, hbound⟩ := exists_bound ts
    have hmoved := @resultOf_moved settings file _ (rigid_relocation bound h hbound) _ hcanonical
    rwa [← hts, map_relocation bound h.file_eq, hts] at hmoved
  rw [hnumbered hordered rfl, hnumbered hordered' hsymbols]

/-- Other layout between the tokens of a text changes nothing but places: the text has the same
symbols, and with all settings it has the same code, diagnostics and records. -/
theorem transform_respaced {ts : List Token} {stop : Token} {ps ps' : List Piece}
    {final final' : List Char} (h : Stream.ofText file text = .ok (ts ++ [stop]))
    (htext : text.toList = joined ps final) (hcut : Cut file [] ps final ts)
    (hspaced : Respaced ps final ps' final') (htext' : text'.toList = joined ps' final') :
    ∃ tokens, Stream.ofText file text' = .ok tokens ∧
      tokens.map symbol = (ts ++ [stop]).map symbol ∧
      ∀ settings, (transform settings file text').map Result.unplaced =
        (transform settings file text).map Result.unplaced := by
  obtain ⟨tokens, htokens, hsymbols⟩ := Stream.ofText_respaced h htext hcut hspaced htext'
  refine ⟨tokens, htokens, hsymbols, fun settings => ?_⟩
  rw [transform_eq htokens, transform_eq h]
  exact resultOf_symbols (Stream.ofText_valid h) (Stream.ofText_ordered h)
    (Stream.ofText_ordered htokens) hsymbols settings

theorem division_respaced :
    ∃ ts stop, Stream.ofText "m" "x=1/2//e" = .ok (ts ++ [stop]) ∧
      ∃ tokens, Stream.ofText "m" "x\t=\n1 /**/ / 2//e" = .ok tokens ∧
        tokens.map symbol = (ts ++ [stop]).map symbol ∧
        ∀ settings, (transform settings "m" "x\t=\n1 /**/ / 2//e").map Result.unplaced =
          (transform settings "m" "x=1/2//e").map Result.unplaced := by
  have h : Stream.ofText "m" "x=1/2//e" =
      .ok ([⟨.identifier, "x", ⟨"m", ⟨1, 1⟩, ⟨1, 1⟩⟩⟩, ⟨.assign, "=", ⟨"m", ⟨1, 2⟩, ⟨1, 2⟩⟩⟩,
        ⟨.number, "1", ⟨"m", ⟨1, 3⟩, ⟨1, 3⟩⟩⟩, ⟨.slash, "/", ⟨"m", ⟨1, 4⟩, ⟨1, 4⟩⟩⟩,
        ⟨.number, "2", ⟨"m", ⟨1, 5⟩, ⟨1, 5⟩⟩⟩] ++ [⟨.endMark, "", ⟨"m", ⟨1, 9⟩, ⟨1, 8⟩⟩⟩]) := by
    decide +kernel
  have hnumber (c : Char) (hc : Text.CharClass.isDigit c = true) :
      Writes [c] (.number, .ofChars [c]) :=
    .number (@Numeral.decimal [c] [] [] (List.forall_mem_singleton.mpr hc) (.inl rfl) (.inl rfl)
      (by rintro ⟨⟩))
  have hword : Writes ['x'] (.identifier, "x") := .word ⟨'x', [], rfl, by decide, by simp⟩
  have hassign : Writes ['='] (.assign, "=") := .mark (by decide)
  have hslash : Writes ['/'] (.slash, "/") := .mark (by decide)
  have hcomment : Layout [' ', '/', '*', '*', '/', ' '] :=
    .blank rfl (@Layout.block [] [' '] (by decide) (.blank rfl .nil))
  have hspaced : Respaced [⟨[], ['x']⟩, ⟨[], ['=']⟩, ⟨[], ['1']⟩, ⟨[], ['/']⟩, ⟨[], ['2']⟩]
      ['/', '/', 'e'] [⟨[], ['x']⟩, ⟨['\t'], ['=']⟩, ⟨['\n'], ['1']⟩,
        ⟨[' ', '/', '*', '*', '/', ' '], ['/']⟩, ⟨[' '], ['2']⟩] ['/', '/', 'e'] := by
    refine ⟨rfl, ?_, ?_, .inl rfl⟩
    · simpa using ⟨Layout.nil, Layout.blank rfl .nil, Layout.blank rfl .nil, hcomment,
        Layout.blank rfl .nil⟩
    · simp [isBlank]
  refine ⟨_, _, h, transform_respaced h rfl ?_ hspaced rfl⟩
  exact .token .nil hword rfl <| .token .nil hassign rfl <| .token .nil (hnumber '1' rfl) rfl <|
    .token .nil hslash rfl <| .token .nil (hnumber '2' rfl) rfl <|
      .done (.inr ⟨[], ['e'], rfl, .nil, by decide⟩)

end Compile

end StepBinding
