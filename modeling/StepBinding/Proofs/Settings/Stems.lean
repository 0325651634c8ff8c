import Mathlib
import StepBinding.Proofs.Resolve.Fresh
import StepBinding.Proofs.Token.Layout
import StepBinding.Proofs.Token.Spells
import StepBinding.Settings

/-! Stems of fresh names. Settings are checked on their own, with a rule of their own for what an
identifier is; a program is cut into tokens by another. A text that the settings may have as their
stem makes, with any number behind it, a single identifier of a program: digits go on with a word,
and no reserved word ends with a digit. The check also lets through lists of pieces of identifiers,
which make no identifier at all. -/

namespace StepBinding.Settings

open List Text.CharClass Token

variable {s : Settings} {origin stem : String}

theorem isWord_of_isIdentifier (h : isIdentifier stem) : IsWord stem := by
  unfold isIdentifier at h
  split at h
  · cases h
  · rename_i c cs heq
    rw [Bool.and_eq_true, all_cons, Bool.and_eq_true] at h
    exact ⟨c, cs, heq, h.1, all_eq_true.mp h.2.2⟩

/-- The stem of settings that pass the check is an identifier or a list. -/
theorem stem_of_validate (h : s.validate origin = .ok ()) :
    (∃ stem, s.stem = .string stem ∧ isIdentifier stem) ∨ ∃ ds, s.stem = .list ds := by
  have hspells : spellsIdentifier s.stem = .ok true := by
    unfold validate at h
    cases hspells : spellsIdentifier s.stem with
    | error why =>
      -- the target is looked at before the stem, and a stem that is refused ends the check
      simp only [hspells] at h
      split at h
      · split at h <;> cases h
      · cases h
    | ok accepted =>
      cases accepted with
      | true => rfl
      | false =>
        simp only [hspells] at h
        split at h
        · split at h <;> cases h
        · cases h
  cases hstem : s.stem with
  | string stem =>
    rw [hstem] at hspells
    exact .inl ⟨stem, rfl, Except.ok.inj hspells⟩
  | list ds => exact .inr ⟨ds, rfl⟩
  | record fields =>
    rw [hstem] at hspells
    cases fields <;> cases hspells
  | null => rw [hstem] at hspells; cases hspells
  | boolean b => rw [hstem] at hspells; cases b <;> cases hspells
  | number n =>
    rw [hstem] at hspells
    unfold spellsIdentifier at hspells
    dsimp only at hspells
    split at hspells <;> cases hspells

theorem toList_numbered (stem : String) (n : Nat) :
    (stem ++ toString n).toList = stem.toList ++ Nat.toDigits 10 n := by
  simp [Nat.toString_eq_repr]

theorem isWordPart_of_mem_toDigits {n : Nat} {c : Char} (h : c ∈ Nat.toDigits 10 n) :
    isWordPart c := by
  have hdigit : c.isDigit := Nat.isDigit_of_mem_toDigits (by decide) (by decide) h
  simp only [Char.isDigit, Bool.and_eq_true, decide_eq_true_eq, ge_iff_le,
    UInt32.le_iff_toNat_le] at hdigit
  exact isWordPart_of_isDigit (isDigit_of_ascii hdigit)

/-- A word goes on with the digits of a number. -/
theorem isWord_numbered (h : IsWord stem) (n : Nat) : IsWord (stem ++ toString n) := by
  obtain ⟨c, cs, hstem, hc, hcs⟩ := h
  refine ⟨c, cs ++ Nat.toDigits 10 n, by rw [toList_numbered, hstem, cons_append], hc, ?_⟩
  intro d hd
  rcases mem_append.mp hd with hd | hd
  · exact hcs d hd
  · exact isWordPart_of_mem_toDigits hd

/-- No reserved word ends with a digit. -/
theorem ofWord_numbered (stem : String) (n : Nat) : Kind.ofWord (stem ++ toString n) = .identifier := by
  have hreserved : ∀ entry ∈ Kind.reserved, (entry.1.toList.getLast?.any Char.isDigit) = false := by
    decide
  have hne : Nat.toDigits 10 n ≠ [] := Nat.toDigits_ne_nil
  have hlast : (stem ++ toString n).toList.getLast?.any Char.isDigit := by
    rw [toList_numbered, getLast?_append, getLast?_eq_some_getLast hne, Option.some_or]
    exact Nat.isDigit_of_mem_toDigits (by decide) (by decide) (getLast_mem hne)
  unfold Kind.ofWord
  cases hlookup : Kind.reserved.lookup (stem ++ toString n) with
  | none => rfl
  | some k =>
    have := hreserved _ (Resolved.mem_of_lookup hlookup)
    rw [hlast] at this
    cases this

theorem isWord_of_writes {cs : List Char} {name : String} (h : Writes cs (.identifier, name)) :
    IsWord (String.ofList cs) := by
  generalize hs : ((.identifier, name) : Symbol) = symbol at h
  cases h with
  | word h => exact h
  | mark h =>
    obtain ⟨hkind, -⟩ := Prod.mk.inj hs
    have hmarks : ∀ entry ∈ Kind.marks, entry.2 ≠ .identifier := by decide
    exact absurd hkind.symm (hmarks _ h)
  | _ => cases hs

/-- A text that starts with a bracket is not read as an identifier. -/
theorem not_identifier_of_bracket {file text name : String} {span stop : Span}
    (htext : text.toList.head? = some '[') :
    Stream.ofText file text ≠ .ok [⟨.identifier, name, span⟩, ⟨.endMark, "", stop⟩] := by
  intro h
  obtain ⟨hfaults, -, htokens⟩ := ofText_ok h
  obtain ⟨ps, final, hjoined, hcut⟩ := @cut_lexemes file _ _ [] hfaults
  have hplaced := (append_inj_left' htokens rfl : [_] = _)
  rw [Position.behind_nil, ← hplaced] at hcut
  rw [← hjoined] at htext
  cases hcut with
  | @token _ _ p ps _ _ hgap hwrites hspan hcut =>
    obtain ⟨gap, word⟩ := p
    rw [joined_cons] at htext
    -- neither layout nor a word starts with the bracket
    cases hgap with
    | nil =>
      obtain ⟨c, cs, hword, hc, -⟩ := isWord_of_writes hwrites
      rw [String.toList_ofList] at hword
      dsimp only at hword htext
      rw [hword] at htext
      cases htext
      exact absurd hc (by decide)
    | blank hc => cases htext; exact absurd hc (by decide)
    | line => cases htext
    | block => cases htext

/-- The names that settings which pass the check give are texts of one identifier if the stem is a
text, and only then. -/
theorem numbered_stem_is_identifier (s : Settings) (origin file : String) (n : Nat)
    (h : s.validate origin = .ok ()) :
    (∃ span stop : Span, Stream.ofText file (s.lowering.stem ++ toString n) =
      .ok [⟨.identifier, s.lowering.stem ++ toString n, span⟩, ⟨.endMark, "", stop⟩]) ↔
      ∃ stem, s.stem = .string stem := by
  rcases stem_of_validate h with ⟨stem, hs, hstem⟩ | ⟨ds, hs⟩
  · have hlowering : s.lowering.stem = stem := by unfold lowering; rw [hs]
    rw [hlowering]
    refine iff_of_true ?_ ⟨stem, hs⟩
    have hword := isWord_numbered (isWord_of_isIdentifier hstem) n
    have hwrites : Writes (stem ++ toString n).toList (.identifier, stem ++ toString n) := by
      rw [← ofWord_numbered stem n]
      have h := @Writes.word (stem ++ toString n).toList (by rwa [String.ofList_toList])
      rwa [String.ofList_toList] at h
    obtain ⟨tokens, htokens, hsymbols⟩ :=
      @Stream.ofText_spells file _ _ (.single hwrites) rfl
    obtain ⟨word, tokens, rfl, hword, hrest⟩ := List.map_eq_cons_iff.mp hsymbols
    obtain ⟨mark, tokens, rfl, hmark, hrest⟩ := List.map_eq_cons_iff.mp hrest
    cases List.map_eq_nil_iff.mp hrest
    obtain ⟨kind, text, span⟩ := word
    obtain ⟨kind', text', stop⟩ := mark
    cases hword
    cases hmark
    exact ⟨span, stop, htokens⟩
  · refine iff_of_false ?_ (by rintro ⟨stem, hstem⟩; rw [hs] at hstem; cases hstem)
    rintro ⟨span, stop, htokens⟩
    refine not_identifier_of_bracket ?_ htokens
    simp [lowering, hs, Data.shown]

/-- Also a reserved word may be a stem. -/
theorem reserved_stem_is_identifier :
    ({ stem := .string "if" } : Settings).validate "command line" = .ok () ∧
      ∃ span stop : Span, Stream.ofText "main" ("if" ++ toString 1) =
        .ok [⟨.identifier, "if" ++ toString 1, span⟩, ⟨.endMark, "", stop⟩] :=
  have h : ({ stem := .string "if" } : Settings).validate "command line" = .ok () := by cbv
  ⟨h, (numbered_stem_is_identifier _ "command line" "main" 1 h).mpr ⟨"if", rfl⟩⟩

/-- A list of letters passes the check, and the names it gives are read as seven tokens. -/
theorem list_stem_is_no_identifier :
    let s : Settings := { stem := .list [.string "a", .string "b"] }
    s.validate "command line" = .ok () ∧ s.lowering.stem ++ toString 1 = "['a', 'b']1" ∧
      (Stream.ofText "main" "['a', 'b']1").map (fun ts => ts.map symbol) =
        .ok [(.lbracket, "["), (.string, "a"), (.comma, ","), (.string, "b"), (.rbracket, "]"),
          (.number, "1"), (.endMark, "")] :=
  ⟨by cbv, by cbv, by cbv⟩

end StepBinding.Settings
