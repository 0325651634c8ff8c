import Mathlib.Data.List.Basic
import StepBinding.Proofs.Token.Written
import StepBinding.Tree.Print

/-! Texts that spell symbols, with blanks between them. Such texts are put together where the
last character of the one and the first characters of the other do not belong together. The
token stream of a text has the symbols that the text spells, if the braces and templates among
them match. A string in quotes spells the string. -/

namespace StepBinding.Token

open List Text.CharClass

/-- The text consists of ways to write the symbols, in this order, and blanks. -/
inductive Spells : List Char → List Symbol → Prop
  | nil : Spells [] []
  | blank {c : Char} {cs : List Char} {ss : List Symbol} (hc : isBlank c = true)
      (h : Spells cs ss) : Spells (c :: cs) ss
  | symbol {s : Symbol} {text cs : List Char} {ss : List Symbol} (hs : Writes text s)
      (hd : ∀ c ∈ text.getLast?, Apart c cs) (h : Spells cs ss) : Spells (text ++ cs) (s :: ss)

namespace Spells

variable {c d : Char} {cs ds : List Char} {s : Symbol} {ss ts : List Symbol}

/-- One symbol. -/
theorem single (hs : Writes cs s) : Spells cs [s] := by
  rw [← append_nil cs]
  exact .symbol hs (fun _ _ => trivial) .nil

end Spells

namespace Nesting

/-- The nesting after symbols of some kinds, if they can stand there. -/
def after? (n : Nesting) : List Kind → Option Nesting
  | [] => some n
  | k :: ks => (n.step? k).bind fun n' => n'.after? ks

theorem after?_append (n : Nesting) (ks ls : List Kind) :
    n.after? (ks ++ ls) = (n.after? ks).bind fun n' => n'.after? ls := by
  induction ks generalizing n with
  | nil => rfl
  | cons k ks ih => simp only [cons_append, after?, ih, Option.bind_assoc]

end Nesting

/-- The lexemes of a text have no faults, and their tokens are the symbols that the text spells. -/
theorem Spells.lexemes {cs : List Char} {ss : List Symbol} {n n' : Nesting} (h : Spells cs ss)
    (hn : n.after? (ss.map Prod.fst) = some n') :
    (Lexeme.ofText n cs).1.filterMap Lexeme.token = ss ∧
      (∀ l ∈ (Lexeme.ofText n cs).1, l.faults = []) ∧ (Lexeme.ofText n cs).2 = n' := by
  induction h generalizing n with
  | nil =>
    cases hn
    simp [Lexeme.ofText]
  | @blank c cs ss hc h ih =>
    have hreading : Reading.ofText n c cs = { nesting := n } := if_pos hc
    rw [Lexeme.ofText, hreading]
    simpa using ih hn
  | @symbol s text cs ss hs hd h ih =>
    simp only [map_cons, Nesting.after?, Option.bind_eq_some_iff] at hn
    obtain ⟨m, hstep, hn⟩ := hn
    obtain ⟨c, later, rfl, hreading⟩ := hs.reading hstep hd
    rw [cons_append, Lexeme.ofText, hreading]
    simpa using ih hn

/-- A text that spells symbols has a stream of these symbols. -/
theorem Stream.ofText_spells {file text : String} {ss : List Symbol} (h : Spells text.toList ss)
    (hn : Nesting.after? {} (ss.map Prod.fst) = some {}) :
    ∃ tokens, Stream.ofText file text = .ok tokens ∧
      tokens.map symbol = ss ++ [((.endMark, "") : Symbol)] := by
  obtain ⟨htokens, hfaults, hnesting⟩ := h.lexemes hn
  rw [← htokens]
  exact Stream.ofText_of_lexemes hfaults (by rw [hnesting])

section Quotes

open Tree.Print

variable {cs : List Char} {vs : List Nat}

/-- A character in quotes is itself or a way to escape it. -/
theorem quoteChar_append (c : Char) (hb : Body (InString '"') cs) (hv : StandsFor cs vs) :
    Body (InString '"') (quoteChar c ++ cs) ∧ StandsFor (quoteChar c ++ cs) (c.toNat :: vs) := by
  unfold quoteChar
  -- the nine characters that have a letter of their own
  iterate 9
    split
    · rename_i h
      cases beq_iff_eq.mp h
      exact ⟨.pair hb, .short (by decide) hv⟩
  split
  · rename_i h
    have hcases : ∀ k < 0x20, Text.Quoted.hexDigits 4 k =
        ['0', '0', if k < 16 then '0' else '1', Nat.digitChar (k % 16)] ∧
        isHexDigit (if k < 16 then '0' else '1') = true ∧
        isHexDigit (Nat.digitChar (k % 16)) ∧
        hexValue (if k < 16 then '0' else '1') * 16 + hexValue (Nat.digitChar (k % 16)) = k := by
      decide +kernel
    obtain ⟨hdigits, hx, hy, hvalue⟩ := hcases c.toNat h
    have hplain {d : Char} {cs : List Char} (hd : isHexDigit d)
        (hb : Body (InString '"') cs) : Body (InString '"') (d :: cs) := by
      refine .plain ?_ ⟨?_, ?_⟩ hb <;> rintro rfl <;> revert hd <;> decide
    rw [hdigits]
    refine ⟨.pair (hplain (by decide) (hplain (by decide) (hplain hx (hplain hy hb)))), ?_⟩
    have hnumber := StandsFor.number (a := '0') (b := '0') (by decide) (by decide) hx hy hv
    have hzero : hexValue '0' = 0 := by decide
    rwa [hzero, Nat.zero_mul, Nat.zero_add, hvalue] at hnumber
  · simp only [beq_iff_eq] at *
    exact ⟨.plain ‹_› ⟨‹_›, ‹_›⟩ hb, .plain ‹_› hv⟩

theorem writes_quote (s : String) : Writes (quote s).toList (.string, s) := by
  have hquoted (cs : List Char) :
      Body (InString '"') (cs.flatMap quoteChar) ∧
      StandsFor (cs.flatMap quoteChar) (cs.map Char.toNat) := by
    induction cs with
    | nil => exact ⟨.nil, .nil⟩
    | cons c cs ih => exact quoteChar_append c ih.1 ih.2
  have hwrites := Writes.string (.inl rfl) (hquoted s.toList).1 (hquoted s.toList).2
  rwa [quote, String.toList_ofList]

end Quotes

end StepBinding.Token
