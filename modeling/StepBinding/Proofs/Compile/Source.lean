import StepBinding.Compile
import StepBinding.Proofs.Grammar.Accepted

/-! What is read from a program text, and the parts of a result. A text that is not in the
language has an error. A module that is read is well-formed, its step bindings are numbered in
the order of the source, and if no error was met nothing in it is rejected. -/

namespace StepBinding

open List Token StepBinding.Tree Node

variable {file : String} {tokens : List Token}

namespace Token.Stream

theorem isError_place {p : Position} {ls : List Lexeme} :
    ∀ d ∈ (place file p ls).2.1, d.isError := by
  induction ls generalizing p with
  | nil => exact nofun
  | cons l ls ih =>
    intro d hd
    have hparts : d ∈ (l.faults.map fun f => Diagnostic.error .lexical f.2.message
        (Span.point file (p.after (l.text.take f.1)))) ++ (place file (p.after l.text) ls).2.1 := by
      unfold place at hd
      dsimp only at hd
      split at hd <;> exact hd
    rcases mem_append.mp hparts with h | h
    · obtain ⟨f, -, rfl⟩ := mem_map.mp h
      rfl
    · exact ih d h

/-- A text without a stream has errors only. -/
theorem exists_error_of_ofText {text : String} {ds : List Diagnostic}
    (h : ofText file text = .error ds) : ∃ d ∈ ds, d.isError := by
  have hne {fs : List Diagnostic} {ts : List Token} (hfs : ∀ d ∈ fs, d.isError)
      (h : (if fs.isEmpty then .ok ts else .error fs : Except (List Diagnostic) (List Token)) =
        .error ds) :
      ∃ d ∈ ds, d.isError := by
    cases fs with
    | nil => cases h
    | cons d fs =>
      cases h
      exact ⟨d, mem_cons_self, hfs d mem_cons_self⟩
  refine hne (fun d hd => ?_) h
  split at hd
  · exact isError_place d hd
  · rcases mem_append.mp hd with hd | hd
    · exact isError_place d hd
    · cases mem_singleton.mp hd
      rfl

end Token.Stream

namespace Grammar.Program

/-- A program without a module has an error. -/
theorem exists_error_of_ofTokens {p : Program} (h : ofTokens file tokens = .ok p)
    (hm : p.module? = none) : ∃ d ∈ p.diagnostics, d.isError := by
  unfold ofTokens at h
  dsimp only at h
  split at h
  · cases h
  rename_i body c hok
  cases h
  dsimp only at hm ⊢
  split at hm
  · rename_i hfaulty
    obtain ⟨hassignment, hstatement⟩ := rules_keeps (2 * tokens.length + 2)
    exact Cursor.Leads.honest (KeepsTo.of_ok hok) nofun hfaulty
  · cases hm

end Grammar.Program

namespace Compile

variable {settings : LowerSettings} {text : String} {source : Source} {result : Result}

/-- No error was met while a source was read. -/
def Source.Calm (source : Source) : Prop := ∀ d ∈ source.diagnostics, d.isError = false

/-- A source is well-formed, with its step bindings numbered in order. -/
structure Source.Sound (source : Source) : Prop where
  written : AllStmts (Written source.Calm) source.module.body
  sorted : (marks (walkStmts source.module.body)).Pairwise (· < ·)
  bounds : ∀ i ∈ marks (walkStmts source.module.body), i < source.log.size
  raw : source.log.Raw
  settled : ∀ i < source.log.size,
    i ∈ marks (walkStmts source.module.body) ∨ source.log.Settled i
  whole : source.Calm → marks (walkStmts source.module.body) = List.range source.log.size

theorem sound_of_ofTokens {p : Grammar.Program} {module : Module}
    (hvalid : ∃ ts stop, tokens = ts ++ [stop] ∧ stop.kind = .endMark ∧ ∀ t ∈ ts, Stream.Valid t)
    (h : Grammar.Program.ofTokens file tokens = .ok p) (hm : p.module? = some module) :
    Source.Sound { module, diagnostics := p.diagnostics, log := p.log } := by
  obtain ⟨hwritten, hsorted, hbounds, hraw, hsettled, hwhole⟩ :=
    Grammar.Program.read_ofTokens hvalid h hm
  exact ⟨hwritten, hsorted, hbounds, hraw, hsettled, hwhole⟩

/-- A program text that has been read is a source that is well-formed, or has an error. -/
theorem read_cases {outcome : Except Invalid Source} (h : read file text = .ok outcome) :
    (∃ source, outcome = .ok source ∧ source.Sound) ∨
      ∃ invalid, outcome = .error invalid ∧ ∃ d ∈ invalid.diagnostics, d.isError := by
  unfold read at h
  split at h
  · rename_i ds hstream
    cases h
    exact .inr ⟨_, rfl, Stream.exists_error_of_ofText hstream⟩
  rename_i tokens hstream
  split at h
  · cases h
  rename_i p hp
  split at h
  · rename_i hm
    cases h
    exact .inr ⟨_, rfl, Grammar.Program.exists_error_of_ofTokens hp hm⟩
  · rename_i m hm
    cases h
    exact .inl ⟨_, rfl, sound_of_ofTokens (Stream.ofText_valid hstream) hp hm⟩

theorem sound_of_read {source : Source} (h : read file text = .ok (.ok source)) : source.Sound := by
  rcases read_cases h with ⟨source', heq, hsound⟩ | ⟨invalid, heq, -⟩
  · cases heq
    exact hsound
  · cases heq

theorem isOk_iff : result.isOk ↔ ∀ d ∈ result.diagnostics, d.isError = false := by
  simp [Result.isOk, Result.errors]

/-- A result comes from a source, or has an error and nothing else. -/
theorem source_cases (h : transform settings file text = .ok result) :
    (∃ source, read file text = .ok (.ok source) ∧ lower settings source = .ok result ∧
      source.Sound) ∨
    (result.code = none ∧ result.constructs = [] ∧ ∃ d ∈ result.diagnostics, d.isError) := by
  unfold transform at h
  cases hread : read file text with
  | error why => rw [hread] at h; cases h
  | ok outcome =>
    rw [hread] at h
    rcases read_cases hread with ⟨source, rfl, hsound⟩ | ⟨invalid, rfl, herror⟩
    · exact .inl ⟨source, rfl, h, hsound⟩
    · cases h
      exact .inr ⟨rfl, rfl, herror⟩

/-- A result without errors comes from a source. -/
theorem source_of_isOk (h : transform settings file text = .ok result) (hok : result.isOk) :
    ∃ source, read file text = .ok (.ok source) ∧ lower settings source = .ok result ∧
      source.Sound := by
  refine (source_cases h).resolve_right fun ⟨_, _, d, hd, herror⟩ => ?_
  rw [isOk_iff.mp hok d hd] at herror
  cases herror

/-- A result with code comes from a source. -/
theorem source_of_code (h : transform settings file text = .ok result)
    (hcode : result.code.isSome) :
    ∃ source, read file text = .ok (.ok source) ∧ lower settings source = .ok result ∧
      source.Sound := by
  refine (source_cases h).resolve_right fun ⟨hnone, _⟩ => ?_
  rw [hnone] at hcode
  cases hcode

end Compile

end StepBinding
