import StepBinding.Proofs.Compile.Source
import StepBinding.Proofs.Grammar.Ends

/-! Every program text is read: to a module, or to the reasons why it has none. If there is a module
the log tells the same of its step bindings as their nodes: those that were accepted are parsed,
those that were rejected have a reason, and all have numbers of their own in the order of the
source. -/

namespace StepBinding.Compile

open Token StepBinding.Tree Construct

variable {file text : String} {source : Source}

/-- A program text is always read, and the records of its step bindings are those of its nodes. -/
theorem exists_read (file text : String) : ∃ outcome, read file text = .ok outcome ∧
    ∀ source, outcome = .ok source →
      (numbers (walkStmts source.module.body)).Pairwise (· < ·) ∧
      ∀ n ∈ walkStmts source.module.body, Recorded source.log n := by
  cases hstream : Stream.ofText file text with
  | error ds => exact ⟨.error { diagnostics := ds }, by unfold read; rw [hstream], nofun⟩
  | ok tokens =>
    have hgood : (Grammar.Cursor.start tokens).Good := Stream.ofText_valid hstream
    obtain ⟨p, hp, hagrees⟩ := Grammar.Program.exists_ofTokens file hgood.closed
    cases hm : p.module? with
    | none =>
      refine ⟨.error { diagnostics := p.diagnostics, log := some p.log }, ?_, nofun⟩
      simp only [read, hstream, hp, hm]
    | some m =>
      refine ⟨.ok { module := m, diagnostics := p.diagnostics, log := p.log }, ?_, ?_⟩
      · simp only [read, hstream, hp, hm]
      · rintro _ ⟨⟩
        exact hagrees m hm

theorem numbers_sorted (h : read file text = .ok (.ok source)) :
    (numbers (walkStmts source.module.body)).Pairwise (· < ·) := by
  obtain ⟨outcome, hread, hagrees⟩ := exists_read file text
  rw [h] at hread
  cases hread
  exact (hagrees source rfl).1

theorem recorded_of_read (h : read file text = .ok (.ok source)) :
    ∀ n ∈ walkStmts source.module.body, Recorded source.log n := by
  obtain ⟨outcome, hread, hagrees⟩ := exists_read file text
  rw [h] at hread
  cases hread
  exact (hagrees source rfl).2

/-- The nodes of step bindings, accepted or rejected, have increasing numbers, no two of them have
the same record, and the record of each tells the same as the node: an accepted one has steps and
its record is parsed, with its form and binding and without codes, and the record of a rejected
one is rejected and has a code. -/
theorem log_agrees_with_tree (h : read file text = .ok (.ok source)) :
    (numbers (walkStmts source.module.body)).Pairwise (· < ·) ∧
      (numbers (walkStmts source.module.body)).Nodup ∧
      ∀ n ∈ walkStmts source.module.body, Recorded source.log n :=
  ⟨numbers_sorted h, (numbers_sorted h).imp Nat.ne_of_lt, recorded_of_read h⟩

/-- A step binding with one in parentheses and a rejected one in a closure. -/
def closureText : String := "let($) x = (let(_) = 1, _), () => \x7b let() y = $; return $; \x7d;"

/-- The nodes of the three are those of the records. -/
theorem closure_agrees : ∃ source, read "closure" closureText = .ok (.ok source) ∧
    numbers (walkStmts source.module.body) = [0, 1, 2] ∧ source.log.size = 3 ∧
    (numbers (walkStmts source.module.body)).Nodup ∧
    ∀ n ∈ walkStmts source.module.body, Recorded source.log n := by
  have hrun : (match read "closure" closureText with
      | .ok (.ok source) =>
        numbers (walkStmts source.module.body) == [0, 1, 2] && source.log.size == 3
      | _ => false) = true := by decide +kernel
  split at hrun
  · rename_i source hread
    simp only [Bool.and_eq_true, beq_iff_eq] at hrun
    obtain ⟨-, hnodup, hrecorded⟩ := log_agrees_with_tree hread
    exact ⟨source, hread, hrun.1, hrun.2, hnodup, hrecorded⟩
  · cases hrun

end StepBinding.Compile
