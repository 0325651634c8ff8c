import StepBinding.Proofs.Compile.Hygiene
import StepBinding.Proofs.Compile.Records
import StepBinding.Proofs.Machine.Defined

/-! Fresh names are defined whenever lowered code uses them. A fresh name is used in lowered code only
where it is known, for both targets, and such code never ends in the error that the name is not
defined. -/

namespace StepBinding

open StepBinding.Tree

namespace Compile

open Machine

variable {settings : LowerSettings} {file text : String} {result : Result}

/-- No fresh name is ever undefined: a program without errors has a lowered module, and no run of a
lowered module ends in the error that a fresh name is not defined. Nothing in a program catches
an error, so no use of the name on the way can have ended in it. -/
theorem fresh_names_defined (h : transform settings file text = .ok result) :
    (result.isOk = true → result.module.isSome = true) ∧
    ∀ lowered, result.module = some lowered → ∀ r ∈ result.constructs, ∀ name, r.fresh = some name →
      ∀ bound m, run .refuse bound lowered start ≠ .error (.error (.notDefined name)) m := by
  refine ⟨fun hok => ?_, fun lowered hlowered r hr name hname bound => run_ne_notDefined ?_ bound⟩
  · obtain ⟨source, -, hlower, hsound⟩ := source_of_isOk h hok
    obtain ⟨target, resolved, log, hparts⟩ := lowers_of_ok hsound hlower
    rw [hparts.module_eq]
    rfl
  · rcases source_cases h with ⟨source, -, hlower, hsound⟩ | ⟨-, hnone, -⟩
    · obtain ⟨target, resolved, log, hparts⟩ := lowers_of_ok hsound hlower
      obtain ⟨hmodule, -, -⟩ := Resolved.ofModule_eq_ok hparts.resolved_eq
      obtain ⟨hmem, rfl⟩ := eq_freshOf_of_fresh hsound hparts hr hname
      rw [hparts.module_eq] at hlowered
      cases hlowered
      rw [hmodule]
      exact Resolved.scoped_lower target (hsound.written.imp fun n hn => hn.1) ⟨_, hmem, rfl⟩
    · rw [hnone] at hr
      cases hr

/-- A function in a later step that uses the name of the step binding when it is called. -/
def laterText : String := "const($) f = 1, () => $ + 1; console.log(f());"

/-- The function is called after the steps, and the fresh name it uses is defined. -/
theorem later_defined : ∃ result lowered, transform {} "later" laterText = .ok result ∧
    result.module = some lowered ∧ (∃ r ∈ result.constructs, r.fresh = some "_tb1") ∧
    ∀ m, run .refuse 40 lowered start ≠ .error (.error (.notDefined "_tb1")) m := by
  have hrun : (transform {} "later" laterText).toOption.any (fun result => result.module.isSome &&
      result.constructs.any fun r => r.fresh == some "_tb1") = true := by decide +kernel
  cases htransform : transform {} "later" laterText with
  | error why => rw [htransform] at hrun; cases hrun
  | ok result =>
    rw [htransform] at hrun
    obtain ⟨hmodule, hfresh⟩ := Bool.and_eq_true_iff.mp hrun
    obtain ⟨r, hr, hname⟩ := List.any_eq_true.mp hfresh
    obtain ⟨lowered, hlowered⟩ := Option.isSome_iff_exists.mp hmodule
    have hname := beq_iff_eq.mp hname
    exact ⟨result, lowered, rfl, hlowered, ⟨r, hr, hname⟩,
      (fresh_names_defined htransform).2 lowered hlowered r hr _ hname 40⟩

end Compile

end StepBinding
