import Mathlib.Data.List.Induction
import Mathlib.Order.Bounds.Defs
import StepBinding.Proofs.Resolve.Fresh

/-! Histories of an allocator of names. Calls to reserve names, to hand out a fresh one and to start
anew come in any order. The search for a fresh name has no bound of its own: it goes from number to
number until it meets a free one, which it does because only finitely many names are reserved. What
is handed out has the least free number above the counter, and is none of the names that were
reserved or handed out since the allocator last started anew. -/

namespace StepBinding.FreshNames

/-- What is asked of an allocator. -/
inductive Call
  | reserve (more : List String)
  | fresh
  | reset
deriving DecidableEq

/-- The name that a call gives, if it gives one, and the allocator after it. -/
def answer (names : FreshNames) : Call → Option String × FreshNames
  | .reserve more => (none, names.reserve more)
  | .fresh => (some names.fresh.1, names.fresh.2)
  | .reset => (none, names.reset)

/-- The allocator after some calls. -/
def after (names : FreshNames) (calls : List Call) : FreshNames :=
  calls.foldl (fun names call => (names.answer call).2) names

/-- A call with the name that it gave. -/
abbrev Entry := Call × Option String

/-- The calls with the names that they gave. -/
def transcript (names : FreshNames) : List Call → List Entry
  | [] => []
  | call :: calls => (call, (names.answer call).1) :: (names.answer call).2.transcript calls

/-- The names that a call reserved or gave. -/
def Entry.names : Entry → List String
  | (.reserve more, _) => more
  | (_, name) => name.toList

/-- The part of a transcript after the last reset. -/
def sinceReset (entries : List Entry) : List Entry :=
  (entries.reverse.takeWhile fun e => e.1 ≠ .reset).reverse

/-- The names that were reserved or given since the last reset. -/
def taken (entries : List Entry) : List String := (sinceReset entries).flatMap Entry.names

/-- The search for a free number: the counter goes up by one until the candidate is not reserved.
There is such a search exactly if it ends. -/
inductive Search (names : FreshNames) : Nat → Nat → Prop
  | found {c : Nat} (h : names.candidate (c + 1) ∉ names.reserved) : Search names c (c + 1)
  | skip {c n : Nat} (h : names.candidate (c + 1) ∈ names.reserved) (hn : Search names (c + 1) n) :
      Search names c n

section Seeking

variable {names : FreshNames} {c n : Nat}

/-- The free numbers above a counter. -/
def free (names : FreshNames) (c : Nat) : Set Nat := {k | c < k ∧ names.candidate k ∉ names.reserved}

theorem Search.isLeast (h : names.Search c n) : IsLeast (names.free c) n := by
  induction h with
  | @found c h => exact ⟨⟨Nat.lt_succ_self c, h⟩, fun k hk => hk.1⟩
  | @skip c n h hn ih =>
    refine ⟨⟨Nat.lt_of_succ_lt ih.1.1, ih.1.2⟩, fun k hk => ih.2 ⟨?_, hk.2⟩⟩
    exact Nat.lt_of_le_of_ne hk.1 fun heq => hk.2 (heq ▸ h)

/-- A bounded search that meets a free number is the search. -/
theorem search_seek {bound : Nat}
    (h : names.candidate (names.seek bound (c + 1)) ∉ names.reserved) :
    names.Search c (names.seek bound (c + 1)) := by
  induction bound generalizing c with
  | zero => exact .found h
  | succ bound ih =>
    unfold seek at h ⊢
    split at h
    · rename_i hc
      rw [if_pos hc]
      exact .skip (List.contains_iff_mem.mp hc) (ih h)
    · rename_i hc
      rw [if_neg hc]
      exact .found h

theorem search_fresh (names : FreshNames) : names.Search names.counter names.fresh.2.counter :=
  search_seek fresh_notMem

theorem counter_lt_fresh (names : FreshNames) : names.counter < names.fresh.2.counter :=
  (search_fresh names).isLeast.1.1

end Seeking

section Calls

variable {names : FreshNames} {calls : List Call}

theorem after_concat (names : FreshNames) (calls : List Call) (call : Call) :
    names.after (calls ++ [call]) = ((names.after calls).answer call).2 := by
  simp [after]

theorem transcript_concat (names : FreshNames) (calls : List Call) (call : Call) :
    names.transcript (calls ++ [call]) =
      names.transcript calls ++ [(call, ((names.after calls).answer call).1)] := by
  induction calls generalizing names with
  | nil => rfl
  | cons first calls ih => exact congrArg (_ :: ·) (ih _)

theorem sinceReset_concat (entries : List Entry) (e : Entry) :
    sinceReset (entries ++ [e]) = if e.1 = .reset then [] else sinceReset entries ++ [e] := by
  unfold sinceReset
  by_cases h : e.1 = .reset <;> simp [h]

@[simp] theorem stem_after (names : FreshNames) (calls : List Call) :
    (names.after calls).stem = names.stem := by
  induction calls using List.reverseRecOn with
  | nil => rfl
  | append_singleton calls call ih =>
    rw [after_concat, ← ih]
    cases call <;> rfl

/-- Reserved are the names that were reserved or given since the last reset, and no others. -/
theorem reserved_after (stem : String) (calls : List Call) :
    (after { stem } calls).reserved = taken (transcript { stem } calls) := by
  induction calls using List.reverseRecOn with
  | nil => rfl
  | append_singleton calls call ih =>
    rw [after_concat, transcript_concat, taken, sinceReset_concat]
    cases call with
    | reset => rfl
    | reserve more => simp [answer, reserve, Entry.names, ih, taken]
    | fresh => simp [answer, fresh, Entry.names, ih, taken]

/-- Every call but a reset keeps the counter or raises it, and a fresh name raises it. -/
theorem counter_answer (names : FreshNames) {call : Call} (h : call ≠ .reset) :
    names.counter ≤ (names.answer call).2.counter ∧
      (call = .fresh → names.counter < (names.answer call).2.counter) := by
  cases call with
  | reset => exact absurd rfl h
  | reserve more => exact ⟨Nat.le_refl _, nofun⟩
  | fresh => exact ⟨Nat.le_of_lt (counter_lt_fresh names), fun _ => counter_lt_fresh names⟩

theorem counter_after (h : .reset ∉ calls) :
    names.counter ≤ (names.after calls).counter ∧
      (.fresh ∈ calls → names.counter < (names.after calls).counter) := by
  induction calls generalizing names with
  | nil => exact ⟨Nat.le_refl _, nofun⟩
  | cons call calls ih =>
    rw [List.mem_cons, not_or] at h
    obtain ⟨hle, hlt⟩ := counter_answer names (Ne.symm h.1)
    obtain ⟨hle', hlt'⟩ := @ih (names.answer call).2 h.2
    refine ⟨Nat.le_trans hle hle', fun hmem => ?_⟩
    rcases List.mem_cons.mp hmem with rfl | hmem
    · exact Nat.lt_of_lt_of_le (hlt rfl) hle'
    · exact Nat.lt_of_le_of_lt hle (hlt' hmem)

end Calls

/-- After any calls the search for a fresh name ends. It gives the stem with the least number above
the counter whose name is not taken, and so a name that was neither reserved nor given since the
last reset. Up to the next reset the counter never falls, and rises with every name that is
given. -/
theorem fresh_is_least (stem : String) (calls : List Call) :
    let names := after { stem } calls
    let used := taken (transcript { stem } calls)
    ∃ n, names.Search names.counter n ∧
      IsLeast {k : Nat | names.counter < k ∧ stem ++ toString k ∉ used} n ∧
      names.fresh.1 = stem ++ toString n ∧ names.fresh.1 ∉ used ∧ names.fresh.2.counter = n ∧
      ∀ later, .reset ∉ later → names.counter ≤ (names.after later).counter ∧
        (.fresh ∈ later → names.counter < (names.after later).counter) := by
  intro names used
  have hstem : names.stem = stem := stem_after _ calls
  have hused : names.reserved = used := reserved_after stem calls
  have hname : names.fresh.1 = stem ++ toString names.fresh.2.counter := hstem ▸ rfl
  refine ⟨_, search_fresh names, ?_, hname, hused ▸ fresh_notMem, rfl, fun later => counter_after⟩
  have hleast := (search_fresh names).isLeast
  simpa only [free, candidate, hused, hstem] using hleast

/-- A reserved number is passed over, and the first numbers come back with a reset. -/
theorem passed_over : let calls : List Call := [.fresh, .reset, .reserve ["_tb1", "_tb3"], .fresh]
    (transcript { stem := "_tb" } calls).filterMap Prod.snd = ["_tb1", "_tb2"] ∧
      (after { stem := "_tb" } calls).fresh.1 = "_tb4" ∧
      (after { stem := "_tb" } calls).counter <
        (after { stem := "_tb" } (calls ++ [.fresh])).counter := by
  intro calls
  obtain ⟨n, -, -, -, -, -, hlater⟩ := fresh_is_least "_tb" calls
  exact ⟨by decide, by decide, (hlater [.fresh] (by decide)).2 (by decide)⟩

end StepBinding.FreshNames
