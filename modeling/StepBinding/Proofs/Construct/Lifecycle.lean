import StepBinding.Proofs.Construct.Filed

/-! The life of a record. Calls on the log come in any order, and some of them are refused. In any
case a record stays at its number with its form and range, gains codes, and moves along the stages
by at most one step a call; the two final states are never left. A refused call leaves the log as it
is, but for one: rejecting a record that is in its place notes the code all the same. -/

namespace StepBinding.Construct

open List

/-- A call on the log. -/
inductive Call
  | enter (form : Form) (span : Span) (binding : Option String)
  | advance (index : Nat) (target : State)
  | reject (index : Nat) (code : Code)
  | rejectAll (code : Code) (indices : List Nat)

namespace Log

/-- The log after a call, and why it was refused if it was. -/
def call (log : Log) : Call → Edited
  | .enter form span binding => { log := log.enter form span binding }
  | .advance i target => log.advance i target
  | .reject i code => log.reject i code
  | .rejectAll code is => log.rejectAll code is

/-- The log before some calls and after each of them. -/
def runs (log : Log) : List Call → List Log
  | [] => [log]
  | c :: cs => log :: (log.call c).log.runs cs

end Log

namespace State

/-- The states of a record for which all goes well. -/
def stages : List State := [.matched, .parsed, .resolved, .lowered, .spliced]

/-- What a record can have passed through: some of the stages, or a rejection before the last of
them. -/
def paths : List (List State) :=
  (List.range 5).map (fun n => stages.take (n + 1)) ++
    (List.range 4).map fun n => stages.take (n + 1) ++ [.rejected]

/-- One state for each stay in it. -/
def stays (ss : List State) : List State :=
  ss.foldl (fun seen s => if seen.getLast? = some s then seen else seen ++ [s]) []

/-- A path goes on by one step. -/
theorem path_append {p : List State} {s s' : State} (hp : p ∈ paths) (hs : p.getLast? = some s)
    (h : s.allows s') : p ++ [s'] ∈ paths := by
  have hall : ∀ p ∈ paths, ∀ s' ∈ [unrecognized, matched, parsed, resolved, lowered, spliced, rejected],
      (p.getLast?.any fun s => s.allows s') → p ++ [s'] ∈ paths := by decide
  exact hall p hp s' (by cases s' <;> decide) (by rw [hs]; exact h)

end State

namespace Record

variable {r r' r'' : Record}

/-- What a call leaves of a record, whose state moves at most as `R` says. -/
structure Follows (R : State → State → Prop) (r r' : Record) : Prop where
  index : r'.index = r.index
  form : r'.form = r.form
  span : r'.span = r.span
  codes : r.codes <+: r'.codes
  state : r'.state = r.state ∨ R r.state r'.state

theorem Follows.refl {R : State → State → Prop} (r : Record) : r.Follows R r :=
  ⟨rfl, rfl, rfl, prefix_refl _, .inl rfl⟩

theorem Follows.trans {R : State → State → Prop} (h : r.Follows R r') (h' : r'.Follows R r'')
    (hR : ∀ {s s' s''}, R s s' → R s' s'' → R s s'') : r.Follows R r'' where
  index := h'.index.trans h.index
  form := h'.form.trans h.form
  span := h'.span.trans h.span
  codes := h.codes.trans h'.codes
  state := by
    rcases h'.state with heq | hstep
    · rw [heq]
      exact h.state
    · rcases h.state with heq | hstep'
      · exact .inr (heq ▸ hstep)
      · exact .inr (hR hstep' hstep)

theorem Follows.imp {R S : State → State → Prop} (h : r.Follows R r')
    (hRS : ∀ {s s'}, R s s' → S s s') :
    r.Follows S r' :=
  ⟨h.index, h.form, h.span, h.codes, h.state.imp_right hRS⟩

/-- The state moves on by a step that is allowed. -/
abbrev Steps (r r' : Record) : Prop := r.Follows (fun s s' => s.allows s' = true) r'

/-- The state is left for rejection, if it is not final. -/
abbrev Cut (r r' : Record) : Prop := r.Follows (fun s s' => s.isFinal = false ∧ s' = .rejected) r'

theorem Cut.steps (h : r.Cut r') : r.Steps r' :=
  h.imp fun {s s'} hs => by simp [State.allows, hs.1, hs.2]

/-- What holds of a record at any later time. -/
structure Endures (r r' : Record) : Prop where
  form : r'.form = r.form
  span : r'.span = r.span
  codes : r.codes <+: r'.codes
  final : r.state.isFinal = true → r'.state = r.state

theorem Endures.refl (r : Record) : r.Endures r := ⟨rfl, rfl, prefix_refl _, fun _ => rfl⟩

theorem Follows.endures (h : r.Steps r') (h' : r'.Endures r'') : r.Endures r'' where
  form := h'.form.trans h.form
  span := h'.span.trans h.span
  codes := h.codes.trans h'.codes
  final hf := by
    rcases h.state with heq | hstep
    · exact (h'.final (heq ▸ hf)).trans heq
    · simp [State.allows, hf] at hstep

end Record

namespace Log

variable {log : Log} {i j : Nat} {r : Record} {cs : List Call}

section Refusals

/-- A record is not moved if that is refused. -/
theorem advance_refused {target : State} (h : (log.advance i target).refusal ≠ none) :
    (log.advance i target).log = log := by
  unfold advance at h ⊢
  split
  · rfl
  · rename_i r hr
    rw [hr] at h
    dsimp only at h
    split
    · rfl
    · rename_i hfinal
      rw [if_neg hfinal] at h
      split
      · rename_i hallows
        rw [if_pos hallows] at h
        exact absurd rfl h
      · rfl

/-- A record in its place is not rejected, but the code is noted. -/
theorem reject_spliced (hr : log.get? i = some r) (hs : r.state = .spliced) (code : Code) :
    log.reject i code = ⟨log.note i code, some (.final i .spliced .rejected)⟩ := by
  have hnote : (log.note i code).get? i = some { r with codes := r.codes ++ [code] } := by
    rw [note, get?_modify, hr]
    simp
  unfold reject advance
  rw [hr]
  dsimp only
  rw [if_neg (by rw [hs]; decide), hnote]
  dsimp only
  rw [hs]
  rfl

theorem reject_refused_iff (hr : log.get? i = some r) (code : Code) :
    (log.reject i code).refusal ≠ none ↔ r.state = .spliced :=
  ⟨fun h => Decidable.byContradiction fun hs => h (refusal_reject hr hs),
    fun hs => by rw [reject_spliced hr hs]; simp⟩

end Refusals

section Calls

theorem cut_reject (hr : log.get? j = some r) (i : Nat) (code : Code) :
    ∃ r', (log.reject i code).log.get? j = some r' ∧ r.Cut r' := by
  have hnoted : r.Cut { r with codes := r.codes ++ [code] } :=
    ⟨rfl, rfl, rfl, prefix_append _ _, .inl rfl⟩
  cases hi : log.get? i with
  | none =>
    refine ⟨r, ?_, .refl r⟩
    unfold reject
    rw [hi]
    exact hr
  | some ri =>
    by_cases hs : ri.state = .spliced
    · rw [reject_spliced hi hs]
      refine ⟨_, (get?_modify ..).trans (congrArg _ hr), ?_⟩
      split
      · exact hnoted
      · exact .refl r
    · rw [(get?_reject (refusal_reject hi hs)).2, hr]
      refine ⟨_, rfl, ?_⟩
      split
      · rename_i hij
        subst hij
        cases hi.symm.trans hr
        refine ⟨rfl, rfl, rfl, prefix_append _ _, ?_⟩
        change State.rejected = r.state ∨ r.state.isFinal = false ∧ State.rejected = .rejected
        cases hstate : r.state <;> simp_all [State.isFinal]
      · exact .refl r

/-- A record is rejected once at most, however often its number occurs. -/
theorem cut_rejectAll (code : Code) (is : List Nat) (hj : log.get? j = some r) :
    ∃ r', (log.rejectAll code is).log.get? j = some r' ∧ r.Cut r' := by
  fun_induction rejectAll log code is generalizing r with
  | case1 => exact ⟨r, hj, .refl r⟩
  | case2 => exact ⟨r, hj, .refl r⟩
  | case3 _ _ _ _ _ _ ih => exact ih hj
  | case4 log i => exact cut_reject hj i code
  | case5 log i is =>
    rename_i ih
    obtain ⟨r1, hr1, hcut⟩ := cut_reject hj i code
    obtain ⟨r2, hr2, hcut'⟩ := ih hr1
    exact ⟨r2, hr2, hcut.trans hcut' fun h h' => ⟨h.1, h'.2⟩⟩

/-- What a call does to a record. -/
theorem steps_call (c : Call) (hr : log.get? j = some r) :
    ∃ r', (log.call c).log.get? j = some r' ∧ r.Steps r' := by
  cases c with
  | enter form span binding =>
    refine ⟨r, ?_, .refl r⟩
    have hlt : j < log.size := lt_size_iff.mpr ⟨r, hr⟩
    exact (get?_enter j).trans ((if_neg (Nat.ne_of_lt hlt)).trans hr)
  | advance i target =>
    by_cases h : (log.advance i target).refusal = none
    · obtain ⟨⟨ri, hi, hallows⟩, hget⟩ := get?_advance h
      refine ⟨_, (hget j).trans (congrArg _ hr), ?_⟩
      split
      · rename_i hij
        subst hij
        cases hi.symm.trans hr
        exact ⟨rfl, rfl, rfl, prefix_refl _, .inr hallows⟩
      · exact .refl r
    · exact ⟨r, (congrArg (·.get? j) (advance_refused h)).trans hr, .refl r⟩
  | reject i code =>
    obtain ⟨r', hr', hcut⟩ := cut_reject hr i code
    exact ⟨r', hr', hcut.steps⟩
  | rejectAll code is =>
    obtain ⟨r', hr', hcut⟩ := cut_rejectAll code is hr
    exact ⟨r', hr', hcut.steps⟩

/-- A record that a call adds. -/
theorem matched_of_call {c : Call} (hr : (log.call c).log.get? j = some r) (hnone : log.get? j = none) :
    r.index = j ∧ r.state = .matched := by
  have hle : ¬j < log.size := fun hlt => by
    obtain ⟨r', hr'⟩ := lt_size_iff.mp hlt
    rw [hnone] at hr'
    cases hr'
  have hlt : j < (log.call c).log.size := lt_size_iff.mpr ⟨r, hr⟩
  cases c with
  | enter form span binding =>
    rw [show (log.call (.enter form span binding)).log.get? j = _ from get?_enter j] at hr
    split at hr
    · rename_i hj
      cases hr
      exact ⟨hj.symm, rfl⟩
    · rw [hnone] at hr
      cases hr
  | advance i target => exact absurd (size_advance log i target ▸ hlt) hle
  | reject i code => exact absurd (size_reject log i code ▸ hlt) hle
  | rejectAll code is => exact absurd (size_rejectAll log code is ▸ hlt) hle

theorem endures_runs {log' : Log} (h : log' ∈ log.runs cs) (hr : log.get? i = some r) :
    ∃ r', log'.get? i = some r' ∧ r.Endures r' := by
  induction cs generalizing log r with
  | nil =>
    cases mem_singleton.mp h
    exact ⟨r, hr, .refl r⟩
  | cons c cs ih =>
    rcases mem_cons.mp h with rfl | h
    · exact ⟨r, hr, .refl r⟩
    · obtain ⟨r1, hr1, hstep⟩ := steps_call c hr
      obtain ⟨r2, hr2, he⟩ := ih h hr1
      exact ⟨r2, hr2, hstep.endures he⟩

/-- Later logs of a run hold what earlier ones do. -/
theorem pairwise_runs (log : Log) (cs : List Call) : (log.runs cs).Pairwise fun log log' =>
    ∀ i r, log.get? i = some r → ∃ r', log'.get? i = some r' ∧ r.Endures r' := by
  induction cs generalizing log with
  | nil => exact pairwise_singleton _ _
  | cons c cs ih =>
    refine pairwise_cons.mpr ⟨fun log' h i r hr => ?_, ih _⟩
    obtain ⟨r1, hr1, hstep⟩ := steps_call c hr
    obtain ⟨r2, hr2, he⟩ := endures_runs h hr1
    exact ⟨r2, hr2, hstep.endures he⟩

/-- The state of a record, if there is one of this number. -/
def stateOf (i : Nat) (log : Log) : Option State := (log.get? i).map Record.state

theorem index_runs (h : ∀ i r, log.get? i = some r → r.index = i) :
    ∀ log' ∈ log.runs cs, ∀ i r, log'.get? i = some r → r.index = i := by
  induction cs generalizing log with
  | nil => exact fun log' h' => mem_singleton.mp h' ▸ h
  | cons c cs ih =>
    refine forall_mem_cons.mpr ⟨h, ih fun i r hr => ?_⟩
    cases hi : log.get? i with
    | none => exact (matched_of_call hr hi).1
    | some r0 =>
      obtain ⟨r1, hr1, hstep⟩ := steps_call c hi
      cases hr.symm.trans hr1
      exact hstep.index.trans (h i r0 hi)

/-- The states that were seen so far, and one more. -/
abbrev seeing (seen : List State) (s : State) : List State :=
  if seen.getLast? = some s then seen else seen ++ [s]

/-- From a record on, the states it is in go on with the path that led there. -/
theorem path_runs {cs : List Call} {seen : List State} (hseen : seen ∈ State.paths)
    (h : log.stateOf i = seen.getLast?) :
    ((log.runs cs).filterMap (stateOf i)).foldl seeing seen ∈ State.paths := by
  obtain ⟨s, hs⟩ : ∃ s, seen.getLast? = some s := by
    have : ∀ p ∈ State.paths, p.getLast?.isSome := by decide
    exact Option.isSome_iff_exists.mp (this seen hseen)
  have hhere : seeing seen s = seen := if_pos hs
  have hstate : log.stateOf i = some s := h.trans hs
  induction cs generalizing log seen s with
  | nil =>
    rw [runs, filterMap_cons_some hstate, foldl_cons, hhere]
    exact hseen
  | cons c cs ih =>
    rw [runs, filterMap_cons_some hstate, foldl_cons, hhere]
    obtain ⟨r, hr, hrs⟩ := Option.map_eq_some_iff.mp hstate
    obtain ⟨r', hr', hstep⟩ := steps_call c hr
    have hnext : (log.call c).log.stateOf i = some r'.state := congrArg _ hr'
    rcases hstep.state with heq | hallows
    · rw [heq, hrs] at hnext
      exact ih hseen (hnext.trans hs.symm) s hs hhere hnext
    · rw [hrs] at hallows
      have hne : seen.getLast? ≠ some r'.state := fun hlast => by
        rw [hs] at hlast
        cases hlast
        have : ∀ s ∈ [State.unrecognized, .matched, .parsed, .resolved, .lowered, .spliced, .rejected],
            s.allows s = false := by decide
        rw [this _ (by cases r'.state <;> decide)] at hallows
        cases hallows
      have hlonger : seeing (seen ++ [r'.state]) r'.state = seen ++ [r'.state] := by simp [seeing]
      have hpath := State.path_append hseen hs hallows
      have hmore := ih hpath (hnext.trans (by simp)) r'.state (by simp) hlonger hnext
      -- The state that was just reached is seen first in what follows.
      cases cs <;> simpa [runs, hnext, seeing, hne] using hmore

/-- Whatever is called, the records of a log keep their numbers, forms and ranges, gain codes, and run
through the stages one by one until they are in their place or rejected. -/
theorem lifecycle (cs : List Call) :
    (∀ log ∈ runs {} cs, ∀ i r, log.get? i = some r → r.index = i) ∧
    (∀ i, State.stays ((runs {} cs).filterMap (stateOf i)) ∈ [] :: State.paths) ∧
    (runs {} cs).Pairwise fun log log' => ∀ i r, log.get? i = some r →
      ∃ r', log'.get? i = some r' ∧ r.Endures r' := by
  refine ⟨index_runs nofun, fun i => ?_, pairwise_runs _ cs⟩
  suffices h : ∀ log : Log, log.stateOf i = none →
      State.stays ((log.runs cs).filterMap (stateOf i)) ∈ [] :: State.paths from h {} rfl
  induction cs with
  | nil =>
    intro log hlog
    simp [runs, hlog, State.stays]
  | cons c cs ih =>
    intro log hlog
    rw [runs, List.filterMap_cons_none hlog]
    cases hnext : (log.call c).log.stateOf i with
    | none => exact ih _ hnext
    | some s =>
      obtain ⟨r, hr, rfl⟩ := Option.map_eq_some_iff.mp hnext
      have hmatched := (matched_of_call hr (Option.map_eq_none_iff.mp hlog)).2
      rw [hmatched] at hnext
      have hpath := @path_runs _ i cs [.matched] (by decide) hnext
      refine List.mem_cons_of_mem _ ?_
      cases cs <;> simpa [State.stays, runs, hnext, seeing] using hpath

end Calls

/-- A call that is refused for a record that exists leaves the log as it is, unless a record in its
place is to be rejected: then the code is noted. No list of records that exist is refused. -/
theorem refused_call {code : Code} (hr : log.get? i = some r) :
    (∀ target, (log.advance i target).refusal ≠ none → (log.advance i target).log = log) ∧
    ((log.reject i code).refusal ≠ none ↔ r.state = .spliced) ∧
    ((log.reject i code).refusal ≠ none → (log.reject i code).log = log.note i code) ∧
    ∀ is : List Nat, (∀ i ∈ is, i < log.size) → (log.rejectAll code is).refusal = none :=
  ⟨fun _ => advance_refused, reject_refused_iff hr code,
    fun h => by rw [reject_spliced hr ((reject_refused_iff hr code).mp h)],
    fun _ => refusal_rejectAll⟩

/-- A record that is in its place. -/
def placed : Record := { index := 0, form := .declaration, span := default, state := .spliced }

theorem refused_call_placed : (Log.get? ⟨[placed]⟩ 0 = some placed) ∧
    (Log.reject ⟨[placed]⟩ 0 .grammar).log = Log.note ⟨[placed]⟩ 0 .grammar :=
  ⟨rfl, (refused_call rfl).2.2.1 (by decide)⟩

/-- The code of a refused rejection stands in the log. -/
theorem refused_code_noted : ((((runs {} [.enter .declaration default none, .advance 0 .parsed,
      .advance 0 .resolved, .advance 0 .lowered, .advance 0 .spliced]).getLast?.map fun log =>
    ((log.reject 0 .grammar).refusal, (log.reject 0 .grammar).log.records.map Record.codes,
      log.records.map Record.codes))) =
    some (some (.final 0 .spliced .rejected), [[.grammar]], [[]])) := by
  decide

end Log

end StepBinding.Construct
