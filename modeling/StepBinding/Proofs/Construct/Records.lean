import StepBinding.Construct.Log

/-! What edits do to the records of a log. An edit that is not refused changes single records, in
the same way wherever they stand. Codes are only added and final states are never left. While a
program is read no record gets a fresh name, and none is further on than its parts were read. -/

namespace StepBinding.Construct

open List

variable {codes : List Code} {is : List Nat} {binding : Option String} {code : Code} {form : Form}
  {span : Span}

namespace Record

variable {r r' r'' : Record} {i : Nat}

/-- Rejects a record for a reason. -/
def reject (code : Code) (r : Record) : Record :=
  { r with state := .rejected, codes := r.codes ++ [code] }

/-- Rejects a record for all the reasons that are given. -/
def rejectWith (r : Record) : List Code → Record := List.foldl (fun r code => r.reject code) r

/-- A rejected record says why. -/
def Fair (r : Record) : Prop := r.state = .rejected → ∃ code ∈ r.codes, code ≠ .shadowing

/-- What later edits keep of a record. -/
structure Leads (r r' : Record) : Prop where
  codes : r.codes ⊆ r'.codes
  final : r.state.isFinal = true → r'.state = r.state

theorem Leads.refl (r : Record) : r.Leads r := ⟨List.Subset.refl _, fun _ => rfl⟩

theorem Leads.trans (h : r.Leads r') (h' : r'.Leads r'') : r.Leads r'' where
  codes := List.Subset.trans h.codes h'.codes
  final hr := by
    have heq := h.final hr
    exact (h'.final (by rw [heq]; exact hr)).trans heq

theorem leads_rejectWith (h : codes ≠ [] → r.state ≠ .spliced) : r.Leads (r.rejectWith codes) := by
  induction codes generalizing r with
  | nil => exact .refl r
  | cons code codes ih =>
    refine Leads.trans ⟨subset_append_left .., fun hfinal => ?_⟩ (ih (r := r.reject code) nofun)
    cases hs : r.state with
    | spliced => exact absurd hs (h nofun)
    | rejected => rfl
    | _ => rw [hs] at hfinal; cases hfinal

/-- The record of number `i` while the program is being read. -/
structure Raw (i : Nat) (r : Record) : Prop where
  index : r.index = i
  fresh : r.fresh = none
  state : r.state = .matched ∨ r.state = .parsed ∨ r.state = .rejected
  fair : r.Fair
  reasons : .shadowing ∉ r.codes

theorem fair_reject (h : code ≠ .shadowing) : (r.reject code).Fair :=
  fun _ => ⟨code, mem_append_right _ (mem_singleton_self _), h⟩

theorem Raw.reject (h : r.Raw i) (hcode : code ≠ .shadowing) : (r.reject code).Raw i :=
  ⟨h.index, h.fresh, .inr (.inr rfl), fair_reject hcode, fun hmem =>
    (mem_append.mp hmem).elim h.reasons fun hmem => hcode (mem_singleton.mp hmem).symm⟩

theorem Raw.rejectWith (h : r.Raw i) (hcodes : .shadowing ∉ codes) :
    (r.rejectWith codes).Raw i := by
  induction codes generalizing r with
  | nil => exact h
  | cons code codes ih =>
    rw [mem_cons, not_or] at hcodes
    exact ih (h.reject (Ne.symm hcodes.1)) hcodes.2

/-- One reason is enough to reject. -/
theorem rejectWith_spec (hne : codes ≠ []) :
    (r.rejectWith codes).state = .rejected ∧ codes ⊆ (r.rejectWith codes).codes := by
  induction codes generalizing r with
  | nil => exact absurd rfl hne
  | cons code codes ih =>
    have hcode : code ∈ (r.rejectWith (code :: codes)).codes :=
      (leads_rejectWith (r := r.reject code) nofun).codes
        (mem_append_right _ (mem_singleton_self _))
    cases codes with
    | nil => exact ⟨rfl, cons_subset.mpr ⟨hcode, nil_subset _⟩⟩
    | cons code' codes =>
      obtain ⟨hstate, hcodes⟩ := @ih (r.reject code) nofun
      exact ⟨hstate, cons_subset.mpr ⟨hcode, hcodes⟩⟩

end Record

namespace Log

section Size

variable (log : Log) (i : Nat)

theorem size_modify (f : Record → Record) : (log.modify i f).size = log.size :=
  length_modify ..

theorem size_enter (form : Form) (span : Span) (binding : Option String) :
    (log.enter form span binding).size = log.size + 1 := by
  simp [enter, size]

theorem size_advance (target : State) : (log.advance i target).log.size = log.size := by
  unfold advance
  split
  · rfl
  · split
    · rfl
    · split
      · exact log.size_modify i _
      · rfl

theorem size_reject (code : Code) : (log.reject i code).log.size = log.size := by
  unfold reject
  split
  · rfl
  · split
    · exact log.size_modify i _
    · rw [size_advance]
      exact log.size_modify i _

theorem size_rejectAll (code : Code) (is : List Nat) :
    (log.rejectAll code is).log.size = log.size := by
  fun_induction rejectAll log code is with
  | case1 => rfl
  | case2 => rfl
  | case3 _ _ _ _ _ _ ih => exact ih
  | case4 => exact size_reject ..
  | case5 log i is _ _ _ _ _ ih => exact ih.trans (size_reject log i code)

theorem size_rejectWith (codes : List Code) : (log.rejectWith i codes).log.size = log.size := by
  fun_induction rejectWith log i codes with
  | case1 => rfl
  | case2 => exact size_reject ..
  | case3 log code codes _ _ ih => exact ih.trans (size_reject log i code)

end Size

variable {log log1 log2 : Log} {i j : Nat} {code : Code} {target : State}

theorem get?_modify (f : Record → Record) (log : Log) (i j : Nat) :
    (log.modify i f).get? j = (log.get? j).map fun r => if i = j then f r else r := by
  unfold get? modify
  rw [getElem?_modify]
  split <;> simp

/-- A record that moves on was allowed to. -/
theorem get?_advance (h : (log.advance i target).refusal = none) :
    (∃ r, log.get? i = some r ∧ r.state.allows target) ∧ ∀ j,
      (log.advance i target).log.get? j =
        (log.get? j).map fun r => if i = j then { r with state := target } else r := by
  unfold advance at h ⊢
  cases hr : log.get? i with
  | none => rw [hr] at h; cases h
  | some r =>
    rw [hr] at h
    dsimp only at h ⊢
    split at h
    · cases h
    split at h
    · rename_i hfinal hallows
      rw [if_neg hfinal, if_pos hallows]
      exact ⟨⟨r, rfl, hallows⟩, get?_modify _ log i⟩
    · cases h

/-- Only a record in its place cannot be rejected. -/
theorem get?_reject (h : (log.reject i code).refusal = none) :
    (∃ r, log.get? i = some r ∧ r.state ≠ .spliced) ∧ ∀ j,
      (log.reject i code).log.get? j = (log.get? j).map fun r =>
        if i = j then r.reject code else r := by
  unfold reject at h ⊢
  cases hr : log.get? i with
  | none => rw [hr] at h; cases h
  | some r =>
    rw [hr] at h
    dsimp only at h ⊢
    split at h
    · rename_i hstate
      rw [if_pos hstate]
      refine ⟨⟨r, rfl, by rw [hstate]; decide⟩, fun j => ?_⟩
      unfold note
      rw [get?_modify]
      by_cases hij : i = j
      · subst hij
        simp [hr, Record.reject, ← hstate]
      · simp [hij]
    · rename_i hstate
      rw [if_neg hstate]
      obtain ⟨⟨r', hr', hallows⟩, hget⟩ := get?_advance h
      have hnote (j : Nat) : (log.note i code).get? j = (log.get? j).map fun r =>
          if i = j then { r with codes := r.codes ++ [code] } else r :=
        get?_modify ..
      have heq : r' = { r with codes := r.codes ++ [code] } := by
        rw [hnote, hr] at hr'
        simpa using hr'.symm
      refine ⟨⟨r, rfl, fun hs => ?_⟩, fun j => ?_⟩
      · rw [heq] at hallows
        dsimp only at hallows
        rw [hs] at hallows
        cases hallows
      · rw [hget, hnote, Option.map_map]
        congr 1
        funext r
        dsimp only [Function.comp_apply]
        split <;> rfl

/-- What rejecting a list of records does to the record of number `j`. -/
theorem get?_rejectAll (h : (log.rejectAll code is).refusal = none) (j : Nat) :
    (log.rejectAll code is).log.get? j = (log.get? j).map fun r =>
      if j ∈ is ∧ r.state.isFinal = false then r.reject code else r := by
  fun_induction rejectAll log code is with
  | case1 => simp
  | case2 => cases h
  | case3 log i is r hr hfinal ih =>
    rw [ih h]
    cases hj : log.get? j with
    | none => rfl
    | some r' =>
      by_cases hij : j = i
      · subst hij
        cases hr.symm.trans hj
        simp [hfinal]
      · simp [hij]
  | case4 log i is r hr hfinal e hsome =>
    rw [h] at hsome
    cases hsome
  | case5 log i is r hr hfinal e hnone ih =>
    obtain ⟨-, hget⟩ := @get?_reject log i code (by simpa using hnone)
    rw [ih h, hget, Option.map_map]
    cases hj : log.get? j with
    | none => rfl
    | some r' =>
      by_cases hij : i = j
      · subst hij
        cases hr.symm.trans hj
        have hopen : r.state.isFinal = false := by simpa using hfinal
        have hclosed : (r.reject code).state.isFinal := rfl
        simp [hopen, hclosed]
      · simp [hij, Ne.symm hij]

theorem get?_rejectWith (h : (log.rejectWith i codes).refusal = none) :
    (∀ r, log.get? i = some r → codes ≠ [] → r.state ≠ .spliced) ∧ ∀ j,
      (log.rejectWith i codes).log.get? j = (log.get? j).map fun r =>
        if i = j then r.rejectWith codes else r := by
  fun_induction rejectWith log i codes with
  | case1 => simp [Record.rejectWith]
  | case2 log code codes e hsome =>
    rw [h] at hsome
    cases hsome
  | case3 log code codes e hnone ih =>
    obtain ⟨⟨r, hr, hstate⟩, hget⟩ := @get?_reject log i code (by simpa using hnone)
    refine ⟨fun r' hr' _ => ?_, fun j => ?_⟩
    · cases hr.symm.trans hr'
      exact hstate
    · rw [(ih h).2, hget, Option.map_map]
      congr 1
      funext r
      dsimp only [Function.comp_apply]
      split <;> rfl

theorem get?_enter (j : Nat) :
    (log.enter form span binding).get? j =
      if j = log.size then some { index := log.size, form, span, binding } else log.get? j := by
  unfold enter get? size
  dsimp only
  split
  · rename_i h
    simp [h]
  · rename_i h
    rcases Nat.lt_or_gt_of_ne h with h | h
    · rw [getElem?_append_left h]
    · rw [getElem?_eq_none (by simp; omega), getElem?_eq_none (by omega)]

theorem lt_size_iff : i < log.size ↔ ∃ r, log.get? i = some r := by
  simp [size, get?, ← Option.isSome_iff_exists]

/-- All records are those of a program that is being read. -/
def Raw (log : Log) : Prop := ∀ {i r}, log.get? i = some r → r.Raw i

/-- What was entered up to `log` is still there in `log'`, and the program is still being read. -/
structure Leads (log log' : Log) : Prop where
  size : log.size ≤ log'.size
  record : ∀ {i r}, log.get? i = some r → ∃ r', log'.get? i = some r' ∧ r.Leads r'
  raw : log.Raw → log'.Raw

theorem Leads.refl (log : Log) : log.Leads log := ⟨Nat.le_refl _, fun h => ⟨_, h, .refl _⟩, id⟩

theorem Leads.trans (h : log.Leads log1) (h' : log1.Leads log2) : log.Leads log2 where
  size := Nat.le_trans h.size h'.size
  record hr := by
    obtain ⟨r1, hr1, hle⟩ := h.record hr
    obtain ⟨r2, hr2, hle'⟩ := h'.record hr1
    exact ⟨r2, hr2, hle.trans hle'⟩
  raw := h'.raw ∘ h.raw

/-- An edit that changes single records. -/
theorem Leads.of_map {f : Nat → Record → Record} (hsize : log1.size = log.size)
    (hget : ∀ j, log1.get? j = (log.get? j).map (f j))
    (hleads : ∀ {j r}, log.get? j = some r → r.Leads (f j r))
    (hraw : ∀ {j r}, r.Raw j → (f j r).Raw j) : log.Leads log1 where
  size := Nat.le_of_eq hsize.symm
  record {j r} hr := ⟨f j r, by rw [hget, hr]; rfl, hleads hr⟩
  raw h {j r} hr := by
    rw [hget] at hr
    obtain ⟨r', hr', rfl⟩ := Option.map_eq_some_iff.mp hr
    exact hraw (h hr')

theorem leads_enter :
    log.Leads (log.enter form span binding) where
  size := by rw [size_enter]; exact Nat.le_succ _
  record {j r} hr := by
    have hlt := lt_size_iff.mpr ⟨r, hr⟩
    exact ⟨r, by rw [get?_enter, if_neg (Nat.ne_of_lt hlt), hr], .refl _⟩
  raw h {j r} hr := by
    rw [get?_enter] at hr
    split at hr
    · rename_i hj
      cases hr
      exact ⟨hj.symm, rfl, .inl rfl, nofun, nofun⟩
    · exact h hr

theorem leads_advance_parsed (h : (log.advance i .parsed).refusal = none) :
    log.Leads (log.advance i .parsed).log := by
  obtain ⟨⟨r, hr, hallows⟩, hget⟩ := get?_advance h
  refine .of_map (size_advance ..) hget (fun {j r'} hr' => ?_) fun {j r'} hraw => ?_
  · split
    · rename_i hij
      subst hij
      cases hr.symm.trans hr'
      refine ⟨List.Subset.refl _, fun hfinal => ?_⟩
      rw [State.allows, hfinal] at hallows
      cases hallows
    · exact .refl _
  · split
    · exact ⟨hraw.index, hraw.fresh, .inr (.inl rfl), nofun, hraw.reasons⟩
    · exact hraw

theorem leads_rejectAll (hcode : code ≠ .shadowing) (h : (log.rejectAll code is).refusal = none) :
    log.Leads (log.rejectAll code is).log := by
  refine .of_map (size_rejectAll ..) (get?_rejectAll h) (fun {j r} _ => ?_) fun {j r} hraw => ?_
  · split
    · rename_i hj
      refine ⟨subset_append_left .., fun hfinal => ?_⟩
      rw [hj.2] at hfinal
      cases hfinal
    · exact .refl _
  · split
    · exact hraw.reject hcode
    · exact hraw

theorem leads_rejectWith (hcodes : .shadowing ∉ codes) (h : (log.rejectWith i codes).refusal = none) :
    log.Leads (log.rejectWith i codes).log := by
  obtain ⟨hstate, hget⟩ := get?_rejectWith h
  refine .of_map (size_rejectWith ..) hget (fun {j r} hr => ?_) fun {j r} hraw => ?_
  · split
    · rename_i hij
      subst hij
      exact Record.leads_rejectWith (hstate r hr)
    · exact .refl _
  · split
    · exact hraw.rejectWith hcodes
    · exact hraw

/-- The record of number `i` is in a final state, or it was read inside a step that is no
expression, of a step binding that was rejected for it. -/
def Settled (log : Log) (i : Nat) : Prop :=
  (∃ r, log.get? i = some r ∧ r.state.isFinal = true) ∨
    ∃ j < i, ∃ r, log.get? j = some r ∧ r.state.isFinal = true ∧ .grammar ∈ r.codes

theorem Leads.settled (h : log.Leads log1) (hs : log.Settled i) : log1.Settled i := by
  rcases hs with ⟨r, hr, hfinal⟩ | ⟨j, hj, r, hr, hfinal, hcode⟩
  · obtain ⟨r', hr', hle⟩ := h.record hr
    exact .inl ⟨r', hr', by rw [hle.final hfinal]; exact hfinal⟩
  · obtain ⟨r', hr', hle⟩ := h.record hr
    exact .inr ⟨j, hj, r', hr', by rw [hle.final hfinal]; exact hfinal, hle.codes hcode⟩

/-- A step binding was rejected, with those inside its steps. -/
structure Rejects (log : Log) (i : Nat) (codes : List Code) (is : List Nat) (log' : Log) : Prop where
  leads : log.Leads log'
  size : log'.size = log.size
  own : i < log.size → ∃ r, log'.get? i = some r ∧ r.state = .rejected ∧ codes ⊆ r.codes
  inner : ∀ j ∈ is, j < log.size → ∃ r, log'.get? j = some r ∧ r.state.isFinal = true
  outer : (∀ j ∈ is, i ≤ j) → ∀ j < i, log'.get? j = log.get? j

theorem rejects_of_edits {codes : List Code} {is : List Nat} (hne : codes ≠ [])
    (hcode : code ≠ .shadowing) (hcodes : .shadowing ∉ codes)
    (hall : (log.rejectAll code is).refusal = none)
    (hwith : ((log.rejectAll code is).log.rejectWith i codes).refusal = none) :
    log.Rejects i codes is ((log.rejectAll code is).log.rejectWith i codes).log := by
  have hleads := leads_rejectAll hcode hall
  have hleads' := leads_rejectWith hcodes hwith
  refine ⟨hleads.trans hleads', ?_, fun hi => ?_, fun j hj hlt => ?_, fun his j hj => ?_⟩
  · rw [size_rejectWith, size_rejectAll]
  · obtain ⟨r, hr⟩ := lt_size_iff.mp (Nat.lt_of_lt_of_le hi hleads.size)
    refine ⟨r.rejectWith codes, ?_, Record.rejectWith_spec hne⟩
    rw [(get?_rejectWith hwith).2, hr]
    simp
  · obtain ⟨r, hr⟩ := lt_size_iff.mp hlt
    have hr' := get?_rejectAll hall j
    rw [hr, Option.map_some] at hr'
    obtain ⟨r', hr'', hle⟩ := hleads'.record hr'
    have hfinal : (if j ∈ is ∧ r.state.isFinal = false then r.reject code else r).state.isFinal =
        true := by
      split
      · rfl
      · rename_i hnot
        cases hs : r.state.isFinal with
        | true => rfl
        | false => exact absurd ⟨hj, hs⟩ hnot
    exact ⟨r', hr'', by rw [hle.final hfinal]; exact hfinal⟩
  · have hnot : j ∉ is := fun hmem => absurd (his j hmem) (Nat.not_le.mpr hj)
    rw [(get?_rejectWith hwith).2, get?_rejectAll hall]
    simp [hnot, Nat.ne_of_gt hj]

/-- With the step binding all that was entered since is settled, if the step bindings in its steps
are, or if one of its steps is no expression. -/
theorem Rejects.settled (h : log.Rejects i codes is log1) (hi : i < log.size)
    (hin : .grammar ∈ codes ∨ ∀ j, i < j → j < log.size → j ∈ is ∨ log.Settled j) (hij : i ≤ j)
    (hj : j < log.size) : log1.Settled j := by
  obtain ⟨r, hr, hstate, hcodes⟩ := h.own hi
  have hfinal : r.state.isFinal := by rw [hstate]; rfl
  rcases Nat.eq_or_lt_of_le hij with rfl | hij
  · exact .inl ⟨r, hr, hfinal⟩
  rcases hin with hcode | hin
  · exact .inr ⟨i, hij, r, hr, hfinal, hcodes hcode⟩
  · exact (hin j hij hj).elim (fun hmem => .inl (h.inner j hmem hj)) h.leads.settled

end Log

end StepBinding.Construct
