import StepBinding.Proofs.Resolve.Bindings

/-! What resolving does to the log. The edits of a visit concern the step bindings of the tree that
is visited, each of which is in the new tree or rejected by an edit. Edits that are not refused act
on single records, so the record that a number ends up with is told by the edits for that number.
None is refused if all these step bindings were parsed, since each is settled or rejected once,
after those inside of it. -/

namespace StepBinding

open List StepBinding.Tree Construct

variable {name : String}

namespace Resolve

variable {e : Edit} {code : Code}

namespace Edit

variable {log log' : Log} {i : Nat} {r : Record} {edits : List Edit}

/-- The records that an edit concerns. -/
def indices : Edit → List Nat
  | note i _ | settle i _ | reject i _ => [i]
  | rejectAll is _ => is

/-- The edit rejects the record of number `i`. -/
def Rejects (i : Nat) : Edit → Prop
  | reject j _ => i = j
  | rejectAll is _ => i ∈ is
  | _ => False

/-- An edit does not reject for a warning. -/
def Fair : Edit → Prop
  | reject _ code | rejectAll _ code => code ≠ .shadowing
  | _ => True

/-- What an edit that is not refused makes of the record of number `i`. -/
def act (i : Nat) (r : Record) : Edit → Record
  | note j code => if j = i then { r with codes := r.codes ++ [code] } else r
  | settle j fresh =>
    if j = i ∧ r.state.isFinal = false then { r with fresh := some fresh, state := .resolved } else r
  | reject j code => if j = i then r.reject code else r
  | rejectAll is code => if i ∈ is ∧ r.state.isFinal = false then r.reject code else r

theorem get?_apply (h : (e.apply log).refusal = none) (i : Nat) :
    (e.apply log).log.get? i = (log.get? i).map fun r => e.act i r := by
  cases e with
  | note j code => exact Log.get?_modify ..
  | reject j code => exact (Log.get?_reject h).2 i
  | rejectAll is code => exact Log.get?_rejectAll h i
  | settle j fresh =>
    obtain ⟨⟨r, hr, hallows⟩, hget⟩ := Log.get?_advance h
    change (Log.advance _ j .resolved).log.get? i = _
    rw [hget, Log.get?_modify, Option.map_map]
    rw [Log.get?_modify] at hr
    obtain ⟨r', hr', rfl⟩ := Option.map_eq_some_iff.mp hr
    by_cases hij : j = i
    · subst hij
      have hopen : r'.state.isFinal = false := by
        cases hf : r'.state.isFinal with
        | false => rfl
        | true => simp [State.allows, hf] at hallows
      simp [hr', act, hopen]
    · cases log.get? i <;> simp [hij, act]

/-- What edits that are not refused make of the record of number `i`. -/
theorem get?_applyAll (h : applyAll log edits = .ok log') (i : Nat) :
    log'.get? i = (log.get? i).map fun r => edits.foldl (fun r e => e.act i r) r := by
  induction edits generalizing log with
  | nil =>
    cases h
    simp
  | cons e edits ih =>
    unfold applyAll at h
    dsimp only at h
    split at h
    · cases h
    · rename_i hnone
      rw [ih h, get?_apply hnone, Option.map_map]
      rfl

/-- What each edit preserves, all together do. -/
theorem foldl_act {P : Record → Prop} (hr : P r) (h : ∀ e ∈ edits, ∀ r, P r → P (e.act i r)) :
    P (edits.foldl (fun r e => e.act i r) r) := by
  induction edits generalizing r with
  | nil => exact hr
  | cons e edits ih =>
    obtain ⟨he, hedits⟩ := forall_mem_cons.mp h
    exact ih (he r hr) hedits

theorem act_of_notMem (h : i ∉ e.indices) : e.act i r = r := by
  cases e with
  | note j code | settle j fresh | reject j code =>
    have hij : j ≠ i := fun hij => h (mem_singleton.mpr hij.symm)
    simp [act, hij]
  | rejectAll is code =>
    have hmem : i ∉ is := h
    simp [act, hmem]

/-- A final state is not left, and no edit puts a step binding in its place. -/
theorem state_act (e : Edit) :
    (r.state.isFinal → (e.act i r).state.isFinal) ∧
      (r.state ≠ .spliced → (e.act i r).state ≠ .spliced) := by
  cases e with
  | note j code =>
    simp only [act]
    split <;> exact ⟨id, id⟩
  | settle j fresh =>
    simp only [act]
    split
    · rename_i h
      rw [h.2]
      exact ⟨nofun, fun _ => nofun⟩
    · exact ⟨id, id⟩
  | reject j code | rejectAll is code =>
    simp only [act]
    split
    · exact ⟨fun _ => rfl, fun _ => nofun⟩
    · exact ⟨id, id⟩

theorem isFinal_act (h : e.Rejects i) : (e.act i r).state.isFinal := by
  cases e with
  | note | settle => exact h.elim
  | reject j code =>
    cases h
    simp [act, Record.reject, State.isFinal]
  | rejectAll is code =>
    simp only [act]
    cases hf : r.state.isFinal with
    | false =>
      rw [if_pos ⟨h, rfl⟩]
      rfl
    | true => rw [if_neg (by simp), hf]

theorem fair_act (he : e.Fair) (h : r.Fair) : (e.act i r).Fair := by
  cases e with
  | note j code =>
    simp only [act]
    split
    · intro hstate
      obtain ⟨code', hmem, hne⟩ := h hstate
      exact ⟨code', mem_append_left _ hmem, hne⟩
    · exact h
  | settle j fresh =>
    simp only [act]
    split
    · exact nofun
    · exact h
  | reject j code | rejectAll is code =>
    simp only [act]
    split
    · exact Record.fair_reject he
    · exact h

theorem index_act (e : Edit) : (e.act i r).index = r.index := by
  cases e <;> simp only [act] <;> split <;> rfl

theorem codes_act (e : Edit) : r.codes ⊆ (e.act i r).codes := by
  cases e with
  | note | reject | rejectAll =>
    simp only [act]
    split
    · exact subset_append_left ..
    · exact List.Subset.refl _
  | settle =>
    simp only [act]
    split <;> exact List.Subset.refl _

/-- A fresh name comes from an edit that settles the record. -/
theorem fresh_act (h : (e.act i r).fresh = some name) :
    r.fresh = some name ∨ e = .settle i name := by
  cases e with
  | settle j fresh =>
    simp only [act] at h
    split at h
    · rename_i hj
      cases h
      exact .inr (by rw [hj.1])
    · exact .inl h
  | note | reject | rejectAll =>
    simp only [act] at h
    split at h <;> exact .inl h

/-- A record that is resolved has its fresh name. -/
theorem named_act (e : Edit) (h : r.state = .resolved → r.fresh.isSome) :
    (e.act i r).state = .resolved → (e.act i r).fresh.isSome := by
  cases e with
  | settle j fresh =>
    simp only [act]
    split
    · exact fun _ => rfl
    · exact h
  | note j code =>
    simp only [act]
    split <;> exact h
  | reject j code | rejectAll is code =>
    simp only [act]
    split
    · exact nofun
    · exact h

/-- A record that some edit rejects ends up in a final state. -/
theorem isFinal_foldl (he : e ∈ edits) (h : e.Rejects i) :
    (edits.foldl (fun r e => e.act i r) r).state.isFinal := by
  obtain ⟨before, after, rfl⟩ := append_of_mem he
  rw [foldl_append]
  exact @foldl_act i _ after (·.state.isFinal) (isFinal_act h) fun e _ r hr => (state_act e).1 hr

end Edit

namespace Edit

variable {log log₁ : Log} {i : Nat} {s : State} {l k : List Nat} {es es' : List Edit}

theorem applyAll_cons (h : (e.apply log).refusal = none) :
    applyAll log (e :: es) = applyAll (e.apply log).log es := by
  rw [applyAll.eq_2, h]

theorem applyAll_append (h : applyAll log es = .ok log₁) :
    applyAll log (es ++ es') = applyAll log₁ es' := by
  induction es generalizing log with
  | nil =>
    cases h
    rfl
  | cons e es ih =>
    cases hrefusal : (e.apply log).refusal with
    | none =>
      rw [applyAll_cons hrefusal] at h
      rw [cons_append, applyAll_cons hrefusal, ih h]
    | some why =>
      rw [applyAll.eq_2, hrefusal] at h
      cases h

/-- Edits leave a record alone that they do not concern. -/
theorem stands_of_notMem (h : applyAll log es = .ok log₁) (hi : ∀ e ∈ es, i ∉ e.indices)
    (hs : log.Stands i s) : log₁.Stands i s := by
  obtain ⟨r, hr, hstate⟩ := hs
  refine ⟨_, by rw [get?_applyAll h, hr]; rfl, ?_⟩
  exact foldl_act (P := (·.state = s)) hstate fun e he r hr => by rwa [act_of_notMem (hi e he)]

theorem refusal_settle (name : String) (h : log.Stands i .parsed) :
    ((settle i name).apply log).refusal = none := by
  obtain ⟨r, hr, hstate⟩ := h
  refine Log.refusal_advance (r := { r with fresh := some name }) ?_ (by rw [hstate]; rfl)
  rw [Log.get?_modify, hr]
  simp

theorem stands_settle (name : String) (h : log.Stands i .parsed) :
    ((settle i name).apply log).log.Stands i .resolved := by
  have hget := get?_apply (refusal_settle name h) i
  obtain ⟨r, hr, hstate⟩ := h
  exact ⟨_, by rw [hget, hr]; rfl, by simp [act, hstate, State.isFinal]⟩

/-- The edits are not refused where the records `l` are parsed, and then those of `k` are resolved. -/
def Settles (l k : List Nat) (es : List Edit) : Prop :=
  l.Nodup → ∀ log : Log, (∀ i ∈ l, log.Stands i .parsed) →
    ∃ log₁, applyAll log es = .ok log₁ ∧ ∀ i ∈ k, log₁.Stands i .resolved

namespace Settles

theorem append {l' k' : List Nat} (h : Settles l k es) (h' : Settles l' k' es') (hk : k ⊆ l)
    (hes : ∀ e ∈ es, ∀ i ∈ e.indices, i ∈ l) (hes' : ∀ e ∈ es', ∀ i ∈ e.indices, i ∈ l') :
    Settles (l ++ l') (k ++ k') (es ++ es') := by
  intro hnodup log hlog
  obtain ⟨hl, hl', hdisjoint⟩ := nodup_append.mp hnodup
  obtain ⟨log₁, hrun, hresolved⟩ := h hl log fun i hi => hlog i (mem_append_left _ hi)
  have hparsed (i : Nat) (hi : i ∈ l') : log₁.Stands i .parsed :=
    stands_of_notMem hrun (fun e he hmem => hdisjoint i (hes e he i hmem) i hi rfl)
      (hlog i (mem_append_right _ hi))
  obtain ⟨log₂, hrun', hresolved'⟩ := h' hl' log₁ hparsed
  refine ⟨log₂, (applyAll_append hrun).trans hrun', fun i hi => ?_⟩
  rcases mem_append.mp hi with hi | hi
  · exact stands_of_notMem hrun' (fun e he hmem => hdisjoint i (hk hi) i (hes' e he i hmem) rfl)
      (hresolved i hi)
  · exact hresolved' i hi

theorem settled (h : Settles l k es) (hk : k ⊆ l) (hes : ∀ e ∈ es, ∀ i ∈ e.indices, i ∈ l) :
    Settles (i :: l) (i :: k) (es ++ [.settle i name]) := by
  intro hnodup log hlog
  obtain ⟨hi, hl⟩ := nodup_cons.mp hnodup
  obtain ⟨hhere, hinside⟩ := forall_mem_cons.mp hlog
  obtain ⟨log₁, hrun, hresolved⟩ := h hl log hinside
  have hparsed : log₁.Stands i .parsed :=
    stands_of_notMem hrun (fun e he hmem => hi (hes e he i hmem)) hhere
  have hlast : applyAll log₁ [.settle i name] = _ := applyAll_cons (refusal_settle name hparsed)
  refine ⟨_, (applyAll_append hrun).trans hlast, forall_mem_cons.mpr ⟨stands_settle name hparsed, ?_⟩⟩
  refine fun j hj => stands_of_notMem hlast (fun e he hmem => ?_) (hresolved j hj)
  cases mem_singleton.mp he
  cases mem_singleton.mp hmem
  exact hi (hk hj)

theorem rejected (h : Settles l k es) (hes : ∀ e ∈ es, ∀ i ∈ e.indices, i ∈ l) :
    Settles (i :: l) [] (es ++ [.reject i code, .rejectAll k code]) := by
  intro hnodup log hlog
  obtain ⟨hi, hl⟩ := nodup_cons.mp hnodup
  obtain ⟨hhere, hinside⟩ := forall_mem_cons.mp hlog
  obtain ⟨log₁, hrun, hresolved⟩ := h hl log hinside
  obtain ⟨r, hr, hstate⟩ : log₁.Stands i .parsed :=
    stands_of_notMem hrun (fun e he hmem => hi (hes e he i hmem)) hhere
  have hreject : ((reject i code).apply log₁).refusal = none :=
    Log.refusal_reject hr (by rw [hstate]; nofun)
  have hall : ((rejectAll k code).apply ((reject i code).apply log₁).log).refusal = none := by
    refine Log.refusal_rejectAll fun j hj => ?_
    obtain ⟨r', hr', -⟩ := hresolved j hj
    rw [show ((reject i code).apply log₁).log.size = log₁.size from Log.size_reject ..]
    exact Log.lt_size_iff.mpr ⟨r', hr'⟩
  exact ⟨_, (applyAll_append hrun).trans ((applyAll_cons hreject).trans (applyAll_cons hall)), nofun⟩

theorem noted (h : Settles l k es) : Settles l k (.note i code :: es) := by
  intro hnodup log hlog
  have hnote : ((note i code).apply log).refusal = none := rfl
  refine (h hnodup ((note i code).apply log).log fun j hj => ?_).imp fun log₁ ⟨hrun, hresolved⟩ =>
    ⟨(applyAll_cons hnote).trans hrun, hresolved⟩
  obtain ⟨r, hr, hstate⟩ := hlog j hj
  refine ⟨_, by rw [get?_apply hnote, hr]; rfl, ?_⟩
  simp only [act]
  split <;> exact hstate

end Settles

end Edit

/-- The edits and diagnostics of a visit of a tree with the step bindings `l`, of which `k` are
kept. -/
structure Accounts (ctx : Context) (l k : List Nat) (edits : List Edit) (ds : List Diagnostic) :
    Prop where
  within : ∀ e ∈ edits, ∀ i ∈ e.indices, i ∈ l
  fair : ∀ e ∈ edits, e.Fair
  fresh : ∀ i name, .settle i name ∈ edits → name = ctx.freshOf i
  kept : ∀ i ∈ l, i ∈ k ∨ ∃ e ∈ edits, e.Rejects i
  still : k ⊆ l
  loud : ∀ i, ∀ e ∈ edits, e.Rejects i → ∃ d ∈ ds, d.isError = true
  settles : Edit.Settles l k edits

namespace Accounts

section Parts

variable {ctx : Context} {l k l' k' : List Nat} {es es' : List Edit} {index : Nat}
  {ds ds' : List Diagnostic}

theorem nil : Accounts ctx [] [] [] [] :=
  ⟨nofun, nofun, nofun, nofun, nil_subset _, nofun, fun _ log _ => ⟨log, rfl, nofun⟩⟩

theorem append (h : Accounts ctx l k es ds) (h' : Accounts ctx l' k' es' ds') :
    Accounts ctx (l ++ l') (k ++ k') (es ++ es') (ds ++ ds') where
  within e he i hi := by
    rcases mem_append.mp he with he | he
    · exact mem_append_left _ (h.within e he i hi)
    · exact mem_append_right _ (h'.within e he i hi)
  fair e he := (mem_append.mp he).elim (h.fair e) (h'.fair e)
  fresh i name hi := (mem_append.mp hi).elim (h.fresh i name) (h'.fresh i name)
  kept i hi := by
    rcases mem_append.mp hi with hi | hi
    · refine (h.kept i hi).imp (mem_append_left _) ?_
      exact fun ⟨e, he, hr⟩ => ⟨e, mem_append_left _ he, hr⟩
    · refine (h'.kept i hi).imp (mem_append_right _) ?_
      exact fun ⟨e, he, hr⟩ => ⟨e, mem_append_right _ he, hr⟩
  still := append_subset.mpr ⟨fun i hi => mem_append_left _ (h.still hi),
    fun i hi => mem_append_right _ (h'.still hi)⟩
  loud i e he hr := by
    rcases mem_append.mp he with he | he
    · obtain ⟨d, hd, herr⟩ := h.loud i e he hr
      exact ⟨d, mem_append_left _ hd, herr⟩
    · obtain ⟨d, hd, herr⟩ := h'.loud i e he hr
      exact ⟨d, mem_append_right _ hd, herr⟩
  settles := h.settles.append h'.settles h.still h.within h'.within

/-- A step binding is settled after its steps. -/
theorem settled (h : Accounts ctx l k es ds) :
    Accounts ctx (index :: l) (index :: k) (es ++ [.settle index (ctx.freshOf index)]) ds where
  within e he i hi := by
    rcases mem_append.mp he with he | he
    · exact mem_cons_of_mem _ (h.within e he i hi)
    · cases mem_singleton.mp he
      cases mem_singleton.mp hi
      exact mem_cons_self
  fair e he := (mem_append.mp he).elim (h.fair e) fun he => by
    cases mem_singleton.mp he
    trivial
  fresh i name hi := (mem_append.mp hi).elim (h.fresh i name) fun hi => by
    cases mem_singleton.mp hi
    rfl
  kept i hi := by
    rcases mem_cons.mp hi with rfl | hi
    · exact .inl mem_cons_self
    · refine (h.kept i hi).imp (mem_cons_of_mem _) ?_
      exact fun ⟨e, he, hr⟩ => ⟨e, mem_append_left _ he, hr⟩
  still := cons_subset_cons _ h.still
  loud i e he hr := (mem_append.mp he).elim (fun he => h.loud i e he hr) fun he => by
    cases mem_singleton.mp he
    exact hr.elim
  settles := h.settles.settled h.still h.within

/-- A step binding is rejected after its steps, with those that are left in them. -/
theorem rejected (h : Accounts ctx l k es ds) (hcode : code ≠ .shadowing)
    (hds : ∃ d ∈ ds', d.isError) :
    Accounts ctx (index :: l) [] (es ++ [.reject index code, .rejectAll k code]) (ds ++ ds') where
  within e he i hi := by
    rcases mem_append.mp he with he | he
    · exact mem_cons_of_mem _ (h.within e he i hi)
    rcases mem_cons.mp he with rfl | he
    · cases mem_singleton.mp hi
      exact mem_cons_self
    · cases mem_singleton.mp he
      exact mem_cons_of_mem _ (h.still hi)
  fair e he := by
    rcases mem_append.mp he with he | he
    · exact h.fair e he
    rcases mem_cons.mp he with rfl | he
    · exact hcode
    · cases mem_singleton.mp he
      exact hcode
  fresh i name hi := (mem_append.mp hi).elim (h.fresh i name) fun hi => by
    rcases mem_cons.mp hi with hi | hi
    · cases hi
    · cases mem_singleton.mp hi
  kept i hi := by
    rcases mem_cons.mp hi with rfl | hi
    · exact .inr ⟨.reject i code, mem_append_right _ mem_cons_self, rfl⟩
    rcases h.kept i hi with hi | ⟨e, he, hr⟩
    · refine .inr ⟨.rejectAll k code, mem_append_right _ ?_, hi⟩
      exact mem_cons_of_mem _ mem_cons_self
    · exact .inr ⟨e, mem_append_left _ he, hr⟩
  still := nil_subset _
  loud _ _ _ _ := by
    obtain ⟨d, hd, herr⟩ := hds
    exact ⟨d, mem_append_right _ hd, herr⟩
  settles := h.settles.rejected h.within

/-- A warning is only noted. -/
theorem warned {scope : Scope} {binding : String} {span : Span} (h : Accounts ctx l k es ds)
    (hi : index ∈ l) : Accounts ctx l k ((warn ctx scope binding span index).edits ++ es)
      ((warn ctx scope binding span index).diagnostics ++ ds) := by
  have hedits : (warn ctx scope binding span index).edits = [] ∨
      (warn ctx scope binding span index).edits = [.note index .shadowing] := by
    unfold warn
    split
    · split
      · exact .inr rfl
      · exact .inl rfl
    · exact .inl rfl
  have hwarn : ∀ e ∈ (warn ctx scope binding span index).edits, e = .note index .shadowing := by
    rcases hedits with hnil | hnote
    · rw [hnil]
      exact nofun
    · rw [hnote]
      exact fun e he => mem_singleton.mp he
  refine ⟨fun e he i hi' => ?_, fun e he => ?_, fun i name hi' => ?_, fun i hi' => ?_, h.still,
    fun i e he hr => ?_, ?_⟩
  · rcases mem_append.mp he with he | he
    · cases hwarn e he
      cases mem_singleton.mp hi'
      exact hi
    · exact h.within e he i hi'
  · rcases mem_append.mp he with he | he
    · cases hwarn e he
      trivial
    · exact h.fair e he
  · rcases mem_append.mp hi' with hi' | hi'
    · cases hwarn _ hi'
    · exact h.fresh i name hi'
  · exact (h.kept i hi').imp_right fun ⟨e, he, hr⟩ => ⟨e, mem_append_right _ he, hr⟩
  · rcases mem_append.mp he with he | he
    · cases hwarn e he
      exact hr.elim
    · obtain ⟨d, hd, herr⟩ := h.loud i e he hr
      exact ⟨d, mem_append_right _ hd, herr⟩
  · rcases hedits with hnil | hnote
    · rw [hnil]
      exact h.settles
    · rw [hnote]
      exact h.settles.noted

/-- A step binding from the visits of its steps. It is rejected if its first step refers to it. -/
theorem settle (scope : Scope) {binding : String} (span : Span) (index : Nat) {first : Visit Expr}
    {later : Visit (List Expr)} {steps kept : List Nat}
    (h : Accounts ctx steps kept (first.edits ++ later.edits) (first.diagnostics ++ later.diagnostics))
    (hkept : kept = marks (walkExprs (first.value :: later.value))) :
    Accounts ctx (index :: steps)
      (if ∃ ref ∈ first.unresolved, ref.name = binding then [] else index :: kept)
      (Resolve.settle ctx scope binding span index first later).edits
      (Resolve.settle ctx scope binding span index first later).diagnostics := by
  have hassoc {α : Type} {xs ys zs ws : List α} : xs ++ ys ++ zs ++ ws = xs ++ (ys ++ zs ++ ws) := by
    simp
  unfold Resolve.settle
  dsimp only
  rw [hassoc, hassoc]
  refine Accounts.warned ?_ mem_cons_self
  cases hown : first.unresolved.filter fun ref => ref.name == binding with
  | nil =>
    rw [if_neg (by simpa [filter_eq_nil_iff] using hown), map_nil, append_nil]
    exact h.settled
  | cons ref refs =>
    have href : ref ∈ first.unresolved.filter fun ref => ref.name == binding :=
      hown ▸ mem_cons_self
    rw [if_pos ⟨ref, by simpa using href⟩]
    subst hkept
    exact h.rejected (by decide) ⟨earlyUse ref, mem_cons_self, rfl⟩

end Parts

end Accounts

variable {ctx : Context}

/-- The edits for a tree. -/
theorem accounts_node {n : Node} (hn : n.Filled) (scope : Scope) :
    Accounts ctx (marks (Node.walk n)) (marks (Node.walk (node ctx scope n)))
      (trace ctx scope n).edits (trace ctx scope n).diagnostics := by
  induction n using Node.induction_parts generalizing scope with | step n ih
  have parted {ps qs : List Node.Part} {t : Trace} (h : Parted ctx scope ps qs t)
      (hps : ps ⊆ n.parts) : Accounts ctx (ps.flatMap fun p => marks (Node.walk p.2))
        (qs.flatMap fun q => marks (Node.walk q.2)) t.edits t.diagnostics := by
    induction h with
    | nil => exact .nil
    | cons _ hnode _ _ ih' =>
      obtain ⟨hp, hps⟩ := cons_subset.mp hps
      rw [flatMap_cons, flatMap_cons, hnode]
      exact (ih _ hp (hn.part hp) _).append (ih' hps)
  rw [Node.marks_walk n, Node.marks_walk (node ctx scope n)]
  rcases hn.cases with ⟨span, name, rfl⟩ | ⟨hc, hid⟩ | ⟨span, binding, i, first, later, hsteps⟩
  · obtain ⟨name', hnode⟩ := @node_identifier ctx scope span name
    rw [hnode, trace_identifier]
    exact .nil
  · rw [construct?_node hc, hc]
    exact parted (parted_node n hc hid) (List.Subset.refl _)
  · have hparts := parted (parted_steps binding span i first later)
      (hsteps.parts_eq ▸ List.Subset.refl _)
    have hsettle := @Accounts.settle ctx scope binding span i _ _ _ _ hparts
      (Node.marks_stepParts binding i _)
    rw [trace_steps hsteps, hsteps.parts_eq, hsteps.construct?]
    split at hsettle
    · rename_i hown
      have hrejected := (@node_steps ctx scope _ _ _ _ _ _ hsteps).2.mpr hown
      rwa [parts_rejected hrejected, (declares_rejected hrejected).2]
    · rename_i hown
      have h := (@steps_node ctx scope _ _ _ _ _ _ hsteps).resolve_left
        fun h => hown ((node_steps hsteps).2.mp h)
      rwa [h.construct?, h.parts_eq]

end Resolve

/-- The edits for a module. -/
theorem Resolved.accounts_visit {names : FreshNames} {shadowWarnings : Bool} {globals : List String}
    {m : Module} (h : m.root.Filled) :
    Resolve.Accounts (context names shadowWarnings m) (marks (walkStmts m.body))
      (marks (walkStmts (visit names shadowWarnings globals m).value))
      (visit names shadowWarnings globals m).edits
      (visit names shadowWarnings globals m).diagnostics := by
  have hroot := @Resolve.accounts_node (context names shadowWarnings m) _ h (outerScope globals)
  rwa [trace_root] at hroot

end StepBinding
