import StepBinding.Proofs.Construct.Records
import StepBinding.Proofs.Tree.Form

/-! The step bindings of a tree in a log. Every node that stands for a step binding, be it accepted
or rejected, has a number, and the record of that number tells the same as the node. While a tree
is read the log only grows at its end: records that were there are left as they are. Edits of
records that exist and are not in their place yet are never refused. -/

namespace StepBinding

open List

variable {n : Node}

namespace Tree

/-- The nodes that stand for step bindings. -/
def entries (ns : List Node) : List Node := ns.filter fun n => (number? n).isSome

@[simp] theorem entries_append (ns ms : List Node) : entries (ns ++ ms) = entries ns ++ entries ms :=
  filter_append ..

theorem entries_cons_none (ns : List Node) (h : number? n = none) :
    entries (n :: ns) = entries ns := by
  simp [entries, h]

/-- The numbers of some nodes. -/
def numbers (ns : List Node) : List Nat := ns.filterMap number?

/-- The numbers of the step bindings that were not rejected are among all numbers. -/
theorem marks_sublist (ns : List Node) : (marks ns).Sublist (numbers ns) := by
  induction ns with
  | nil => exact .slnil
  | cons n ns ih =>
    unfold marks numbers at ih ⊢
    cases hi : construct? n with
    | none =>
      rw [filterMap_cons_none hi]
      exact ih.trans ((sublist_cons_self n ns).filterMap _)
    | some i =>
      rw [filterMap_cons_some hi, filterMap_cons_some (number?_of_construct? hi)]
      exact ih.cons_cons i

theorem numbers_entries (ns : List Node) : numbers (entries ns) = numbers ns := by
  unfold numbers entries
  rw [filterMap_filter]
  congr 1
  funext n
  cases number? n <;> rfl

theorem marks_entries (ns : List Node) : marks (entries ns) = marks ns := by
  unfold marks entries
  rw [filterMap_filter]
  congr 1
  funext n
  cases hi : construct? n with
  | none => split <;> rfl
  | some i => rw [number?_of_construct? hi]; rfl

end Tree

namespace Construct

open StepBinding.Tree

namespace Record

/-- The record of a step binding of the given form and binding that was read without a problem. -/
structure Accepted (form : Form) (binding : String) (r : Record) : Prop where
  state : r.state = .parsed
  form : r.form = form
  binding : r.binding = some binding
  codes : r.codes = []

/-- The record of a step binding that was rejected for a reason. -/
structure Refused (r : Record) : Prop where
  state : r.state = .rejected
  codes : r.codes ≠ []

end Record

namespace Log

variable {log log₁ log₂ : Log} {i : Nat} {r : Record}

/-- The log has grown at its end only. -/
structure Extends (log log₁ : Log) : Prop where
  size : log.size ≤ log₁.size
  get? : ∀ i < log.size, log₁.get? i = log.get? i

theorem Extends.refl (log : Log) : log.Extends log := ⟨Nat.le_refl _, fun _ _ => rfl⟩

theorem Extends.trans (h : log.Extends log₁) (h' : log₁.Extends log₂) : log.Extends log₂ where
  size := Nat.le_trans h.size h'.size
  get? i hi := (h'.get? i (Nat.lt_of_lt_of_le hi h.size)).trans (h.get? i hi)

theorem Extends.settled (h : log.Extends log₁) (hs : log.Settled i) : log₁.Settled i := by
  have hkept {j : Nat} {r : Record} (hr : log.get? j = some r) : log₁.get? j = some r :=
    (h.get? j (lt_size_iff.mpr ⟨r, hr⟩)).trans hr
  rcases hs with ⟨r, hr, hfinal⟩ | ⟨j, hj, r, hr, hcode⟩
  · exact .inl ⟨r, hkept hr, hfinal⟩
  · exact .inr ⟨j, hj, r, hkept hr, hcode⟩

theorem extends_enter (form : Form) (span : Span) (binding : Option String) :
    log.Extends (log.enter form span binding) where
  size := by rw [size_enter]; exact Nat.le_succ _
  get? i hi := by rw [get?_enter, if_neg (Nat.ne_of_lt hi)]

/-- The record of number `i` is in the state `s`. -/
def Stands (log : Log) (i : Nat) (s : State) : Prop := ∃ r, log.get? i = some r ∧ r.state = s

section Refusals

theorem refusal_advance {target : State} (hr : log.get? i = some r)
    (h : r.state.allows target) : (log.advance i target).refusal = none := by
  have hfinal : r.state.isFinal = false := by
    rw [State.allows, Bool.and_eq_true] at h
    simpa using h.1
  unfold advance
  rw [hr]
  dsimp only
  rw [if_neg (by simp [hfinal]), if_pos h]

theorem refusal_reject {code : Code} (hr : log.get? i = some r) (h : r.state ≠ .spliced) :
    (log.reject i code).refusal = none := by
  unfold reject
  rw [hr]
  dsimp only
  split
  · rfl
  · rename_i hne
    refine refusal_advance (r := { r with codes := r.codes ++ [code] }) ?_ ?_
    · rw [note, get?_modify, hr]
      simp
    · dsimp only
      cases hs : r.state <;> first | rfl | exact absurd hs h | exact absurd hs hne

theorem refusal_rejectAll {code : Code} {is : List Nat} (h : ∀ i ∈ is, i < log.size) :
    (log.rejectAll code is).refusal = none := by
  fun_induction rejectAll log code is with
  | case1 => rfl
  | case2 log i is hnone =>
    obtain ⟨r, hr⟩ := lt_size_iff.mp (h i mem_cons_self)
    rw [hnone] at hr
    cases hr
  | case3 log i is r hr hfinal ih => exact ih fun j hj => h j (mem_cons_of_mem _ hj)
  | case4 log i is r hr hfinal e hsome =>
    have hnone : e.refusal = none := refusal_reject hr fun hs => hfinal (by rw [hs]; rfl)
    rw [hnone] at hsome
    cases hsome
  | case5 log i is r hr hfinal e hnone ih =>
    refine ih fun j hj => ?_
    rw [show e.log.size = log.size from size_reject ..]
    exact h j (mem_cons_of_mem _ hj)

theorem refusal_rejectWith {codes : List Code} (hr : log.get? i = some r) (h : r.state ≠ .spliced) :
    (log.rejectWith i codes).refusal = none := by
  induction codes generalizing log r with
  | nil => rfl
  | cons code codes ih =>
    have hnone := @refusal_reject log i r code hr h
    have hget := (get?_reject hnone).2 i
    rw [hr] at hget
    unfold rejectWith
    dsimp only
    rw [if_neg (by simp [hnone])]
    exact ih (r := r.reject code) (by simpa using hget) (by rintro ⟨⟩)

end Refusals

end Log

/-- The log tells the same of a step binding as its node. -/
def Recorded (log : Log) : Node → Prop
  | .expr (.steps _ _ binding steps i _) =>
    steps ≠ [] ∧ ∃ r, log.get? i = some r ∧ r.Accepted .expression binding
  | .stmt (.steps _ _ binding _ steps i _) =>
    steps ≠ [] ∧ ∃ r, log.get? i = some r ∧ r.Accepted .declaration binding
  | .expr (.rejected _ _ i) => ∃ r, log.get? i = some r ∧ r.Refused
  | .stmt (.rejected _ _ i) => ∃ r, log.get? i = some r ∧ r.Refused
  | _ => True

theorem recorded_of_none {log : Log} (h : number? n = none) : Recorded log n := by
  cases n with
  | expr e => cases e <;> trivial
  | stmt s => cases s <;> trivial
  | property p => trivial
  | declarator d => trivial

/-- Only the record of its own number counts for a node. -/
theorem Recorded.of_get? {log log' : Log} (h : Recorded log n)
    (hget : ∀ i ∈ number? n, log'.get? i = log.get? i) : Recorded log' n := by
  unfold Recorded at h ⊢
  split at h
  · exact ⟨h.1, by rw [hget _ rfl]; exact h.2⟩
  · exact ⟨h.1, by rw [hget _ rfl]; exact h.2⟩
  · rw [hget _ rfl]; exact h
  · rw [hget _ rfl]; exact h
  · trivial

/-- The nodes were entered one after the other between two states of the log, which tells the same
of them. -/
structure Filed (log : Log) (ns : List Node) (log' : Log) : Prop where
  sorted : (numbers ns).Pairwise (· < ·)
  bounds : ∀ i ∈ numbers ns, log.size ≤ i ∧ i < log'.size
  recorded : ∀ n ∈ ns, Recorded log' n

namespace Filed

variable {log log₁ log₂ : Log} {ns ms : List Node}

theorem nil : Filed log [] log₁ := ⟨.nil, nofun, nofun⟩

/-- Records with other numbers do not count. -/
theorem congr (h : Filed log ns log₁) (hsize : log₁.size ≤ log₂.size)
    (hget : ∀ i ∈ numbers ns, log₂.get? i = log₁.get? i) : Filed log ns log₂ where
  sorted := h.sorted
  bounds i hi := ⟨(h.bounds i hi).1, Nat.lt_of_lt_of_le (h.bounds i hi).2 hsize⟩
  recorded n hn := (h.recorded n hn).of_get? fun i hi => hget i (mem_filterMap.mpr ⟨n, hn, hi⟩)

theorem extend (h : Filed log ns log₁) (he : log₁.Extends log₂) : Filed log ns log₂ :=
  h.congr he.size fun i hi => he.get? i (h.bounds i hi).2

/-- Nodes that stand for no step binding do not count. -/
theorem congr_left (h : Filed log ns log₁) (he : entries ms = entries ns) : Filed log ms log₁ := by
  have hnumbers : numbers ms = numbers ns := by rw [← numbers_entries, he, numbers_entries]
  refine ⟨hnumbers ▸ h.sorted, hnumbers ▸ h.bounds, fun n hn => ?_⟩
  cases hi : number? n with
  | none => exact recorded_of_none hi
  | some i =>
    have hmem : n ∈ entries ms := mem_filter.mpr ⟨hn, by rw [hi]; rfl⟩
    rw [he] at hmem
    exact h.recorded n (mem_filter.mp hmem).1

theorem weaken (h : Filed log₁ ns log₂) (hsize : log.size ≤ log₁.size) : Filed log ns log₂ :=
  ⟨h.sorted, fun i hi => ⟨Nat.le_trans hsize (h.bounds i hi).1, (h.bounds i hi).2⟩, h.recorded⟩

theorem append (h : Filed log ns log₁) (hl : log.Extends log₁) (h' : Filed log₁ ms log₂)
    (he : log₁.Extends log₂) : Filed log (ns ++ ms) log₂ where
  sorted := by
    rw [numbers, filterMap_append]
    refine pairwise_append.mpr ⟨h.sorted, h'.sorted, fun i hi j hj => ?_⟩
    exact Nat.lt_of_lt_of_le (h.bounds i hi).2 (h'.bounds j hj).1
  bounds i hi := by
    rw [numbers, filterMap_append] at hi
    exact (mem_append.mp hi).elim ((h.extend he).bounds i) ((h'.weaken hl.size).bounds i)
  recorded n hn :=
    (mem_append.mp hn).elim ((h.extend he).recorded n) (h'.recorded n)

/-- A node with the number that comes first. -/
theorem cons {n : Node} (hn : number? n = some log.size) (hr : Recorded log₂ n)
    (h : Filed log₁ ns log₂) (hlt : log.size < log₁.size) (hle : log₁.size ≤ log₂.size) :
    Filed log (n :: ns) log₂ where
  sorted := by
    rw [numbers, filterMap_cons_some hn]
    exact pairwise_cons.mpr ⟨fun i hi => Nat.lt_of_lt_of_le hlt (h.bounds i hi).1, h.sorted⟩
  bounds := by
    rw [numbers, filterMap_cons_some hn]
    refine forall_mem_cons.mpr ⟨⟨Nat.le_refl _, Nat.lt_of_lt_of_le hlt hle⟩, fun i hi => ?_⟩
    exact (h.weaken (Nat.le_of_lt hlt)).bounds i hi
  recorded := forall_mem_cons.mpr ⟨hr, h.recorded⟩

theorem mem_bounds (h : Filed log ns log₁) {i : Nat} (hi : i ∈ marks ns) :
    log.size ≤ i ∧ i < log₁.size := by
  obtain ⟨n, hn, hi⟩ := mem_filterMap.mp hi
  exact h.bounds i (mem_filterMap.mpr ⟨n, hn, number?_of_construct? hi⟩)

end Filed

end Construct

end StepBinding
