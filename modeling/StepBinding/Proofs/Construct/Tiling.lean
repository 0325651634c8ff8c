import Mathlib.Order.Bounds.Defs
import StepBinding.Proofs.Construct.Extent

/-! Where a step list ends and where it is cut, told without a scan. What is open before a token is
read off the matching brackets of the tokens in front of it, and a colon answers a question mark if
the tokens between them leave none unanswered. The steps and the commas between them tile the list,
which ends at the first token that cannot stand in it. -/

namespace StepBinding.Construct.Steps

open List Token

variable {q i : Nat}

/-- The tokens hold the closer of the opener `o` that stands before them. -/
def Closed (o : Kind) (ks : List Kind) : Prop :=
  ∃ inner c later, ks = inner ++ c :: later ∧ Balanced inner ∧ c.opener? = some o

/-- Some opener of the tokens is not closed in them. -/
def Opened (ks : List Kind) : Prop :=
  ∃ before o later, ks = before ++ o :: later ∧ o.isOpener = true ∧ ¬Closed o later

/-- The last opener of the tokens that is not closed in them is `o`. -/
def Innermost (o : Kind) (ks : List Kind) : Prop :=
  ∃ before later, ks = before ++ o :: later ∧ o.isOpener = true ∧ ¬Closed o later ∧ ¬Opened later

/-- Tokens of a list whose brackets match, and in which every question mark outside of the brackets
is answered by a colon. -/
inductive Paired : List Kind → Prop
  | nil : Paired []
  | level {k : Kind} (h : isLevel k = true) : Paired [k]
  | comma : Paired [.comma]
  | append {ks ls : List Kind} (h : Paired ks) (h' : Paired ls) : Paired (ks ++ ls)
  | enclose {o c : Kind} {ks : List Kind} (ho : o.isOpener = true) (hc : c.opener? = some o)
      (h : Balanced ks) : Paired (o :: (ks ++ [c]))
  | choice {ks : List Kind} (h : Paired ks) : Paired (.question :: (ks ++ [.colon]))

/-- A question mark of the tokens waits for the colon behind them. -/
def Asked (ks : List Kind) : Prop :=
  ∃ before later, ks = before ++ .question :: later ∧ Paired later

/-- A list of the given tokens ends before the next one, or as there is none. -/
inductive Ends (ks : List Kind) : Option Kind → Prop
  | past : Ends ks none
  | endMark : Ends ks (some .endMark)
  | semicolon (h : ¬Opened ks) : Ends ks (some .semicolon)
  | closer {c o : Kind} (hc : c.opener? = some o) (h : ¬Opened ks) : Ends ks (some c)
  | templateMiddle (h : ¬Opened ks) : Ends ks (some .templateMiddle)
  | colon (h : ¬Opened ks) (hq : ¬Asked ks) : Ends ks (some .colon)
  | mismatch {c o o' : Kind} (hc : c.opener? = some o) (h : Innermost o' ks) (hne : o ≠ o') :
    Ends ks (some c)

section Brackets

variable {o c : Kind} {ks ls : List Kind}

theorem Closed.append (h : Closed o ks) (ls : List Kind) : Closed o (ks ++ ls) := by
  obtain ⟨inner, c, later, rfl, hinner, hc⟩ := h
  exact ⟨inner, c, later ++ ls, by simp, hinner, hc⟩

theorem not_opened_append (h : ¬Opened ks) (h' : ¬Opened ls) : ¬Opened (ks ++ ls) := by
  rintro ⟨before, o, later, heq, ho, hnot⟩
  rcases append_eq_append_iff.mp heq with ⟨mid, rfl, hls⟩ | ⟨mid, rfl, hmid⟩
  · exact h' ⟨mid, o, later, hls, ho, hnot⟩
  · cases mid with
    | nil => exact h' ⟨[], o, later, hmid.symm, ho, hnot⟩
    | cons o' mid =>
      obtain ⟨rfl, rfl⟩ := List.cons.inj hmid
      exact h ⟨before, o, mid, rfl, ho, fun hclosed => hnot (hclosed.append ls)⟩

theorem not_opened_singleton {k : Kind} (h : k.isOpener = false) : ¬Opened [k] := by
  rintro ⟨before, o, later, heq, ho, -⟩
  cases before with
  | nil =>
    cases heq
    rw [h] at ho
    cases ho
  | cons b before => cases before <;> cases heq

/-- Matching tokens leave nothing open. -/
theorem Balanced.not_opened (h : Balanced ks) : ¬Opened ks := by
  induction h with
  | nil =>
    rintro ⟨before, o, later, heq, -⟩
    cases before <;> cases heq
  | @plain k h =>
    refine not_opened_singleton ?_
    cases k <;> first | rfl | cases h
  | append h h' ih ih' => exact not_opened_append ih ih'
  | @enclose o c ks ho hc h ih =>
    have hcloser : c.isOpener = false := by cases c <;> cases hc <;> rfl
    rintro ⟨before, o', later, heq, ho', hnot⟩
    cases before with
    | nil =>
      cases heq
      exact hnot ⟨ks, c, [], rfl, h, hc⟩
    | cons b before =>
      exact not_opened_append ih (not_opened_singleton hcloser)
        ⟨before, o', later, (List.cons.inj heq).2, ho', hnot⟩

/-- Matching tokens do not close what stands before them. -/
theorem Balanced.not_closed (h : Balanced ks) : ¬Closed o ks := by
  rintro ⟨inner, c, later, rfl, hinner, hc⟩
  have hnest := h.nest []
  rw [nest_append, hinner.nest, Option.bind_some] at hnest
  obtain ⟨t, ht, -⟩ := exists_of_nest_closer hc hnest
  cases ht

theorem Paired.balanced (h : Paired ks) : Balanced ks := by
  induction h with
  | nil => exact .nil
  | level h => exact .plain (isPlain_of_isLevel h)
  | comma => exact .plain rfl
  | append h h' ih ih' => exact ih.append ih'
  | enclose ho hc h => exact .enclose ho hc h
  | choice h ih => exact .cons rfl (ih.append (.plain rfl))

end Brackets

section Scan

variable {d d' : Depth} {ks ls : List Kind}

/-- What is open after some tokens of a list, of which none ends the list. -/
def scan (d : Depth) : List Kind → Option Depth
  | [] => some d
  | k :: ks =>
    match role d k with
    | .stop => none
    | .separator => scan d ks
    | .inside d' => scan d' ks

theorem scan_append (d : Depth) (ks ls : List Kind) :
    scan d (ks ++ ls) = (scan d ks).bind fun d' => scan d' ls := by
  induction ks generalizing d with
  | nil => rfl
  | cons k ks ih =>
    simp only [cons_append, scan]
    split
    · rfl
    · exact ih d
    · exact ih _

theorem scan_of_after (h : after d ks = some d') : scan d ks = some d' := by
  induction ks generalizing d with
  | nil => exact h
  | cons k ks ih =>
    unfold after at h
    unfold scan
    split at h
    · rename_i hr
      rw [hr]
      exact ih h
    · cases h

theorem Paired.scan (h : Paired ks) (q : Nat) : scan ⟨[], q⟩ ks = some ⟨[], q⟩ := by
  induction h generalizing q with
  | nil => rfl
  | level h => exact scan_of_after (Flat.level h q)
  | comma => rfl
  | append h h' ih ih' =>
    rw [scan_append, ih]
    exact ih' q
  | enclose ho hc h => exact scan_of_after (Flat.enclose ho hc h q)
  | @choice ks h ih =>
    change Steps.scan ⟨[], q + 1⟩ (ks ++ [.colon]) = _
    rw [scan_append, ih]
    rfl

/-- In tokens whose question marks are answered none waits for a colon behind them. -/
theorem Paired.not_asked (h : Paired ks) : ¬Asked ks := by
  rintro ⟨before, later, rfl, hlater⟩
  have hscan := h.scan 0
  rw [scan_append, Option.bind_eq_some_iff] at hscan
  obtain ⟨⟨openers, q⟩, -, hrest⟩ := hscan
  cases openers with
  | nil =>
    change Steps.scan ⟨[], q + 1⟩ later = _ at hrest
    rw [hlater.scan] at hrest
    cases hrest
  | cons o s =>
    change Steps.scan ⟨o :: s, q⟩ later = _ at hrest
    rw [scan_of_after (hlater.balanced.after_inner o s q)] at hrest
    cases hrest

end Scan

/-- What the tokens of a list leave open, by the matching tokens between the openers and question
marks that are left. -/
inductive Leaves : List Kind → Depth → Prop
  | paired {ks : List Kind} (h : Paired ks) : Leaves ks ⟨[], 0⟩
  | question {ks ls : List Kind} {q : Nat} (h : Leaves ks ⟨[], q⟩) (h' : Paired ls) :
    Leaves (ks ++ .question :: ls) ⟨[], q + 1⟩
  | opener {ks ls s : List Kind} {q : Nat} {o : Kind} (h : Leaves ks ⟨s, q⟩)
      (ho : o.isOpener = true) (h' : Balanced ls) : Leaves (ks ++ o :: ls) ⟨o :: s, q⟩

namespace Leaves

variable {ks ls s : List Kind} {o k : Kind} {d d' : Depth}

theorem append_paired (h : Leaves ks ⟨[], q⟩) (h' : Paired ls) : Leaves (ks ++ ls) ⟨[], q⟩ := by
  cases h with
  | paired h => exact .paired (h.append h')
  | question h hl =>
    rw [append_assoc, cons_append]
    exact .question h (hl.append h')

theorem append_balanced (h : Leaves ks ⟨o :: s, q⟩) (h' : Balanced ls) :
    Leaves (ks ++ ls) ⟨o :: s, q⟩ := by
  cases h with
  | opener h ho hl =>
    rw [append_assoc, cons_append]
    exact .opener h ho (hl.append h')

/-- The innermost opener is closed. -/
theorem close {c : Kind} (h : Leaves ks ⟨o :: s, q⟩) (hc : c.opener? = some o) :
    Leaves (ks ++ [c]) ⟨s, q⟩ := by
  cases h with
  | @opener ks ls _ _ _ h ho hl =>
    rw [append_assoc, cons_append]
    cases s with
    | nil => exact h.append_paired (.enclose ho hc hl)
    | cons o' s => exact h.append_balanced (.enclose ho hc hl)

/-- The last question mark is answered. -/
theorem answer (h : Leaves ks ⟨[], q + 1⟩) : Leaves (ks ++ [.colon]) ⟨[], q⟩ := by
  cases h with
  | question h hl =>
    rw [append_assoc, cons_append]
    exact h.append_paired (.choice hl)

theorem plain (h : Leaves ks d) (hk : isLevel k) : Leaves (ks ++ [k]) d := by
  obtain ⟨openers, q⟩ := d
  cases openers with
  | nil => exact h.append_paired (.level hk)
  | cons o s => exact h.append_balanced (.plain (isPlain_of_isLevel hk))

/-- What is left open with one more token of the list. -/
theorem inside (h : Leaves ks d) (hr : role d k = .inside d') : Leaves (ks ++ [k]) d' := by
  by_cases hopener : k.isOpener
  · rw [role_opener hopener] at hr
    cases hr
    exact .opener h hopener .nil
  obtain ⟨openers, q⟩ := d
  cases openers with
  | nil =>
    by_cases hlevel : isLevel k
    · have := Flat.level hlevel q
      simp only [after, hr] at this
      cases this
      exact h.plain hlevel
    · -- Outside of the brackets only question marks and colons are left.
      cases k <;> first | exact absurd rfl hopener | exact absurd rfl hlevel | (cases hr; done) | skip
      · cases hr
        exact .question h .nil
      · cases q with
        | zero => cases hr
        | succ q =>
          cases hr
          exact h.answer
  | cons o s =>
    by_cases hplain : isPlain k
    · rw [role_inner_plain hplain] at hr
      cases hr
      exact h.append_balanced (.plain hplain)
    · cases hc : k.opener? with
      | none =>
        cases k <;> first | exact absurd rfl hopener | exact absurd rfl hplain | (cases hc; done) | skip
        cases hr
      | some o' =>
        have hinner : role ⟨o :: s, q⟩ k =
            if o' = o then .inside ⟨s, q⟩ else .stop := by
          cases k <;> cases hc <;> rfl
        rw [hinner] at hr
        split at hr
        · rename_i ho
          cases hr
          exact h.close (ho ▸ hc)
        · cases hr

theorem separator (h : Leaves ks d) (hr : role d k = .separator) : Leaves (ks ++ [k]) d := by
  obtain ⟨openers, q⟩ := d
  obtain ⟨rfl, rfl⟩ := role_separator hr
  exact h.append_paired .comma

theorem balanced (h : Leaves ks ⟨[], q⟩) : Balanced ks := by
  generalize hd : (⟨[], q⟩ : Depth) = d at h
  induction h generalizing q with
  | paired h => exact h.balanced
  | question h h' ih => exact (ih rfl).append (.cons rfl h'.balanced)
  | opener => cases hd

theorem innermost (h : Leaves ks ⟨o :: s, q⟩) : Innermost o ks := by
  cases h with
  | opener h ho hl => exact ⟨_, _, rfl, ho, hl.not_closed, hl.not_opened⟩

theorem opened_iff (h : Leaves ks d) : Opened ks ↔ d.openers ≠ [] := by
  obtain ⟨openers, q⟩ := d
  cases openers with
  | nil => exact iff_of_false h.balanced.not_opened (by simp)
  | cons o s =>
    obtain ⟨before, later, heq, ho, hnot, -⟩ := h.innermost
    exact iff_of_true ⟨before, o, later, heq, ho, hnot⟩ (by simp)

theorem nest (h : Leaves ks d) : nest [] ks = some d.openers := by
  induction h with
  | paired h => exact h.balanced.nest []
  | question h hl ih =>
    rw [nest_append, ih]
    exact (hl.balanced.cons rfl).nest []
  | opener h ho hl ih =>
    rw [nest_append, ih]
    exact (nest_opener ho).trans (hl.nest _)

theorem asked_iff (h : Leaves ks ⟨[], q⟩) : Asked ks ↔ 0 < q := by
  cases h with
  | paired h => exact iff_of_false h.not_asked (Nat.lt_irrefl 0)
  | question h hl => exact iff_of_true ⟨_, _, rfl, hl⟩ (Nat.succ_pos _)

end Leaves

/-- There is one innermost opener. -/
theorem Innermost.unique {ks : List Kind} {o o' : Kind} (h : Innermost o ks)
    (h' : Innermost o' ks) : o = o' := by
  -- The opener that comes first is open before the other, whose later tokens leave nothing open.
  have hbefore {o o' : Kind} {mid later : List Kind} (ho : o'.isOpener)
      (hnot : ¬Closed o' later) (hl : ¬Opened (mid ++ o' :: later)) : o = o' :=
    absurd ⟨mid, o', later, rfl, ho, hnot⟩ hl
  obtain ⟨before, later, rfl, ho, hnot, hlater⟩ := h
  obtain ⟨before', later', heq, ho', hnot', hlater'⟩ := h'
  rcases append_eq_append_iff.mp heq with ⟨mid, rfl, hmid⟩ | ⟨mid, rfl, hmid⟩ <;>
    cases mid with
    | nil => cases hmid; rfl
    | cons m mid =>
      obtain ⟨rfl, rfl⟩ := List.cons.inj hmid
      first | exact hbefore ho' hnot' hlater | exact (hbefore ho hnot hlater').symm

section Roles

variable {ks : List Kind} {d : Depth} {k : Kind}

theorem role_separator_iff (h : Leaves ks d) : role d k = .separator ↔ k = .comma ∧ ¬Opened ks := by
  rw [h.opened_iff, Decidable.not_not]
  constructor
  · exact role_separator
  · obtain ⟨openers, q⟩ := d
    rintro ⟨rfl, rfl⟩
    rfl

/-- Outside of the brackets. -/
theorem outerRole_stop_iff : role ⟨[], q⟩ k = .stop ↔ k = .endMark ∨ k = .semicolon ∨
    k.opener?.isSome ∨ k = .templateMiddle ∨ (k = .colon ∧ q = 0) := by
  have hcolon : (if q = 0 then Role.stop else .inside ⟨[], q - 1⟩) = .stop ↔ q = 0 := by
    split <;> simp [*]
  cases k <;> simp [role, outerRole, Kind.opener?, Kind.isOpener, hcolon]

theorem innerRole_stop_iff {o : Kind} {s : List Kind} :
    role ⟨o :: s, q⟩ k = .stop ↔ k = .endMark ∨ ∃ o', k.opener? = some o' ∧ o' ≠ o := by
  cases k <;> simp [role, innerRole, Kind.opener?, Kind.isOpener]

/-- A token that is no part of a list ends it. -/
theorem role_stop_iff (h : Leaves ks d) : role d k = .stop ↔ Ends ks (some k) := by
  have hopened := h.opened_iff
  obtain ⟨openers, q⟩ := d
  cases openers with
  | nil =>
    have hnot : ¬Opened ks := by simp [hopened]
    rw [outerRole_stop_iff]
    constructor
    · rintro (rfl | rfl | hc | rfl | ⟨rfl, rfl⟩)
      · exact .endMark
      · exact .semicolon hnot
      · obtain ⟨o, ho⟩ := Option.isSome_iff_exists.mp hc
        exact .closer ho hnot
      · exact .templateMiddle hnot
      · exact .colon hnot (by simp [h.asked_iff])
    · rintro (_ | _ | _ | hc | _ | ⟨-, hq⟩ | ⟨-, ⟨before, later, heq, ho, hopen, -⟩, -⟩)
      · exact .inl rfl
      · exact .inr (.inl rfl)
      · exact .inr (.inr (.inl (by simp [hc])))
      · exact .inr (.inr (.inr (.inl rfl)))
      · exact .inr (.inr (.inr (.inr ⟨rfl, Nat.eq_zero_of_not_pos fun hpos =>
          hq (h.asked_iff.mpr hpos)⟩)))
      · exact absurd ⟨before, _, later, heq, ho, hopen⟩ hnot
  | cons o s =>
    have hopen : Opened ks := by simp [hopened]
    rw [innerRole_stop_iff]
    constructor
    · rintro (rfl | ⟨o', hc, hne⟩)
      · exact .endMark
      · exact .mismatch hc h.innermost hne
    · rintro (_ | _ | hnot | ⟨-, hnot⟩ | hnot | ⟨hnot, -⟩ | ⟨hc, hinner, hne⟩)
      · exact .inl rfl
      · exact absurd hopen hnot
      · exact absurd hopen hnot
      · exact absurd hopen hnot
      · exact absurd hopen hnot
      · exact .inr ⟨_, hc, h.innermost.unique hinner ▸ hne⟩

end Roles

namespace Split

variable {start : Nat} {steps : List (List Token)} {step : List Token} {later : List (List Token)}

theorem last_boundsFrom : ((boundsFrom start (step :: later)).getLast?).map Prod.snd =
    some (start + (Split.mk step later []).length) := by
  induction later generalizing start step with
  | nil => rfl
  | cons step' later ih =>
    have hlast : (boundsFrom start (step :: step' :: later)).getLast? =
        (boundsFrom (start + step.length + 1) (step' :: later)).getLast? := rfl
    rw [hlast, ih]
    simp only [length, foldr_cons, Option.some.injEq]
    omega

theorem le_of_mem_boundsFrom {b : Nat × Nat} (h : b ∈ boundsFrom start steps) :
    start ≤ b.1 ∧ b.1 ≤ b.2 := by
  induction steps generalizing start with
  | nil => cases h
  | cons step steps ih =>
    rcases mem_cons.mp h with rfl | h
    · exact ⟨Nat.le_refl _, Nat.le_add_right ..⟩
    · have := ih h
      omega

theorem next_boundsFrom {n : Nat} {b b' : Nat × Nat} (h : (boundsFrom start steps)[n]? = some b)
    (h' : (boundsFrom start steps)[n + 1]? = some b') : b'.1 = b.2 + 1 := by
  induction steps generalizing start n with
  | nil => cases h
  | cons step steps ih =>
    cases n with
    | succ n => exact ih h h'
    | zero =>
      cases h
      cases steps with
      | nil => cases h'
      | cons step' steps =>
        cases h'
        rfl

/-- Every place of a list is in a step or right behind one. -/
theorem exists_mem_boundsFrom (h : start ≤ i) (h' : i < start + (Split.mk step later []).length) :
    ∃ b ∈ boundsFrom start (step :: later), b.1 ≤ i ∧ i ≤ b.2 := by
  induction later generalizing start step with
  | nil => exact ⟨_, mem_cons_self, h, Nat.le_of_lt h'⟩
  | cons step' later ih =>
    by_cases hi : i ≤ start + step.length
    · exact ⟨_, mem_cons_self, h, hi⟩
    · simp only [length, foldr_cons] at h'
      obtain ⟨b, hb, hle⟩ := @ih (start + step.length + 1) step' (by omega) (by
        simp only [length]
        omega)
      exact ⟨b, mem_cons_of_mem _ hb, hle⟩

/-- A list with a separator before it. -/
theorem length_separator (s : Split) :
    ({ later := s.first :: s.later, rest := s.rest } : Split).length = s.length + 1 := by
  simp only [length, length_nil, foldr_cons]
  omega

/-- A list with one more token in its first step. -/
theorem length_inside (s : Split) (t : Token) :
    ({ s with first := t :: s.first } : Split).length = s.length + 1 := by
  simp only [length, length_cons]
  omega

theorem bounds_inside (s : Split) (t : Token) (start : Nat) :
    ({ s with first := t :: s.first } : Split).bounds start =
      (start, start + 1 + s.first.length) :: boundsFrom (start + 1 + s.first.length + 1) s.later := by
  rw [Nat.add_right_comm start 1]
  rfl

end Split

section Run

variable {before : List Kind} {d : Depth} {ts : List Token} {start : Nat}

theorem rest_splitFrom (d : Depth) (ts : List Token) :
    (splitFrom d ts).rest = ts.drop (splitFrom d ts).length := by
  fun_induction splitFrom d ts with
  | case1 | case2 => rfl
  | case3 d t ts hr s ih => rwa [Split.length_separator]
  | case4 d t ts d' hr s ih => rwa [Split.length_inside]

/-- A list ends before the first token that is no part of it. -/
theorem ends_splitFrom (h : Leaves before d) :
    Ends (before ++ kinds (ts.take (splitFrom d ts).length))
        (kinds ts)[(splitFrom d ts).length]? ∧
      ∀ m < (splitFrom d ts).length, ¬Ends (before ++ kinds (ts.take m)) (kinds ts)[m]? := by
  have hnext {before : List Kind} {d : Depth} {t : Token} {ts : List Token} {n : Nat}
      (h : Leaves before d) (hrole : role d t.kind ≠ .stop)
      (hrest : Ends (before ++ [t.kind] ++ kinds (ts.take n)) (kinds ts)[n]? ∧
        ∀ m < n, ¬Ends (before ++ [t.kind] ++ kinds (ts.take m)) (kinds ts)[m]?) :
      Ends (before ++ kinds ((t :: ts).take (n + 1))) (kinds (t :: ts))[n + 1]? ∧
        ∀ m < n + 1, ¬Ends (before ++ kinds ((t :: ts).take m)) (kinds (t :: ts))[m]? := by
    simp only [append_assoc] at hrest
    refine ⟨hrest.1, fun m hm => ?_⟩
    cases m with
    | zero =>
      rw [take_zero, kinds_nil, append_nil]
      exact fun hends => hrole ((role_stop_iff h).mpr hends)
    | succ m => exact hrest.2 m (Nat.lt_of_succ_lt_succ hm)
  fun_induction splitFrom d ts generalizing before with
  | case1 => exact ⟨.past, fun m hm => absurd hm m.not_lt_zero⟩
  | case2 d t ts hr =>
    refine ⟨?_, fun m hm => absurd hm m.not_lt_zero⟩
    change Ends (before ++ []) (some t.kind)
    rw [append_nil]
    exact (role_stop_iff h).mp hr
  | @case3 d t ts hr s ih =>
    rw [Split.length_separator]
    exact hnext h (by simp [hr]) (ih (h.separator hr))
  | @case4 d t ts d' hr s ih =>
    rw [Split.length_inside]
    exact hnext h (by simp [hr]) (ih (h.inside hr))

/-- The steps are the tokens at their ranges. -/
theorem steps_splitFrom (tokens : List Token) (h : tokens.drop start = ts) :
    (splitFrom d ts).steps =
      ((splitFrom d ts).bounds start).map fun b => (tokens.take b.2).drop b.1 := by
  have hempty (start : Nat) : [] = (tokens.take start).drop start := by simp
  have hdrop {start : Nat} {t : Token} {ts : List Token} (h : tokens.drop start = t :: ts) :
      tokens.drop (start + 1) = ts := by
    rw [← drop_drop, h]
    rfl
  fun_induction splitFrom d ts generalizing start with
  | case1 | case2 => exact congrArg (· :: []) (hempty start)
  | @case3 d t ts hr s ih => exact congr (congrArg List.cons (hempty start)) (ih (hdrop h))
  | @case4 d t ts d' hr s ih =>
    have hfirst (n : Nat) : (tokens.take (start + 1 + n)).drop start =
        t :: (tokens.take (start + 1 + n)).drop (start + 1) := by
      rw [drop_take, drop_take, h, hdrop h, Nat.add_sub_cancel_left, Nat.add_assoc,
        Nat.add_sub_cancel_left, Nat.add_comm 1 n, take_succ_cons]
    obtain ⟨hstep, hlater⟩ := List.cons.inj (ih (hdrop h))
    rw [Split.bounds_inside, map_cons, hfirst]
    exact congr (congrArg List.cons (congrArg (t :: ·) hstep)) hlater

/-- A list is cut at the commas before which nothing is open. -/
theorem mem_cuts_iff (h : Leaves before d) :
    i ∈ ((splitFrom d ts).bounds start).dropLast.map Prod.snd ↔
      ∃ m < (splitFrom d ts).length, i = start + m ∧ (kinds ts)[m]? = some .comma ∧
        ¬Opened (before ++ kinds (ts.take m)) := by
  induction ts generalizing before d start with
  | nil => exact iff_of_false nofun nofun
  | cons t ts ih =>
    -- What holds at the first token, and what holds behind it.
    have hcons {n : Nat} {d' : Depth} (hn : n = (splitFrom d' ts).length + 1)
        (hleaves : Leaves (before ++ [t.kind]) d') :
        (∃ m < n, i = start + m ∧ (kinds (t :: ts))[m]? = some .comma ∧
          ¬Opened (before ++ kinds ((t :: ts).take m))) ↔
        (i = start ∧ role d t.kind = .separator) ∨
          i ∈ ((splitFrom d' ts).bounds (start + 1)).dropLast.map Prod.snd := by
      rw [ih hleaves, role_separator_iff h, hn]
      constructor
      · rintro ⟨m, hm, rfl, hcomma, hopen⟩
        cases m with
        | zero =>
          rw [take_zero, kinds_nil, append_nil] at hopen
          exact .inl ⟨rfl, Option.some.inj hcomma, hopen⟩
        | succ m =>
          refine .inr ⟨m, Nat.lt_of_succ_lt_succ hm, by omega, hcomma, ?_⟩
          rwa [append_assoc]
      · rintro (⟨rfl, hcomma, hopen⟩ | ⟨m, hm, rfl, hcomma, hopen⟩)
        · refine ⟨0, Nat.succ_pos _, rfl, congrArg some hcomma, ?_⟩
          rwa [take_zero, kinds_nil, append_nil]
        · refine ⟨m + 1, Nat.succ_lt_succ hm, by omega, hcomma, ?_⟩
          rwa [append_assoc] at hopen
    cases hr : role d t.kind with
    | stop =>
      rw [splitFrom_stop hr]
      exact iff_of_false nofun nofun
    | separator =>
      rw [splitFrom_separator hr, hcons (Split.length_separator _) (h.separator hr), hr]
      change i ∈ start :: ((splitFrom d ts).bounds (start + 1)).dropLast.map Prod.snd ↔ _
      simp
    | inside d' =>
      rw [splitFrom_inside hr, hcons (Split.length_inside _ t) (h.inside hr), hr,
        map_dropLast, map_dropLast, Split.bounds_inside]
      simp [Split.bounds, Split.steps, Split.boundsFrom]

/-- What the tokens of a list up to some place leave open. -/
theorem exists_leaves (h : Leaves before d) {m : Nat} (hm : m ≤ (splitFrom d ts).length) :
    ∃ d', Leaves (before ++ kinds (ts.take m)) d' := by
  induction ts generalizing before d m with
  | nil => exact ⟨d, by simpa using h⟩
  | cons t ts ih =>
    cases m with
    | zero => exact ⟨d, by simpa using h⟩
    | succ m =>
      rw [take_succ_cons, kinds_cons, append_cons]
      cases hr : role d t.kind with
      | stop =>
        rw [splitFrom_stop hr] at hm
        cases hm
      | separator =>
        rw [splitFrom_separator hr, Split.length_separator] at hm
        exact ih (h.separator hr) (Nat.le_of_succ_le_succ hm)
      | inside d' =>
        rw [splitFrom_inside hr, Split.length_inside] at hm
        exact ih (h.inside hr) (Nat.le_of_succ_le_succ hm)

/-- If nothing is open at the end of a list, its steps have matching brackets. -/
theorem nest_steps (h : Leaves before d)
    (hend : ¬Opened (before ++ kinds (ts.take (splitFrom d ts).length))) :
    nest d.openers (kinds (splitFrom d ts).first) = some [] ∧
      ∀ step ∈ (splitFrom d ts).later, nest [] (kinds step) = some [] := by
  have hstop {before : List Kind} {d : Depth} (h : Leaves before d) (hend : ¬Opened (before ++ [])) :
      nest d.openers [] = some [] := by
    rw [append_nil, h.opened_iff, Decidable.not_not] at hend
    rw [hend]
    rfl
  fun_induction splitFrom d ts generalizing before with
  | case1 | case2 => exact ⟨hstop h hend, forall_mem_nil _⟩
  | @case3 d t ts hr s ih =>
    rw [Split.length_separator, take_succ_cons, kinds_cons, append_cons] at hend
    obtain ⟨hfirst, hlater⟩ := ih (h.separator hr) hend
    rw [(role_separator hr).2] at hfirst ⊢
    exact ⟨rfl, forall_mem_cons.mpr ⟨hfirst, hlater⟩⟩
  | @case4 d t ts d' hr s ih =>
    rw [Split.length_inside, take_succ_cons, kinds_cons, append_cons] at hend
    obtain ⟨hfirst, hlater⟩ := ih (h.inside hr) hend
    have hnest := @nest_inside _ _ _ [] (kinds s.first) hr
    rw [append_nil, append_nil] at hnest
    exact ⟨hnest.trans hfirst, hlater⟩

end Run

/-- The kinds of the tokens of a list from `start` up to `i`. -/
def listed (tokens : List Token) (start i : Nat) : List Kind := kinds ((tokens.take i).drop start)

/-- A step list from `start` on. Its steps are ranges of tokens, the first from `start` on, each
later one from behind the end of the one before, and the last up to the end of the list. Cuts are
the commas before which nothing in the list is open. The list ends at the first place where it
can, and if nothing is open there all steps have matching brackets. -/
theorem split_tiles (tokens : List Token) (start : Nat) :
    let s := split (tokens.drop start)
    let stop := start + s.length
    let bounds := s.bounds start
    bounds.head?.map Prod.fst = some start ∧ bounds.getLast?.map Prod.snd = some stop ∧
      (∀ b ∈ bounds, b.1 ≤ b.2) ∧
      (∀ (n : Nat) (b b' : Nat × Nat), bounds[n]? = some b → bounds[n + 1]? = some b' →
        b'.1 = b.2 + 1) ∧
      (∀ i, start ≤ i → i < stop → ∃ b ∈ bounds, b.1 ≤ i ∧ i ≤ b.2) ∧
      s.steps = (bounds.map fun b => (tokens.take b.2).drop b.1) ∧
      s.rest = tokens.drop stop ∧
      (∀ i, i ∈ bounds.dropLast.map Prod.snd ↔ start ≤ i ∧ i < stop ∧
        (kinds tokens)[i]? = some .comma ∧ ¬Opened (listed tokens start i)) ∧
      IsLeast {i | start ≤ i ∧ Ends (listed tokens start i) (kinds tokens)[i]?} stop ∧
      (¬Opened (listed tokens start stop) → ∀ step ∈ s.steps, Balanced (kinds step)) := by
  intro s stop bounds
  have hleaves : Leaves [] {} := .paired .nil
  have hlisted (m : Nat) : listed tokens start (start + m) = kinds ((tokens.drop start).take m) := by
    rw [listed, List.drop_take, Nat.add_sub_cancel_left]
  have hkind (m : Nat) : (kinds tokens)[start + m]? = (kinds (tokens.drop start))[m]? := by
    simp [kinds]
  refine ⟨rfl, Split.last_boundsFrom, fun b hb => (Split.le_of_mem_boundsFrom hb).2,
    fun n b b' => Split.next_boundsFrom, fun i => Split.exists_mem_boundsFrom,
    steps_splitFrom tokens rfl, ?_, fun i => ?_, ?_, fun hopen step hstep => ?_⟩
  · rw [← List.drop_drop]
    exact rest_splitFrom {} (tokens.drop start)
  · rw [show bounds = (splitFrom {} (tokens.drop start)).bounds start from rfl, mem_cuts_iff hleaves]
    constructor
    · rintro ⟨m, hm, rfl, hcomma, hopen⟩
      rw [hlisted, hkind]
      exact ⟨Nat.le_add_right .., Nat.add_lt_add_left hm start, hcomma, hopen⟩
    · rintro ⟨hle, hlt, hcomma, hopen⟩
      obtain ⟨m, rfl⟩ := Nat.exists_eq_add_of_le hle
      rw [hlisted] at hopen
      rw [hkind] at hcomma
      exact ⟨m, Nat.lt_of_add_lt_add_left hlt, rfl, hcomma, hopen⟩
  · obtain ⟨hends, hfirst⟩ := @ends_splitFrom _ _ (tokens.drop start) hleaves
    refine ⟨⟨Nat.le_add_right .., ?_⟩, ?_⟩
    · rw [hlisted, hkind]
      exact hends
    · rintro i ⟨hle, hi⟩
      obtain ⟨m, rfl⟩ := Nat.exists_eq_add_of_le hle
      rw [hlisted, hkind] at hi
      exact Nat.add_le_add_left (Nat.le_of_not_lt fun hlt => hfirst m hlt hi) start
  · rw [hlisted] at hopen
    obtain ⟨hfirst, hlater⟩ := nest_steps hleaves hopen
    refine balanced_of_nest ?_ fun hmark => ?_
    · rcases List.mem_cons.mp hstep with rfl | hstep
      · exact hfirst
      · exact hlater step hstep
    · obtain ⟨t, ht, hkind⟩ := List.mem_map.mp hmark
      exact (mem_of_mem_steps hstep ht).2 hkind

end StepBinding.Construct.Steps
