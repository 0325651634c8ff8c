import Mathlib.Data.List.Chain
import Mathlib.Logic.ExistsUnique
import StepBinding.Proofs.Token.Templates

/-! Templates are well nested. Braces and substitutions are read as brackets by an automaton that
keeps what is pending on a stack. The scan counts braces and remembers the depth at which each
substitution began; inside of a substitution the two agree, so the chunk that follows a substitution
is the first one at which nothing of it is pending. From this every chunk of a template belongs to
one chain of chunks, from a head to a tail, and two chains do not cross. -/

namespace StepBinding.Token

open List

variable {x i : Nat} {xs : List Nat}

/-- Whether a substitution starts behind the symbol. -/
def Kind.opensHole : Kind → Bool
  | .templateHead | .templateMiddle => true
  | _ => false

/-- Whether a substitution ends before the symbol. -/
def Kind.closesHole : Kind → Bool
  | .templateMiddle | .templateTail => true
  | _ => false

theorem Kind.eq_templateTail {k : Kind} (h : k.opensHole ∨ k.closesHole)
    (hopens : ¬k.opensHole) : k = .templateTail := by
  cases k with
  | templateTail => rfl
  | templateMiddle => exact absurd rfl hopens
  | _ => rcases h with h | h <;> first | exact absurd h hopens | cases h

theorem Kind.eq_templateHead {k : Kind} (h : k.opensHole ∨ k.closesHole)
    (hcloses : ¬k.closesHole) : k = .templateHead := by
  cases k with
  | templateHead => rfl
  | _ => rcases h with h | h <;> first | exact absurd h hcloses | cases h

/-- What can be pending: a brace, or a substitution. -/
inductive Opener
  | brace
  | hole
deriving DecidableEq, Repr

/-- What is pending after a symbol, if the symbol matches what is pending before it. -/
def pending? (st : List Opener) : Kind → Option (List Opener)
  | .lbrace => some (.brace :: st)
  | .rbrace =>
    match st with
    | .brace :: st => some st
    | _ => none
  | .templateHead => some (.hole :: st)
  | .templateMiddle =>
    match st with
    | .hole :: st => some (.hole :: st)
    | _ => none
  | .templateTail =>
    match st with
    | .hole :: st => some st
    | _ => none
  | _ => some st

def pendingAfter? (st : List Opener) : List Kind → Option (List Opener)
  | [] => some st
  | k :: ks => (pending? st k).bind fun st' => pendingAfter? st' ks

/-- Symbols among which braces and templates are balanced. -/
def Nested (ks : List Kind) : Prop := pendingAfter? [] ks = some []

/-- The symbols between two places. -/
def between (ks : List Kind) (i j : Nat) : List Kind := (ks.take j).drop (i + 1)

/-- Two successive chunks of a template: what stands between them is balanced. -/
structure Link (ks : List Kind) (i j : Nat) : Prop where
  opens : ∃ k ∈ ks[i]?, k.opensHole = true
  lt : i < j
  closes : ∃ k ∈ ks[j]?, k.closesHole = true
  nested : Nested (between ks i j)

/-- The places of the chunks of a template: a head, middles and a tail. -/
structure Template (ks : List Kind) (ps : List Nat) : Prop where
  head : ∃ i ∈ ps.head?, ks[i]? = some .templateHead
  tail : ∃ j ∈ ps.getLast?, ks[j]? = some .templateTail
  links : ps.IsChain (Link ks)

section Pending

variable {st st' : List Opener} {k : Kind} {xs ys ks : List Kind}

theorem pendingAfter?_append (st : List Opener) (xs ys : List Kind) :
    pendingAfter? st (xs ++ ys) = (pendingAfter? st xs).bind fun st' => pendingAfter? st' ys := by
  induction xs generalizing st with
  | nil => rfl
  | cons k xs ih => simp only [cons_append, pendingAfter?, ih, Option.bind_assoc]

/-- What lies deeper on the stack is left alone. -/
theorem pending?_frame (h : pending? st k = some st') (base : List Opener) :
    pending? (st ++ base) k = some (st' ++ base) := by
  unfold pending? at h ⊢
  split at h
  all_goals first | cases h; rfl | split at h <;> cases h; rfl

theorem pendingAfter?_frame (h : pendingAfter? st ks = some st') (base : List Opener) :
    pendingAfter? (st ++ base) ks = some (st' ++ base) := by
  induction ks generalizing st with
  | nil =>
    cases h
    rfl
  | cons k ks ih =>
    obtain ⟨st1, hstep, h⟩ := Option.bind_eq_some_iff.mp h
    rw [pendingAfter?, pending?_frame hstep]
    exact ih h

theorem pending?_opensHole (hk : k.opensHole) (h : pending? st k = some st') :
    ∃ later, st' = .hole :: later := by
  cases k with
  | templateHead =>
    cases h
    exact ⟨st, rfl⟩
  | templateMiddle =>
    simp only [pending?] at h
    split at h
    · cases h
      exact ⟨_, rfl⟩
    · cases h
  | _ => cases hk

theorem pending?_closesHole (hk : k.closesHole) : pending? [] k = none := by
  cases k with
  | templateMiddle | templateTail => rfl
  | _ => cases hk

end Pending

section Places

variable {ks : List Kind} {j m : Nat} {k : Kind}

theorem between_split (hi : i < m) (hj : m < j) (hk : ks[m]? = some k) :
    between ks i j = between ks i m ++ k :: between ks m j := by
  have hkj : (ks.take j)[m]? = some k := by rw [getElem?_take_of_lt hj, hk]
  obtain ⟨hm, hkj⟩ := List.getElem?_eq_some_iff.mp hkj
  have hdrop : (ks.take j).drop m = k :: between ks m j := by
    rw [drop_eq_getElem_cons hm, hkj]
    rfl
  have hfront : between ks i m = ((ks.take j).drop (i + 1)).take (m - (i + 1)) := by
    rw [between, take_drop, take_take, Nat.add_sub_cancel' hi, Nat.min_eq_left hj.le]
  rw [hfront, ← hdrop, show (ks.take j).drop m = ((ks.take j).drop (i + 1)).drop (m - (i + 1)) by
    rw [drop_drop, Nat.add_sub_cancel' hi], take_append_drop]
  rfl

namespace Link

variable {i' j' : Nat}

/-- Nothing that ends a substitution is left over inside of it. -/
theorem not_lt (h : Link ks i j) (h' : Link ks i j') : ¬j < j' := by
  intro hlt
  obtain ⟨k, hk, hcloses⟩ := h.closes
  have hnested := h'.nested
  rw [Nested, between_split h.lt hlt hk, pendingAfter?_append, h.nested] at hnested
  simp only [Option.bind_some, pendingAfter?, pending?_closesHole hcloses] at hnested
  cases hnested

/-- A chunk has at most one successor. -/
theorem right_unique (h : Link ks i j) (h' : Link ks i j') : j = j' :=
  Nat.le_antisymm (Nat.le_of_not_lt (h'.not_lt h)) (Nat.le_of_not_lt (h.not_lt h'))

/-- A substitution that starts inside of another one ends inside of it. -/
theorem inner_lt (h : Link ks i j) (h' : Link ks m j') (hi : i < m) (hm : m < j) : j' < j := by
  obtain ⟨k, hk, hopens⟩ := h'.opens
  by_contra hge
  -- up to `j` the inner substitution is read without closing what was pending at its start
  have hpart : ∃ st, pendingAfter? [] (between ks m j) = some st := by
    rcases Nat.eq_or_lt_of_le (Nat.le_of_not_lt hge) with rfl | hlt
    · exact ⟨[], h'.nested⟩
    · obtain ⟨l, hl, -⟩ := h.closes
      have hwhole := h'.nested
      rw [Nested, between_split hm hlt hl, pendingAfter?_append] at hwhole
      obtain ⟨st, hst, -⟩ := Option.bind_eq_some_iff.mp hwhole
      exact ⟨st, hst⟩
  obtain ⟨st, hst⟩ := hpart
  have hnested := h.nested
  rw [Nested, between_split hi hm hk, pendingAfter?_append] at hnested
  obtain ⟨before, -, hnested⟩ := Option.bind_eq_some_iff.mp hnested
  obtain ⟨after, hstep, hnested⟩ := Option.bind_eq_some_iff.mp hnested
  obtain ⟨later, rfl⟩ := pending?_opensHole hopens hstep
  rw [show Opener.hole :: later = [] ++ Opener.hole :: later from rfl,
    pendingAfter?_frame hst] at hnested
  simp at hnested

/-- A chunk has at most one predecessor. -/
theorem left_unique (h : Link ks i j) (h' : Link ks i' j) : i = i' := by
  rcases Nat.lt_trichotomy i i' with hlt | heq | hlt
  · exact absurd (h.inner_lt h' hlt h'.lt) (Nat.lt_irrefl j)
  · exact heq
  · exact absurd (h'.inner_lt h hlt h.lt) (Nat.lt_irrefl j)

/-- A substitution that ends inside of another one starts inside of it. -/
theorem lt_inner (h : Link ks i j) (h' : Link ks m j') (hi : i < j') (hj : j' < j) : i < m := by
  rcases Nat.lt_trichotomy i m with hlt | rfl | hlt
  · exact hlt
  · exact absurd (h'.right_unique h) hj.ne
  · exact absurd (h'.inner_lt h hlt hi) (Nat.lt_asymm hj)

end Link

/-- Two successive chunks, told by the symbols in front of, between and behind them. -/
theorem link_of_split {front x back : List Kind} {k l : Kind}
    (hks : ks = front ++ k :: (x ++ l :: back)) (hk : k.opensHole)
    (hl : l.closesHole) (hx : Nested x) : Link ks front.length (front.length + 1 + x.length) := by
  subst hks
  have htake : (front ++ k :: (x ++ l :: back)).take (front.length + 1 + x.length) =
      front ++ k :: x := by
    rw [show front ++ k :: (x ++ l :: back) = (front ++ k :: x) ++ l :: back by simp]
    exact take_left' (by simp; omega)
  refine ⟨⟨k, by simp, hk⟩, by omega, ⟨l, ?_, hl⟩, ?_⟩
  · rw [show front ++ k :: (x ++ l :: back) = (front ++ k :: x) ++ l :: back by simp]
    rw [getElem?_append_right (by simp; omega)]
    simp [Nat.add_comm, Nat.add_left_comm]
  · rw [between, htake, show front ++ k :: x = (front ++ [k]) ++ x by simp]
    rwa [drop_left' (by simp)]

end Places

section Depths

variable {base n n' : Nesting} {st st' : List Opener} {k : Kind} {ks : List Kind}

/-- The nesting of the scan where something is pending that was opened since the nesting `base`. -/
def nestingOf (base : Nesting) : List Opener → Nesting
  | [] => base
  | .brace :: st => { nestingOf base st with braces := (nestingOf base st).braces + 1 }
  | .hole :: st =>
    { nestingOf base st with
      templates := (nestingOf base st).braces :: (nestingOf base st).templates }

theorem templates_suffix_nestingOf (base : Nesting) (st : List Opener) :
    base.templates <:+ (nestingOf base st).templates := by
  induction st with
  | nil => exact suffix_refl _
  | cons o st ih =>
    cases o with
    | brace => exact ih
    | hole => exact ih.trans (suffix_cons _ _)

/-- No two stacks above a nesting have the same nesting as the empty one. -/
theorem eq_nil_of_nestingOf (h : nestingOf base st = base) : st = [] := by
  have hsize : (nestingOf base st).braces + (nestingOf base st).templates.length =
      base.braces + base.templates.length + st.length := by
    clear h
    induction st with
    | nil => rfl
    | cons o st ih =>
      cases o <;> simp only [nestingOf, length_cons] <;> omega
  rw [h] at hsize
  exact eq_nil_of_length_eq_zero (by omega)

theorem head_le_nestingOf (hbase : base.templates.head? = some base.braces) (st : List Opener) :
    ∀ t ∈ (nestingOf base st).templates.head?, t ≤ (nestingOf base st).braces := by
  induction st with
  | nil =>
    intro t ht
    rw [nestingOf, hbase] at ht
    cases ht
    exact .refl
  | cons o st ih =>
    cases o with
    | brace => exact fun t ht => Nat.le_succ_of_le (ih t ht)
    | hole =>
      rintro t ⟨⟩
      exact .refl

/-- Inside of a substitution a symbol does to the scan what it does to the pending brackets, or it
is the chunk behind the substitution. -/
theorem pending?_of_step? (hbase : base.templates.head? = some base.braces)
    (h : (nestingOf base st).step? k = some n') :
    (∃ st', pending? st k = some st' ∧ n' = nestingOf base st') ∨ st = [] ∧ k.closesHole := by
  -- a brace is pending, so the depth is past that of every substitution
  have hbrace {st : List Opener} : (nestingOf base (.brace :: st)).templates.head? ≠
      some (nestingOf base (.brace :: st)).braces := by
    intro hopen
    have := head_le_nestingOf hbase st _ hopen
    simp only [nestingOf] at this
    omega
  have hhole {st : List Opener} : (nestingOf base (.hole :: st)).templates.head? =
      some (nestingOf base (.hole :: st)).braces := rfl
  cases k with
  | rbrace =>
    obtain ⟨hopen, rfl⟩ := Nesting.of_rbrace h
    rcases st with _ | ⟨_ | _, st⟩
    · exact absurd hbase hopen
    · exact .inl ⟨st, rfl, rfl⟩
    · exact absurd hhole hopen
  | templateMiddle | templateTail =>
    obtain ⟨hopen, rfl⟩ := Nesting.of_guard h
    rcases st with _ | ⟨_ | _, st⟩
    · exact .inr ⟨rfl, rfl⟩
    · exact absurd hopen hbrace
    · exact .inl ⟨_, rfl, rfl⟩
  | _ =>
    cases h
    exact .inl ⟨_, rfl, rfl⟩

/-- A substitution that the scan leaves has a chunk behind it, up to which it is balanced. -/
theorem exists_closing {final : Nesting} (hbase : base.templates.head? = some base.braces)
    (h : (nestingOf base st).after? ks = some final) (hfinal : final.templates = []) :
    ∃ x k back, ks = x ++ k :: back ∧ pendingAfter? st x = some [] ∧ k.closesHole := by
  induction ks generalizing st with
  | nil =>
    cases h
    have hsuffix := templates_suffix_nestingOf base st
    rw [hfinal, suffix_nil] at hsuffix
    rw [hsuffix] at hbase
    cases hbase
  | cons k ks ih =>
    obtain ⟨n', hstep, h⟩ := Option.bind_eq_some_iff.mp h
    rcases pending?_of_step? hbase hstep with ⟨st', hpending, rfl⟩ | ⟨rfl, hk⟩
    · obtain ⟨x, l, back, rfl, hx, hl⟩ := ih h
      exact ⟨k :: x, l, back, rfl, by rw [pendingAfter?, hpending]; exact hx, hl⟩
    · exact ⟨[], k, ks, rfl, rfl, hk⟩

/-- The templates that are open after a symbol were open before it, or the symbol is the head of the
innermost one. -/
theorem suffix_of_step? {ts : List Nat} (h : n.step? k = some n') (hts : ts <:+ n'.templates) :
    ts <:+ n.templates ∨ k = .templateHead ∧ ts = n'.templates ∧
      n' = { n with templates := n.braces :: n.templates } := by
  cases k with
  | templateHead =>
    cases h
    rcases suffix_cons_iff.mp hts with rfl | hts
    · exact .inr ⟨rfl, rfl, rfl⟩
    · exact .inl hts
  | rbrace =>
    obtain ⟨-, rfl⟩ := Nesting.of_rbrace h
    exact .inl hts
  | templateMiddle =>
    obtain ⟨hopen, rfl⟩ := Nesting.of_guard h
    obtain ⟨later, hlater⟩ := head?_eq_some_iff.mp hopen
    rw [hlater] at hts ⊢
    exact .inl hts
  | templateTail =>
    obtain ⟨-, rfl⟩ := Nesting.of_guard h
    exact .inl (hts.trans (tail_suffix _))
  | _ =>
    cases h
    exact .inl hts

/-- Every template that the scan has open has a last chunk, and what stands behind this chunk is
what makes the nesting. -/
theorem exists_opening {p : List Kind} (h : Nesting.after? {} p = some n) (t : Nat) (ts : List Nat)
    (hts : t :: ts <:+ n.templates) :
    ∃ front k x st, p = front ++ k :: x ∧ k.opensHole ∧ pendingAfter? [] x = some st ∧
      nestingOf ⟨t, t :: ts⟩ st = n := by
  induction p using List.reverseRecOn generalizing n with
  | nil =>
    cases h
    exact absurd (suffix_nil.mp hts) (cons_ne_nil _ _)
  | append_singleton p k ih =>
    rw [Nesting.after?_append, Option.bind_eq_some_iff] at h
    obtain ⟨n1, hbefore, h⟩ := h
    obtain ⟨n2, hstep, hn⟩ := Option.bind_eq_some_iff.mp h
    obtain rfl : n2 = n := Option.some.inj hn
    rcases suffix_of_step? hstep hts with hold | ⟨rfl, hnew, rfl⟩
    · obtain ⟨front, l, x, st, rfl, hl, hx, rfl⟩ := ih hbefore hold
      rcases pending?_of_step? rfl hstep with ⟨st', hpending, rfl⟩ | ⟨rfl, hk⟩
      · refine ⟨front, l, x ++ [k], st', by simp, hl, ?_, rfl⟩
        rw [pendingAfter?_append, hx, Option.bind_some, pendingAfter?, hpending]
        rfl
      · -- the chunk goes on with this template, for a tail would have closed it
        cases k with
        | templateMiddle =>
          simp only [nestingOf, Nesting.step?, head?_cons, if_true, Option.some.injEq] at hstep
          exact ⟨front ++ l :: x, _, [], [], rfl, rfl, rfl, hstep⟩
        | templateTail =>
          simp only [nestingOf, Nesting.step?, head?_cons, if_true, Option.some.injEq] at hstep
          rw [← hstep] at hts
          have hlength := hts.length_le
          simp only [tail_cons, length_cons] at hlength
          omega
        | _ => cases hk
    · obtain ⟨rfl, rfl⟩ := List.cons.inj hnew
      exact ⟨p, _, [], [], rfl, rfl, rfl, rfl⟩

end Depths

section Links

variable {ks : List Kind} {final : Nesting} {j : Nat} {k : Kind}

theorem split_at {α : Type} {xs : List α} {x : α} (h : xs[i]? = some x) :
    xs = xs.take i ++ x :: xs.drop (i + 1) ∧ (xs.take i).length = i := by
  obtain ⟨hi, hx⟩ := List.getElem?_eq_some_iff.mp h
  refine ⟨?_, length_take_of_le hi.le⟩
  rw [← hx, ← drop_eq_getElem_cons hi, take_append_drop]

/-- A chunk before a substitution has a successor. -/
theorem exists_link_right (h : Nesting.after? {} ks = some final) (hfinal : final.templates = [])
    (hk : ks[i]? = some k) (hopens : k.opensHole) : ∃ j, Link ks i j := by
  obtain ⟨hsplit, hlength⟩ := split_at hk
  rw [hsplit, Nesting.after?_append, Option.bind_eq_some_iff] at h
  obtain ⟨n, -, h⟩ := h
  obtain ⟨base, hstep, h⟩ := Option.bind_eq_some_iff.mp h
  have hbase : base.templates.head? = some base.braces := by
    cases k with
    | templateHead =>
      cases hstep
      rfl
    | templateMiddle =>
      obtain ⟨-, rfl⟩ := Nesting.of_guard hstep
      rfl
    | _ => cases hopens
  obtain ⟨x, l, back, hback, hx, hl⟩ := @exists_closing _ [] _ _ hbase h hfinal
  rw [hback] at hsplit
  exact ⟨_, hlength ▸ link_of_split hsplit hopens hl hx⟩

/-- A chunk behind a substitution has a predecessor. -/
theorem exists_link_left (h : Nesting.after? {} ks = some final) (hk : ks[j]? = some k)
    (hcloses : k.closesHole) : ∃ i, Link ks i j := by
  obtain ⟨hsplit, hlength⟩ := split_at hk
  rw [hsplit, Nesting.after?_append, Option.bind_eq_some_iff] at h
  obtain ⟨n, hbefore, h⟩ := h
  obtain ⟨n', hstep, -⟩ := Option.bind_eq_some_iff.mp h
  have hopen : n.templates.head? = some n.braces := by
    cases k with
    | templateMiddle => exact (Option.ite_none_right_eq_some.mp hstep).1
    | templateTail => exact (Option.ite_none_right_eq_some.mp hstep).1
    | _ => cases hcloses
  obtain ⟨ts, hts⟩ := head?_eq_some_iff.mp hopen
  obtain ⟨front, l, x, st, hfront, hl, hx, hst⟩ :=
    exists_opening hbefore n.braces ts (hts ▸ suffix_refl _)
  have hn : n = ⟨n.braces, n.braces :: ts⟩ := by rw [← hts]
  obtain rfl : st = [] := eq_nil_of_nestingOf (hst.trans hn)
  have hplace : j = front.length + 1 + x.length := by
    rw [← hlength, hfront]
    simp only [length_append, length_cons]
    omega
  rw [hfront, append_assoc, cons_append] at hsplit
  exact ⟨front.length, hplace ▸ link_of_split hsplit hl hcloses hx⟩

end Links

section Chains

variable {R : Nat → Nat → Prop}

/-- Where a relation gives at most one successor, a chain is told by its start, if it goes on as
long as it can. -/
theorem chain_unique (hR : ∀ a b c, R a b → R a c → b = c) {ys : List Nat}
    (hx : (i :: xs).IsChain R) (hy : (i :: ys).IsChain R)
    (hxs : ∀ a ∈ (i :: xs).getLast?, ∀ b, ¬R a b) (hys : ∀ a ∈ (i :: ys).getLast?, ∀ b, ¬R a b) :
    xs = ys := by
  induction xs generalizing i ys with
  | nil =>
    cases ys with
    | nil => rfl
    | cons b ys => exact absurd (isChain_cons_cons.mp hy).1 (hxs i rfl b)
  | cons a xs ih =>
    cases ys with
    | nil => exact absurd (isChain_cons_cons.mp hx).1 (hys i rfl a)
    | cons b ys =>
      obtain ⟨ha, hx⟩ := isChain_cons_cons.mp hx
      obtain ⟨hb, hy⟩ := isChain_cons_cons.mp hy
      obtain rfl := hR i a b ha hb
      rw [ih hx hy (by simpa using hxs) (by simpa using hys)]

/-- What holds of one member of a chain, and is kept by the relation in both directions, holds of
all members. -/
theorem forall_of_chain {P : Nat → Prop} (hright : ∀ a b, R a b → P a → P b)
    (hleft : ∀ a b, R a b → P b → P a) (hx : xs.IsChain R) (hmem : x ∈ xs) (h : P x) :
    ∀ y ∈ xs, P y := by
  induction hx generalizing x with
  | nil => cases hmem
  | singleton a =>
    rw [mem_singleton] at hmem
    simpa [← hmem] using h
  | @cons_cons a b xs hab _ ih =>
    -- the chain behind its first member is reached through the second one
    have hb : P b := by
      rcases mem_cons.mp hmem with rfl | hmem
      · exact hright _ _ hab h
      · exact ih hmem h b mem_cons_self
    have hrest := ih mem_cons_self hb
    exact forall_mem_cons.mpr ⟨hleft a b hab hb, hrest⟩

/-- A number between the ends of an increasing chain that is no member lies between two successive
members. -/
theorem exists_gap (hx : (i :: xs).IsChain R) (hmem : x ∉ i :: xs) (hi : i < x)
    (hlast : ∃ j ∈ (i :: xs).getLast?, x < j) :
    ∃ a b, [a, b] <:+: i :: xs ∧ R a b ∧ a < x ∧ x < b := by
  induction xs generalizing i with
  | nil =>
    obtain ⟨j, hj, hx⟩ := hlast
    obtain rfl : i = j := by simpa using hj
    omega
  | cons b xs ih =>
    obtain ⟨hib, hx⟩ := isChain_cons_cons.mp hx
    simp only [mem_cons, not_or] at hmem
    rcases Nat.lt_or_gt_of_ne hmem.2.1 with hlt | hgt
    · exact ⟨i, b, ⟨[], xs, rfl⟩, hib, hi, hlt⟩
    · obtain ⟨a, c, hinfix, hac⟩ := ih hx (by simpa using hmem.2) hgt (by simpa using hlast)
      exact ⟨a, c, hinfix.trans (infix_cons (infix_refl _)), hac⟩

end Chains

section Templates

variable {ks : List Kind} {ps qs : List Nat}

/-- All of `qs` lies between two successive places of `ps`. -/
def Inside (ps qs : List Nat) : Prop := ∃ a b, [a, b] <:+: ps ∧ ∀ q ∈ qs, a < q ∧ q < b

def Before (ps qs : List Nat) : Prop := ∀ p ∈ ps, ∀ q ∈ qs, p < q

theorem not_link_of_head {j : Nat} (h : ks[j]? = some .templateHead) (i : Nat) : ¬Link ks i j := by
  intro hlink
  obtain ⟨k, hk, hcloses⟩ := hlink.closes
  rw [h] at hk
  cases hk
  cases hcloses

theorem not_link_of_tail (h : ks[i]? = some .templateTail) (j : Nat) : ¬Link ks i j := by
  intro hlink
  obtain ⟨k, hk, hopens⟩ := hlink.opens
  rw [h] at hk
  cases hk
  cases hopens

namespace Template

/-- A place belongs to at most one template. -/
theorem eq_of_mem (hp : Template ks ps) (hq : Template ks qs) (hip : i ∈ ps) (hiq : i ∈ qs) :
    ps = qs := by
  obtain ⟨before, after, rfl⟩ := append_of_mem hip
  obtain ⟨before', after', rfl⟩ := append_of_mem hiq
  obtain ⟨hleft, hright⟩ := isChain_split.mp hp.links
  obtain ⟨hleft', hright'⟩ := isChain_split.mp hq.links
  have hend {before after : List Nat} (h : Template ks (before ++ i :: after)) :
      ∀ a ∈ (i :: after).getLast?, ∀ b, ¬Link ks a b := by
    intro a ha b
    obtain ⟨j, hj, htail⟩ := h.tail
    rw [getLast?_append, Option.mem_def.mp ha] at hj
    cases hj
    exact not_link_of_tail htail b
  have hstart {before after : List Nat} (h : Template ks (before ++ i :: after)) :
      ∀ a ∈ (i :: before.reverse).getLast?, ∀ b, ¬Link ks b a := by
    intro a ha b
    obtain ⟨j, hj, hhead⟩ := h.head
    have hsame : (before ++ i :: after).head? = (i :: before.reverse).getLast? := by
      rw [← reverse_concat, getLast?_reverse]
      cases before <;> rfl
    rw [hsame, Option.mem_def.mp ha] at hj
    cases hj
    exact not_link_of_head hhead b
  have hafter : after = after' :=
    chain_unique (R := Link ks) (fun a b c => Link.right_unique) hright hright' (hend hp) (hend hq)
  have hbefore : before.reverse = before'.reverse := by
    refine chain_unique (R := fun a b => Link ks b a) (fun a b c => Link.left_unique) (i := i) ?_ ?_
      (hstart hp) (hstart hq)
    · rw [← reverse_concat]
      exact isChain_reverse.mpr hleft
    · rw [← reverse_concat]
      exact isChain_reverse.mpr hleft'
  rw [hafter, reverse_injective hbefore]

/-- A template with a place inside of a substitution lies in the substitution. -/
theorem all_inside (hq : Template ks qs) {a b : Nat} (h : Link ks a b) (hx : x ∈ qs)
    (hinside : a < x ∧ x < b) : ∀ q ∈ qs, a < q ∧ q < b := by
  refine forall_of_chain (P := fun q => a < q ∧ q < b) ?_ ?_ hq.links hx hinside
  · exact fun i j hij hi => ⟨hi.1.trans hij.lt, h.inner_lt hij hi.1 hi.2⟩
  · exact fun i j hij hj => ⟨h.lt_inner hij hj.1 hj.2, hij.lt.trans hj.2⟩

theorem pairwise_lt (hp : Template ks ps) : ps.Pairwise (· < ·) :=
  isChain_iff_pairwise.mp (hp.links.imp fun _ _ h => h.lt)

/-- A template that starts later than another one lies in a substitution of it or behind it. -/
theorem inside_or_before (hp : Template ks ps) (hq : Template ks qs) (hne : ps ≠ qs)
    (hstart : ∃ p ∈ ps.head?, ∃ q ∈ qs.head?, p < q) : Inside ps qs ∨ Before ps qs := by
  obtain ⟨p, hp', q, hq', hlt⟩ := hstart
  obtain ⟨ps, rfl⟩ := head?_eq_some_iff.mp hp'
  obtain ⟨qs, rfl⟩ := head?_eq_some_iff.mp hq'
  have hout : q ∉ p :: ps := fun hmem => hne (hp.eq_of_mem hq hmem mem_cons_self)
  obtain ⟨last, hlast, -⟩ := hp.tail
  by_cases hq_lt : q < last
  · obtain ⟨a, b, hinfix, hab, hinside⟩ :=
      exists_gap hp.links hout hlt ⟨last, hlast, hq_lt⟩
    exact .inl ⟨a, b, hinfix, hq.all_inside hab mem_cons_self hinside⟩
  · refine .inr fun x hx y hy => ?_
    have hx_le : x ≤ last := by
      obtain ⟨init, hinit⟩ := getLast?_eq_some_iff.mp hlast
      have hsorted := hp.pairwise_lt
      rw [hinit] at hsorted hx
      rcases mem_append.mp hx with hx | hx
      · exact (pairwise_append.mp hsorted).2.2 x hx last mem_cons_self |>.le
      · exact (mem_singleton.mp hx).le
    have hy_ge : q ≤ y := by
      rcases mem_cons.mp hy with rfl | hy
      · exact Nat.le_refl y
      · exact ((pairwise_cons.mp hq.pairwise_lt).1 y hy).le
    have hne_last : last ≠ q := fun h => hout (h ▸ mem_of_getLast? hlast)
    omega

/-- Two templates lie side by side, or one of them lies in a substitution of the other. -/
theorem apart (hp : Template ks ps) (hq : Template ks qs) (hne : ps ≠ qs) :
    Before ps qs ∨ Before qs ps ∨ Inside ps qs ∨ Inside qs ps := by
  obtain ⟨p, hp', -⟩ := hp.head
  obtain ⟨q, hq', -⟩ := hq.head
  rcases Nat.lt_trichotomy p q with hlt | rfl | hlt
  · rcases hp.inside_or_before hq hne ⟨p, hp', q, hq', hlt⟩ with h | h
    · exact .inr (.inr (.inl h))
    · exact .inl h
  · exact absurd (hp.eq_of_mem hq (mem_of_head? hp') (mem_of_head? hq')) hne
  · rcases hq.inside_or_before hp hne.symm ⟨q, hq', p, hp', hlt⟩ with h | h
    · exact .inr (.inr (.inr h))
    · exact .inr (.inl h)

end Template

variable {final : Nesting} {k : Kind}

/-- The chunks of a template from one of them on. -/
theorem exists_tail (h : Nesting.after? {} ks = some final) (hfinal : final.templates = [])
    (hk : ks[i]? = some k) (hpart : k.opensHole ∨ k.closesHole) :
    ∃ ps, (i :: ps).IsChain (Link ks) ∧ ∃ j ∈ (i :: ps).getLast?, ks[j]? = some .templateTail := by
  induction hn : ks.length - i using Nat.strong_induction_on generalizing i k with | _ n ih
  by_cases hopens : k.opensHole
  · obtain ⟨j, hlink⟩ := exists_link_right h hfinal hk hopens
    obtain ⟨l, hl, hcloses⟩ := hlink.closes
    have hi := hlink.lt
    have hj : j < ks.length := (List.getElem?_eq_some_iff.mp hl).1
    obtain ⟨ps, hps, htail⟩ := ih (ks.length - j) (by omega) hl (.inr hcloses) rfl
    exact ⟨j :: ps, .cons_cons hlink hps, by simpa using htail⟩
  · obtain rfl := Kind.eq_templateTail hpart hopens
    exact ⟨[], .singleton i, i, rfl, hk⟩

/-- The chunks of a template up to one of them. -/
theorem exists_head (h : Nesting.after? {} ks = some final) (hk : ks[i]? = some k)
    (hpart : k.opensHole ∨ k.closesHole) :
    ∃ ps, (ps ++ [i]).IsChain (Link ks) ∧
      ∃ j ∈ (ps ++ [i]).head?, ks[j]? = some .templateHead := by
  induction i using Nat.strong_induction_on generalizing k with | _ i ih
  by_cases hcloses : k.closesHole
  · obtain ⟨m, hlink⟩ := exists_link_left h hk hcloses
    obtain ⟨l, hl, hopens⟩ := hlink.opens
    obtain ⟨ps, hps, j, hj, hhead⟩ := ih m hlink.lt hl (.inl hopens)
    refine ⟨ps ++ [m], ?_, j, ?_, hhead⟩
    · rw [append_assoc]
      exact isChain_split.mpr ⟨hps, .cons_cons hlink (.singleton i)⟩
    · rw [head?_append, hj]
      rfl
  · obtain rfl := Kind.eq_templateHead hpart hcloses
    exact ⟨[], .singleton i, i, rfl, hk⟩

/-- Every chunk belongs to exactly one template. -/
theorem existsUnique_template (h : Nesting.after? {} ks = some final) (hfinal : final.templates = [])
    (hk : ks[i]? = some k) (hpart : k.opensHole ∨ k.closesHole) :
    ∃! ps, Template ks ps ∧ i ∈ ps := by
  obtain ⟨front, hfront, hhead⟩ := exists_head h hk hpart
  obtain ⟨back, hback, j, hj, htail⟩ := exists_tail h hfinal hk hpart
  have htemplate : Template ks (front ++ i :: back) := by
    refine ⟨?_, ⟨j, ?_, htail⟩, isChain_split.mpr ⟨hfront, hback⟩⟩
    · have hsame : (front ++ i :: back).head? = (front ++ [i]).head? := by cases front <;> rfl
      rwa [hsame]
    · rw [getLast?_append, hj]
      rfl
  have hmem : i ∈ front ++ i :: back := mem_append_right _ mem_cons_self
  exact ⟨_, ⟨htemplate, hmem⟩, fun ps hps => hps.1.eq_of_mem htemplate hps.2 hmem⟩

end Templates

section Scan

open Reading

/-- The states of the scan of a text: the nesting, and what is left of the text. -/
inductive Scans (text : List Char) : Nesting → List Char → Prop
  | start : Scans text {} text
  | step {n : Nesting} {c : Char} {cs : List Char} (h : Scans text n (c :: cs)) :
      Scans text (Reading.ofText n c cs).nesting (cs.drop (Reading.ofText n c cs).extra)

/-- The depths at which substitutions began do not decrease from the outermost to the innermost
one, and none is past the present depth. -/
structure Nesting.Ordered (n : Nesting) : Prop where
  sorted : n.templates.Pairwise (· ≥ ·)
  bounded : ∀ t ∈ n.templates, t ≤ n.braces

namespace Nesting.Ordered

variable {n : Nesting}

theorem push (h : n.Ordered) : Ordered { n with templates := n.braces :: n.templates } :=
  ⟨pairwise_cons.mpr ⟨h.bounded, h.sorted⟩,
    forall_mem_cons.mpr ⟨Nat.le_refl _, h.bounded⟩⟩

theorem pop (h : n.Ordered) : Ordered { n with templates := n.templates.tail } :=
  ⟨h.sorted.tail, fun t ht => h.bounded t (mem_of_mem_tail ht)⟩

theorem deeper (h : n.Ordered) : Ordered { n with braces := n.braces + 1 } :=
  ⟨h.sorted, fun t ht => Nat.le_succ_of_le (h.bounded t ht)⟩

/-- A brace that closes no substitution leaves the depth of each of them. -/
theorem shallower (h : n.Ordered) (hopen : n.templates.head? ≠ some n.braces) :
    Ordered { n with braces := n.braces - 1 } := by
  refine ⟨h.sorted, fun t ht => ?_⟩
  cases hn : n.templates with
  | nil =>
    rw [hn] at ht
    cases ht
  | cons t0 ts =>
    have hsorted := h.sorted
    have hle := h.bounded t0 (hn ▸ mem_cons_self)
    rw [hn] at ht hopen hsorted
    have hne : t0 ≠ n.braces := fun heq => hopen (congrArg some heq)
    have htop : t ≤ t0 := by
      rcases mem_cons.mp ht with rfl | ht
      · exact Nat.le_refl t
      · exact (pairwise_cons.mp hsorted).1 t ht
    dsimp only
    omega

theorem ofChunk (h : n.Ordered) (whole part : Kind) (cs : List Char) :
    (ofChunk n whole part cs).nesting.Ordered := by
  unfold Reading.ofChunk
  dsimp only
  split
  · exact h
  · exact h.push
  · exact h

/-- What is read next leaves the depths in order, be it with or without faults. -/
theorem reading (h : n.Ordered) (c : Char) (cs : List Char) :
    (Reading.ofText n c cs).nesting.Ordered := by
  rcases reading_cases n c cs with ⟨-, hr⟩ | ⟨-, -, hr⟩ | ⟨-, -, hr⟩ | ⟨-, hr⟩ | ⟨-, hr⟩ |
    ⟨-, hr⟩ | ⟨-, hr⟩ | ⟨-, -, hr⟩ | ⟨hc, hr⟩ <;> rw [hr]
  · exact h
  · exact h
  · exact h
  · unfold ofString
    dsimp only
    split <;> exact h
  · exact h.ofChunk _ _ _
  · unfold ofNumber
    split <;> exact h
  · exact h
  · exact h.pop.ofChunk _ _ _
  · unfold ofMark
    split
    · rename_i mark kind hmark
      dsimp only
      split
      · exact h.deeper
      · have hbrace : ∀ a ∈ Kind.marks, a.2 = .rbrace → a.1 = ['\x7d'] := by decide
        obtain rfl := hbrace _ (mem_of_find?_eq_some hmark) rfl
        have hfound := find?_some hmark
        have hprefix : ['\x7d'] <+: c :: cs := isPrefixOf_iff_prefix.mp hfound
        exact h.shallower (hc (cons_prefix_cons.mp hprefix).1.symm)
      · exact h
    · exact h

end Nesting.Ordered

theorem Scans.ordered {text rest : List Char} {n : Nesting} (h : Scans text n rest) : n.Ordered := by
  induction h with
  | start => exact ⟨.nil, nofun⟩
  | step _ ih => exact ih.reading _ _

end Scan

/-- Templates are well nested. In the token stream of a text each head, middle and tail belongs to
exactly one template, a chain of chunks with balanced symbols between them; of two templates one
lies in a substitution of the other, or they lie side by side. Throughout the scan the depths of the
open templates are in order. -/
theorem templates_nested {file text : String} {tokens : List Token}
    (h : Stream.ofText file text = .ok tokens) :
    (∀ i, (∃ k ∈ (tokens.map Token.kind)[i]?, k.opensHole = true ∨ k.closesHole = true) →
      ∃! ps, Template (tokens.map Token.kind) ps ∧ i ∈ ps) ∧
    (∀ ps qs, Template (tokens.map Token.kind) ps → Template (tokens.map Token.kind) qs → ps ≠ qs →
      Before ps qs ∨ Before qs ps ∨ Inside ps qs ∨ Inside qs ps) ∧
    ∀ n rest, Scans text.toList n rest → n.Ordered := by
  obtain ⟨hfaults, hopen, -⟩ := ofText_ok h
  have hkinds : tokens.map Token.kind = (symbolsOf text).map Prod.fst ++ [.endMark] := by
    have hsymbols := congrArg (List.map Prod.fst) (map_symbol_ofText h)
    rwa [List.map_map, List.map_append] at hsymbols
  have hafter : Nesting.after? {} (tokens.map Token.kind) =
      some (Lexeme.ofText {} text.toList).2 := by
    rw [hkinds, Nesting.after?_append, symbolsOf, after?_lexemes hfaults]
    rfl
  refine ⟨fun i ⟨k, hk, hpart⟩ => existsUnique_template hafter hopen hk hpart,
    fun ps qs hp hq hne => hp.apart hq hne, fun n rest hscan => hscan.ordered⟩

theorem nested_templates_nested :
    ∃ tokens,
      Stream.ofText "m" "\x7d \x60a$\x7b \x7bk: \x60$\x7by\x7d$\x7b1\x7d\x60\x7d \x7db\x60" = .ok tokens ∧
      tokens.map Token.kind = [.rbrace, .templateHead, .lbrace, .identifier, .colon, .templateHead,
        .identifier, .templateMiddle, .number, .templateTail, .rbrace, .templateTail, .endMark] ∧
      (∀ i, (∃ k ∈ (tokens.map Token.kind)[i]?, k.opensHole = true ∨ k.closesHole = true) →
        ∃! ps, Template (tokens.map Token.kind) ps ∧ i ∈ ps) ∧
      (∀ ps qs, Template (tokens.map Token.kind) ps → Template (tokens.map Token.kind) qs →
        ps ≠ qs → Before ps qs ∨ Before qs ps ∨ Inside ps qs ∨ Inside qs ps) ∧
      ∀ n rest,
        Scans "\x7d \x60a$\x7b \x7bk: \x60$\x7by\x7d$\x7b1\x7d\x60\x7d \x7db\x60".toList n rest →
        n.Ordered := by
  have hrun : (Stream.ofText "m" "\x7d \x60a$\x7b \x7bk: \x60$\x7by\x7d$\x7b1\x7d\x60\x7d \x7db\x60").map
      (List.map Token.kind) = .ok [.rbrace, .templateHead, .lbrace, .identifier, .colon,
        .templateHead, .identifier, .templateMiddle, .number, .templateTail, .rbrace, .templateTail,
        .endMark] := by
    decide +kernel
  cases h : Stream.ofText "m"
      "\x7d \x60a$\x7b \x7bk: \x60$\x7by\x7d$\x7b1\x7d\x60\x7d \x7db\x60" with
  | error ds => rw [h] at hrun; cases hrun
  | ok tokens =>
    rw [h] at hrun
    exact ⟨tokens, rfl, Except.ok.inj hrun, templates_nested h⟩

end StepBinding.Token
