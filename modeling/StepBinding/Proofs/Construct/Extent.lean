import StepBinding.Construct.Steps

/-! What a step list takes in. Tokens whose brackets match are passed over inside of any bracket,
and outside of all brackets if they also hold no comma, no semicolon and a colon only after
its question mark. Where the tokens of a list are given step by step, the list is cut into
exactly these steps; conversely no step of a list holds a comma outside of its brackets. -/

namespace StepBinding.Construct.Steps

open List Token

variable {k o : Kind} {ks ls : List Kind} {t u : Token} {d' : Depth}
  {later : List (Token × List Token)} {step us : List Token} {place : Nat} {b : Bool}

/-- What is open after some tokens of a list, of which none ends the list or separates its steps. -/
def after (d : Depth) : List Kind → Option Depth
  | [] => some d
  | k :: ks =>
    match role d k with
    | .inside d' => after d' ks
    | _ => none

theorem after_append (d : Depth) (ks ls : List Kind) :
    after d (ks ++ ls) = (after d ks).bind fun d' => after d' ls := by
  induction ks generalizing d with
  | nil => rfl
  | cons k ks ih =>
    simp only [cons_append, after]
    split
    · exact ih _
    · rfl

/-- Kinds that neither open nor close anything. -/
def isPlain (k : Kind) : Bool := !k.isOpener && k.opener?.isNone && k != .endMark

/-- Tokens whose brackets and templates match. -/
inductive Balanced : List Kind → Prop
  | nil : Balanced []
  | plain {k : Kind} (h : isPlain k = true) : Balanced [k]
  | append {ks ls : List Kind} (h : Balanced ks) (h' : Balanced ls) : Balanced (ks ++ ls)
  | enclose {o c : Kind} {ks : List Kind} (ho : o.isOpener = true) (hc : c.opener? = some o)
      (h : Balanced ks) : Balanced (o :: (ks ++ [c]))

theorem Balanced.cons {k : Kind} {ks : List Kind} (hk : isPlain k) (h : Balanced ks) :
    Balanced (k :: ks) :=
  .append (.plain hk) h

theorem role_inner_plain (h : isPlain k) (o : Kind) (s : List Kind) (q : Nat) :
    role ⟨o :: s, q⟩ k = .inside ⟨o :: s, q⟩ := by
  cases k <;> first | rfl | exact absurd h (by decide)

theorem role_opener (h : o.isOpener) (s : List Kind) (q : Nat) :
    role ⟨s, q⟩ o = .inside ⟨o :: s, q⟩ := by
  cases s <;> cases o <;> first | rfl | exact absurd h (by decide)

theorem role_closer {c : Kind} (h : c.opener? = some o) (s : List Kind) (q : Nat) :
    role ⟨o :: s, q⟩ c = .inside ⟨s, q⟩ := by
  cases c <;> cases h <;> rfl

/-- Matching tokens are passed over inside of a bracket. -/
theorem Balanced.after_inner (h : Balanced ks) (o : Kind) (s : List Kind) (q : Nat) :
    after ⟨o :: s, q⟩ ks = some ⟨o :: s, q⟩ := by
  induction h generalizing o s with
  | nil => rfl
  | plain h => simp only [after, role_inner_plain h]
  | append h h' ih ih' =>
    rw [after_append, ih]
    exact ih' o s
  | @enclose o' c ks ho hc h ih =>
    simp only [after, role_opener ho]
    rw [after_append, ih]
    simp only [Option.bind_some, after, role_closer hc]

/-- Tokens that a step list passes over outside of all brackets. -/
def Flat (ks : List Kind) : Prop := ∀ q, after ⟨[], q⟩ ks = some ⟨[], q⟩

/-- Kinds that stand in a step of a list and change nothing about what is open. -/
def isLevel (k : Kind) : Bool :=
  isPlain k && k != .semicolon && k != .templateMiddle && k != .comma && k != .question
    && k != .colon

theorem isPlain_of_isLevel (h : isLevel k) : isPlain k := by
  cases k <;> first | rfl | cases h

namespace Flat

theorem nil : Flat [] := fun _ => rfl

theorem append (h : Flat ks) (h' : Flat ls) : Flat (ks ++ ls) := fun q => by
  rw [after_append, h q]
  exact h' q

theorem level (h : isLevel k) : Flat [k] := fun q => by
  cases k <;> first | rfl | exact absurd h (by decide)

theorem enclose {o c : Kind} (ho : o.isOpener) (hc : c.opener? = some o)
    (h : Balanced ks) : Flat (o :: (ks ++ [c])) := fun q => by
  simp only [after, role_opener ho]
  rw [after_append, h.after_inner]
  simp only [Option.bind_some, after, role_closer hc]

/-- A colon answers the question mark before it. -/
theorem choice (h : Flat ks) (h' : Flat ls) : Flat (.question :: (ks ++ .colon :: ls)) :=
  fun q => by
    have hcolon : role ⟨[], q + 1⟩ .colon = .inside ⟨[], q⟩ := rfl
    change after ⟨[], q + 1⟩ (ks ++ .colon :: ls) = _
    rw [after_append, h]
    simp only [Option.bind_some, after, hcolon]
    exact h' q

end Flat

/-- Some of the tokens separates steps, when they come after `questions` open question marks. -/
def Separated (questions : Nat) (ks : List Kind) : Prop :=
  ∃ before later q, ks = before ++ Kind.comma :: later ∧ after ⟨[], questions⟩ before = some ⟨[], q⟩

/-- Some of the tokens separates steps, whatever is asked before them. -/
def Parted (ks : List Kind) : Prop := ∀ questions, Separated questions ks

namespace Parted

theorem append_right (h : Parted ks) (ls : List Kind) : Parted (ks ++ ls) := fun n => by
  obtain ⟨before, later, q, rfl, hq⟩ := h n
  exact ⟨before, later ++ ls, q, by simp, hq⟩

/-- A separator stays one after tokens that leave nothing open. -/
theorem append_left (h : Parted ls) (hks : ∀ n, ∃ q, after ⟨[], n⟩ ks = some ⟨[], q⟩) :
    Parted (ks ++ ls) := fun n => by
  obtain ⟨q, hq⟩ := hks n
  obtain ⟨before, later, q', rfl, hq'⟩ := h q
  refine ⟨ks ++ before, later, q', by simp, ?_⟩
  rw [after_append, hq]
  exact hq'

theorem of_flat (h : Flat ks) (ls : List Kind) : Parted (ks ++ .comma :: ls) :=
  fun n => ⟨ks, ls, n, rfl, h n⟩

end Parted

/-- No semicolon stands last. -/
def Unended (ks : List Kind) : Prop := ks.getLast? ≠ some .semicolon

theorem Unended.append {ks ls : List Kind} (h : Unended ks) (h' : Unended ls) :
    Unended (ks ++ ls) := by
  unfold Unended at h h' ⊢
  rw [getLast?_append]
  cases hl : ls.getLast? with
  | none => exact h
  | some l => rw [hl] at h'; exact h'

/-- A semicolon outside of all brackets ends a step list. -/
theorem Flat.unended (h : Flat ks) : Unended ks := fun hlast => by
  obtain ⟨init, rfl⟩ := getLast?_eq_some_iff.mp hlast
  have hafter := h 0
  rw [after_append, Option.bind_eq_some_iff] at hafter
  obtain ⟨⟨openers, questions⟩, -, hlast⟩ := hafter
  cases openers <;> cases hlast

/-- Tokens that hold a separator and do not end in a semicolon, or that a step list passes over. -/
def Shows : Bool → List Kind → Prop
  | true, ks => Parted ks ∧ Unended ks
  | false, ks => Flat ks

theorem Shows.unended (h : Shows b ks) : Unended ks := by
  cases b with
  | true => exact h.2
  | false => exact Flat.unended h

/-- The tokens of a choice, by those of its test and its two branches. -/
theorem shows_choice {js : List Kind} {b' : Bool} (h : Flat ks) (h' : Shows b ls)
    (h'' : Shows b' js) : Shows (b || b') (ks ++ .question :: (ls ++ .colon :: js)) := by
  have hquestion (n : Nat) : after ⟨[], n⟩ (ks ++ [.question]) = some ⟨[], n + 1⟩ := by
    rw [after_append, h n]
    rfl
  have hunended : Unended (ks ++ .question :: (ls ++ .colon :: js)) :=
    h.unended.append (@Unended.append [.question] _ nofun
      (h'.unended.append (@Unended.append [.colon] _ nofun h''.unended)))
  cases b with
  | true =>
    have := (h'.1.append_right (.colon :: js)).append_left fun n => ⟨n + 1, hquestion n⟩
    rw [append_assoc] at this
    exact ⟨this, hunended⟩
  | false =>
    cases b' with
    | true =>
      have hcolon (n : Nat) :
          after ⟨[], n⟩ (ks ++ [.question] ++ ls ++ [.colon]) = some ⟨[], n⟩ := by
        rw [after_append, after_append, hquestion, Option.bind_some, h']
        rfl
      have := h''.1.append_left fun n => ⟨n, hcolon n⟩
      exact ⟨by simpa using this, hunended⟩
    | false => exact h.append (.choice h' h'')

/-- The tokens of an expression after ones that a step list passes over. -/
theorem Shows.append_left (h : Shows b ls) (hks : Flat ks) : Shows b (ks ++ ls) := by
  cases b with
  | true => exact ⟨h.1.append_left fun n => ⟨n, hks n⟩, hks.unended.append h.2⟩
  | false => exact hks.append h

/-- The brackets and templates that are open after some tokens, if all that are closed match. -/
def nest (s : List Kind) : List Kind → Option (List Kind)
  | [] => some s
  | k :: ks =>
    if k.isOpener then nest (k :: s) ks
    else match k.opener?, s with
      | none, s => nest s ks
      | some _, [] => none
      | some o, o' :: s => if o = o' then nest s ks else none

section Nest

variable {s s' : List Kind}

theorem nest_append (s ks ls : List Kind) :
    nest s (ks ++ ls) = (nest s ks).bind fun s' => nest s' ls := by
  induction ks generalizing s with
  | nil => rfl
  | cons k ks ih =>
    simp only [cons_append, nest]
    split
    · exact ih _
    · split
      · exact ih _
      · rfl
      · split
        · exact ih _
        · rfl

theorem nest_opener (h : k.isOpener) : nest s (k :: ks) = nest (k :: s) ks := by
  simp only [nest, h, if_true]

theorem nest_plain (h : isPlain k) : nest s (k :: ks) = nest s ks := by
  cases k <;> first | rfl | exact absurd h (by decide)

theorem nest_closer (h : k.opener? = some o) : nest (o :: s) (k :: ks) = nest s ks := by
  cases k <;> cases h <;> rfl

/-- Only what is open can be closed. -/
theorem exists_of_nest_closer (h : k.opener? = some o) (hs : nest s (k :: ks) = some s') :
    ∃ t, s = o :: t ∧ nest t ks = some s' := by
  have hopener : k.isOpener = false := by cases k <;> cases h <;> rfl
  simp only [nest, hopener, Bool.false_eq_true, if_false, h] at hs
  split at hs
  · rename_i heq
    cases heq
  · cases hs
  · rename_i o' t heq
    cases heq
    split at hs
    · rename_i ho
      exact ⟨t, by rw [ho], hs⟩
    · cases hs

theorem Balanced.nest {ks : List Kind} (h : Balanced ks) (s : List Kind) : nest s ks = some s := by
  induction h generalizing s with
  | nil => rfl
  | plain h => rw [nest_plain h]; rfl
  | append h h' ih ih' =>
    rw [nest_append, ih]
    exact ih' s
  | enclose ho hc h ih =>
    rw [nest_opener ho, nest_append, ih]
    exact nest_closer hc

/-- What is open before some tokens is closed by them, one after the other, with balanced tokens
between. -/
theorem closes_of_nest (h : nest s ks = some []) (hmark : .endMark ∉ ks) :
    match s with
    | [] => Balanced ks
    | o :: s => ∃ inner c later, ks = inner ++ c :: later ∧ Balanced inner ∧ c.opener? = some o ∧
        nest s later = some [] := by
  induction hn : ks.length using Nat.strongRecOn generalizing s ks with
  | ind n ih =>
    subst hn
    cases ks with
    | nil => cases h; exact .nil
    | cons k ks =>
      have hmark' : .endMark ∉ ks := fun hmem => hmark (mem_cons_of_mem _ hmem)
      by_cases hopener : k.isOpener
      · rw [nest_opener hopener] at h
        obtain ⟨inner, c, later, rfl, hinner, hc, hlater⟩ :=
          ih ks.length (Nat.lt_succ_self _) h hmark' rfl
        have hgroup : Balanced (k :: (inner ++ [c])) := .enclose hopener hc hinner
        have hrest := ih later.length (by simp; omega) hlater
          (fun hmem => hmark' (mem_append_right _ (mem_cons_of_mem _ hmem))) rfl
        cases s with
        | nil => simpa using hgroup.append hrest
        | cons o s =>
          obtain ⟨inner', c', later', rfl, hinner', hc', hlater'⟩ := hrest
          exact ⟨_, c', later', by simp, hgroup.append hinner', hc', hlater'⟩
      · cases hcloser : k.opener? with
        | some o =>
          obtain ⟨t, rfl, hlater⟩ := exists_of_nest_closer hcloser h
          exact ⟨[], k, ks, rfl, .nil, hcloser, hlater⟩
        | none =>
          have hplain : isPlain k := by
            have hne : k ≠ .endMark := fun hk => hmark (hk ▸ mem_cons_self)
            simp [isPlain, hopener, hcloser, hne]
          rw [nest_plain hplain] at h
          have hrest := ih ks.length (Nat.lt_succ_self _) h hmark' rfl
          cases s with
          | nil => exact .cons hplain hrest
          | cons o s =>
            obtain ⟨inner, c, later, rfl, hinner, hc, hlater⟩ := hrest
            exact ⟨k :: inner, c, later, rfl, .cons hplain hinner, hc, hlater⟩

/-- Tokens that nest by themselves have matching brackets. -/
theorem balanced_of_nest (h : nest [] ks = some []) (hmark : .endMark ∉ ks) : Balanced ks :=
  closes_of_nest h hmark

/-- Tokens with matching brackets, if they nest at all. -/
def Even (ks : List Kind) : Prop := ∀ s s', nest s ks = some s' → Balanced ks

/-- Tokens before one of kind `k` with matching brackets, if they nest at all and so does the one
behind them. -/
def EvenTo (k : Kind) (ks : List Kind) : Prop :=
  ∀ s s', nest s ks = some s' → Balanced ks ∨ k = .endMark ∨ nest s' [k] = none

/-- Tokens that a step list passes over, if they nest at all. -/
def Smooth (ks : List Kind) : Prop := ∀ s s', nest s ks = some s' → Balanced ks ∧ Flat ks

theorem Balanced.even (h : Balanced ks) : Even ks := fun _ _ _ => h

theorem Smooth.even (h : Smooth ks) : Even ks := fun s s' hs => (h s s' hs).1

theorem Even.append (h : Even ks) (h' : Even ls) : Even (ks ++ ls) := fun s s'' hs => by
  rw [nest_append, Option.bind_eq_some_iff] at hs
  obtain ⟨s', hks, hls⟩ := hs
  exact (h _ _ hks).append (h' _ _ hls)

theorem Smooth.append (h : Smooth ks) (h' : Smooth ls) : Smooth (ks ++ ls) := fun s s'' hs => by
  rw [nest_append, Option.bind_eq_some_iff] at hs
  obtain ⟨s', hks, hls⟩ := hs
  exact ⟨(h _ _ hks).1.append (h' _ _ hls).1, (h _ _ hks).2.append (h' _ _ hls).2⟩

theorem Even.to (h : Even ks) (k : Kind) : EvenTo k ks := fun s s' hs => .inl (h s s' hs)

/-- What is closed behind the tokens was opened before them. -/
theorem EvenTo.enclose {o c : Kind} (ho : o.isOpener) (hc : c.opener? = some o)
    (h : EvenTo c ks) : Smooth (o :: (ks ++ [c])) := fun s s'' hs => by
  rw [nest_opener ho, nest_append, Option.bind_eq_some_iff] at hs
  obtain ⟨s', hks, hclose⟩ := hs
  rcases h _ _ hks with hb | rfl | hnone
  · exact ⟨.enclose ho hc hb, .enclose ho hc hb⟩
  · cases hc
  · rw [hnone] at hclose
    cases hclose

theorem EvenTo.append_even (h : Even ks) (h' : EvenTo k ls) : EvenTo k (ks ++ ls) :=
  fun s s'' hs => by
    rw [nest_append, Option.bind_eq_some_iff] at hs
    obtain ⟨s', hks, hls⟩ := hs
    exact (h' _ _ hls).imp_left (h _ _ hks).append

/-- If the tokens behind some have to nest, they do not stand in what those left open. -/
theorem EvenTo.append {l : Kind} (hl : l ≠ .endMark) (h : EvenTo l ks) (h' : EvenTo k (l :: ls)) :
    EvenTo k (ks ++ l :: ls) := fun s s'' hs => by
  rw [nest_append, Option.bind_eq_some_iff] at hs
  obtain ⟨s', hks, hls⟩ := hs
  rcases h _ _ hks with hb | hend | hnone
  · exact (h' _ _ hls).imp_left hb.append
  · exact absurd hend hl
  · rw [show l :: ls = [l] ++ ls from rfl, nest_append, hnone] at hls
    cases hls

end Nest

section Split

variable {d : Depth} {ts : List Token}

/-- The kinds of tokens. -/
def kinds (ts : List Token) : List Kind := ts.map Token.kind

@[simp] theorem kinds_append (ts us : List Token) : kinds (ts ++ us) = kinds ts ++ kinds us :=
  map_append

@[simp] theorem kinds_cons (t : Token) (ts : List Token) : kinds (t :: ts) = t.kind :: kinds ts :=
  rfl

@[simp] theorem kinds_nil : kinds [] = [] := rfl

/-- The kinds of the tokens that were cut, with the separators. -/
def Split.taken (s : Split) : List Kind :=
  kinds s.first ++ s.later.flatMap fun step => .comma :: kinds step

theorem Split.balanced_taken {s : Split} (h : ∀ step ∈ s.steps, Balanced (kinds step)) :
    Balanced s.taken := by
  obtain ⟨hfirst, hlater⟩ := forall_mem_cons.mp h
  refine hfirst.append ?_
  generalize s.later = later at hlater
  induction later with
  | nil => exact .nil
  | cons step later ih =>
    obtain ⟨hstep, hlater⟩ := forall_mem_cons.mp hlater
    exact .append (.cons rfl hstep) (ih hlater)

/-- A list of several steps shows its separators. -/
theorem Split.shows_taken {s : Split} (h : ∀ step ∈ s.steps, Flat (kinds step)) :
    Shows (!s.later.isEmpty) s.taken := by
  obtain ⟨hfirst, hlater⟩ := forall_mem_cons.mp h
  unfold Split.taken
  have hunended : Unended (kinds s.first ++ s.later.flatMap fun step => .comma :: kinds step) := by
    refine hfirst.unended.append ?_
    clear h
    generalize s.later = later at hlater ⊢
    induction later with
    | nil => exact nofun
    | cons step later ih =>
      obtain ⟨hstep, hlater⟩ := forall_mem_cons.mp hlater
      exact (@Unended.append [.comma] _ nofun hstep.unended).append (ih hlater)
  cases hcases : s.later with
  | nil =>
    rw [flatMap_nil, append_nil]
    exact hfirst
  | cons step later =>
    rw [hcases] at hunended
    exact ⟨Parted.of_flat hfirst _, hunended⟩

/-- No step is empty if no place of an empty one is listed. -/
theorem Split.ne_nil_of_emptySteps {s : Split} (h : s.emptySteps = []) :
    ∀ step ∈ s.steps, step ≠ [] := by
  rintro step hs rfl
  obtain ⟨i, hi⟩ := getElem?_of_mem hs
  have hmem : (([] : List Token), i) ∈ s.steps.zipIdx.filter fun step => step.1.isEmpty :=
    mem_filter.mpr ⟨mem_zipIdx_iff_getElem?.mpr hi, rfl⟩
  rw [map_eq_nil_iff.mp h] at hmem
  cases hmem

theorem splitFrom_stop (h : role d t.kind = .stop) :
    splitFrom d (t :: ts) = { rest := t :: ts } := by
  simp only [splitFrom, h]

theorem splitFrom_separator (h : role d t.kind = .separator) :
    splitFrom d (t :: ts) =
      { later := (splitFrom d ts).first :: (splitFrom d ts).later, rest := (splitFrom d ts).rest } := by
  simp only [splitFrom, h]

theorem splitFrom_inside (h : role d t.kind = .inside d') :
    splitFrom d (t :: ts) = { splitFrom d' ts with first := t :: (splitFrom d' ts).first } := by
  simp only [splitFrom, h]

theorem role_separator (h : role d k = .separator) : k = .comma ∧ d.openers = [] := by
  obtain ⟨openers, q⟩ := d
  cases openers with
  | nil =>
    cases k <;> simp only [role, outerRole, Kind.opener?, Kind.isOpener] at h <;> try cases h
    · exact ⟨rfl, rfl⟩
    · change (if q = 0 then Role.stop else .inside _) = _ at h
      split at h <;> cases h
  | cons o s =>
    cases k <;> simp only [role, innerRole, Kind.isOpener, Kind.opener?] at h <;> try cases h
    all_goals
      change (if _ then Role.inside _ else .stop) = _ at h
      split at h <;> cases h

/-- A token inside of a list opens and closes as it does among any tokens. -/
theorem nest_inside {k : Kind} {d' : Depth} {s ks : List Kind} (h : role d k = .inside d') :
    nest (d.openers ++ s) (k :: ks) = nest (d'.openers ++ s) ks := by
  obtain ⟨openers, q⟩ := d
  cases openers with
  | nil =>
    cases k <;> simp only [role, outerRole, Kind.opener?, Kind.isOpener] at h <;>
      first | (cases h; done) | (cases h; rfl) | skip
    change (if q = 0 then Role.stop else .inside _) = _ at h
    split at h <;> cases h
    rfl
  | cons o openers =>
    cases k <;> simp only [role, innerRole, Kind.isOpener, Kind.opener?] at h <;>
      first | (cases h; done) | (cases h; rfl) | skip
    all_goals
      change (if _ then Role.inside _ else .stop) = _ at h
      split at h <;> cases h
      rename_i ho
      cases ho
      rfl

/-- The tokens of a list are those of its steps, with commas between them. -/
theorem exists_commas (d : Depth) (ts : List Token) :
    ∃ later : List (Token × List Token), later.map Prod.snd = (splitFrom d ts).later ∧
      (∀ p ∈ later, p.1.kind = .comma) ∧
      ts = (splitFrom d ts).first ++ later.flatMap (fun p => p.1 :: p.2) ++ (splitFrom d ts).rest := by
  fun_induction splitFrom d ts with
  | case1 | case2 => exact ⟨[], rfl, nofun, rfl⟩
  | case3 d t ts hr s ih =>
    obtain ⟨later, hlater, hcomma, hts⟩ := ih
    exact ⟨(t, s.first) :: later, congrArg (_ :: ·) hlater,
      forall_mem_cons.mpr ⟨(role_separator hr).1, hcomma⟩, congrArg (t :: ·) hts⟩
  | case4 d t ts d' hr s ih =>
    obtain ⟨later, hlater, hcomma, hts⟩ := ih
    exact ⟨later, hlater, hcomma, congrArg (t :: ·) hts⟩

theorem kinds_commas {s : Split} (h : later.map Prod.snd = s.later)
    (hcommas : ∀ p ∈ later, p.1.kind = .comma) :
    kinds (s.first ++ later.flatMap fun p => p.1 :: p.2) = s.taken := by
  rw [kinds_append, Split.taken, ← h, flatMap_map]
  clear h
  induction later with
  | nil => rfl
  | cons p later ih =>
    obtain ⟨hp, hcommas⟩ := forall_mem_cons.mp hcommas
    simpa [hp] using ih hcommas

/-- The cut tokens and the tokens after them are all tokens. -/
theorem exists_taken (d : Depth) (ts : List Token) :
    ∃ us, ts = us ++ (splitFrom d ts).rest ∧ kinds us = (splitFrom d ts).taken := by
  obtain ⟨later, hlater, hcommas, hts⟩ := exists_commas d ts
  exact ⟨_, hts, kinds_commas hlater hcommas⟩

theorem Split.length_le {s : Split} (h : step ∈ s.steps) : step.length ≤ s.taken.length := by
  unfold taken
  rw [length_append]
  rcases mem_cons.mp h with rfl | h
  · simp [kinds]
  · have hle := (sublist_flatten_of_mem
      (mem_map_of_mem (f := fun step => Kind.comma :: kinds step) h)).length_le
    rw [← flatMap_def, length_cons, kinds, length_map] at hle
    omega

/-- A comma stands before the start of every step but the first. -/
theorem Split.comma_boundsFrom {start : Nat} {later : List (List Token)} {b : Nat × Nat}
    (h : (boundsFrom start (step :: later))[place + 1]? = some b) : start < b.1 ∧
      (kinds step ++ later.flatMap fun step => .comma :: kinds step)[b.1 - 1 - start]? =
        some .comma := by
  have hlength (step : List Token) : (kinds step).length = step.length := length_map _
  induction later generalizing start step place with
  | nil => cases h
  | cons step' later ih =>
    rw [boundsFrom, getElem?_cons_succ] at h
    rw [flatMap_cons, cons_append]
    cases place with
    | zero =>
      cases h
      refine ⟨by dsimp only; omega, ?_⟩
      rw [getElem?_append_right (by dsimp only; rw [hlength]; omega), hlength]
      simp
    | succ place =>
      obtain ⟨hlt, hcomma⟩ := ih h
      have hindex : b.1 - 1 - start - step.length =
          b.1 - 1 - (start + step.length + 1) + 1 := by omega
      refine ⟨by omega, ?_⟩
      rwa [getElem?_append_right (by rw [hlength]; omega), hlength, hindex,
        getElem?_cons_succ]

/-- The place at which an empty step is reported is that of a comma of the list. -/
theorem Split.comma_of_emptySteps {s : Split} (h : place ∈ s.emptySteps) (hne : s.isEmpty = false) :
    ∃ start, ((s.bounds 0).map Prod.fst)[place]? = some start ∧
      s.taken[start - 1]? = some .comma := by
  obtain ⟨⟨step, i⟩, hmem, rfl⟩ := mem_map.mp h
  obtain ⟨hmem, hstep⟩ := mem_filter.mp hmem
  have hget := mem_zipIdx_iff_getElem?.mp hmem
  dsimp only at hget hstep ⊢
  have hlengths (start : Nat) (steps : List (List Token)) :
      (Split.boundsFrom start steps).length = steps.length := by
    induction steps generalizing start with
    | nil => rfl
    | cons step steps ih => simp [Split.boundsFrom, ih]
  have hlt : i < (s.bounds 0).length := by
    rw [Split.bounds, hlengths]
    exact (List.getElem?_eq_some_iff.mp hget).1
  obtain ⟨b, hb⟩ : ∃ b, (s.bounds 0)[i]? = some b := ⟨_, getElem?_eq_getElem hlt⟩
  rw [getElem?_map, hb]
  refine ⟨b.1, rfl, ?_⟩
  cases i with
  | zero =>
    -- The first step is empty, so the list starts with a comma.
    cases hb
    have hfirst : s.first = [] := by
      cases hget
      exact isEmpty_iff.mp hstep
    unfold Split.isEmpty at hne
    unfold Split.taken
    rw [hfirst] at hne ⊢
    cases hlater : s.later with
    | nil => rw [hlater] at hne; cases hne
    | cons step later => rfl
  | succ i => exact (Split.comma_boundsFrom hb).2

theorem comma_of_emptySteps (h : place ∈ (split ts).emptySteps) (hne : (split ts).isEmpty = false) :
    ∃ start t, (((split ts).bounds 0).map Prod.fst)[place]? = some start ∧
      ts[start - 1]? = some t ∧ t.kind = .comma := by
  obtain ⟨us, hus, hkinds⟩ := exists_taken {} ts
  obtain ⟨start, hstart, hcomma⟩ := Split.comma_of_emptySteps h hne
  rw [split, ← hkinds, kinds, getElem?_map, Option.map_eq_some_iff] at hcomma
  obtain ⟨t, ht, hkind⟩ := hcomma
  refine ⟨start, t, hstart, ?_, hkind⟩
  rw [hus, getElem?_append_left (List.getElem?_eq_some_iff.mp ht).1, ht]

theorem role_endMark (d : Depth) : role d .endMark = .stop := by
  obtain ⟨openers, q⟩ := d
  cases openers <;> rfl

/-- A step holds only tokens of the list, and never the end mark. -/
theorem mem_of_mem_steps (hs : step ∈ (splitFrom d ts).steps) (ht : t ∈ step) :
    t ∈ ts ∧ t.kind ≠ .endMark := by
  fun_induction splitFrom d ts generalizing step with
  | case1 | case2 => cases mem_singleton.mp hs; cases ht
  | @case3 d u us h s ih =>
    rcases mem_cons.mp hs with rfl | hs
    · cases ht
    · exact (ih hs ht).imp_left (mem_cons_of_mem _)
  | @case4 d u us d' h s ih =>
    rcases mem_cons.mp hs with rfl | hs
    · rcases mem_cons.mp ht with rfl | ht
      · refine ⟨mem_cons_self, fun he => ?_⟩
        rw [he, role_endMark] at h
        cases h
      · exact (ih mem_cons_self ht).imp_left (mem_cons_of_mem _)
    · exact (ih (mem_cons_of_mem _ hs) ht).imp_left (mem_cons_of_mem _)

theorem endMark_notMem_taken : .endMark ∉ (splitFrom d ts).taken := by
  fun_induction splitFrom d ts with
  | case1 | case2 => exact nofun
  | case3 d t ts hr s ih => exact not_mem_cons_of_ne_of_not_mem nofun ih
  | case4 d t ts d' hr s ih =>
    refine not_mem_cons_of_ne_of_not_mem (fun hk => ?_) ih
    rw [← hk, role_endMark] at hr
    cases hr

/-- A step list leaves something open only before the end mark or what closes something else. -/
theorem nest_splitFrom {s s' : List Kind} (h : (splitFrom d ts).rest = u :: us)
    (hs : nest (d.openers ++ s) (splitFrom d ts).taken = some s') :
    nest d.openers (splitFrom d ts).taken = some [] ∨ u.kind = .endMark ∨
      nest s' [u.kind] = none := by
  fun_induction splitFrom d ts with
  | case1 => cases h
  | case2 d t ts hr =>
    cases h
    cases hs
    obtain ⟨openers, q⟩ := d
    cases openers with
    | nil => exact .inl rfl
    | cons o openers =>
      right
      cases hk : u.kind <;> rw [hk] at hr <;> simp only [role, innerRole, Kind.isOpener,
        Kind.opener?] at hr <;> try first | exact .inl rfl | contradiction
      all_goals
        change (if _ then Role.inside _ else .stop) = _ at hr
        split at hr
        · cases hr
        · rename_i hne
          exact .inr (by simp [nest, Kind.isOpener, Kind.opener?, hne])
  | case3 d t ts hr split ih =>
    change nest (d.openers ++ s) (.comma :: split.taken) = _ at hs
    change nest d.openers (.comma :: split.taken) = _ ∨ _
    rw [nest_plain rfl] at hs ⊢
    exact ih h hs
  | case4 d t ts d' hr split ih =>
    change nest (d.openers ++ s) (t.kind :: split.taken) = _ at hs
    change nest d.openers (t.kind :: split.taken) = _ ∨ _
    rw [nest_inside hr] at hs
    have hnil := @nest_inside _ _ _ [] split.taken hr
    rw [append_nil, append_nil] at hnil
    rw [hnil]
    exact ih h hs

theorem evenTo_split (h : (split ts).rest = u :: us) :
    EvenTo u.kind (split ts).taken := fun _ _ hs =>
  (nest_splitFrom (d := {}) h hs).imp_left (balanced_of_nest · endMark_notMem_taken)

/-- The end mark is left over. -/
theorem rest_ne_nil (h : t ∈ ts) (ht : t.kind = .endMark) : (splitFrom d ts).rest ≠ [] := by
  fun_induction splitFrom d ts with
  | case1 => cases h
  | case2 => exact nofun
  | case3 _ _ _ hr _ ih | case4 _ _ _ _ hr _ ih =>
    rcases mem_cons.mp h with rfl | h
    · rw [ht, role_endMark] at hr
      cases hr
    · exact ih h

/-- A list never ends before a comma. -/
theorem head_rest_ne_comma (h : (splitFrom d ts).rest.head? = some t) : t.kind ≠ .comma := by
  fun_induction splitFrom d ts with
  | case1 => cases h
  | case2 d u us hr =>
    cases h
    intro hc
    rw [hc] at hr
    obtain ⟨openers, q⟩ := d
    cases openers <;> cases hr
  | case3 _ _ _ _ _ ih | case4 _ _ _ _ _ _ ih => exact ih h

/-- What comes next in the first step is no separator. -/
theorem role_first {before later : List Token} (hf : (splitFrom d ts).first = before ++ t :: later)
    (ha : after d (kinds before) = some d') : role d' t.kind ≠ .separator := by
  fun_induction splitFrom d ts generalizing before with
  | case1 | case2 | case3 => cases before <;> cases hf
  | @case4 d u us d1 h s ih =>
    cases before with
    | nil =>
      cases hf
      cases ha
      rw [h]
      exact nofun
    | cons b before =>
      obtain ⟨hu, hf⟩ := List.cons.inj hf
      simp only [kinds_cons, after, ← hu, h] at ha
      exact ih hf ha

theorem first_not_separated (questions : Nat) (ts : List Token) :
    ¬Separated questions (kinds (splitFrom ⟨[], questions⟩ ts).first) := by
  rintro ⟨before, later, q, hk, ha⟩
  obtain ⟨bs, rest, hf, rfl, hr⟩ := map_eq_append_iff.mp hk
  obtain ⟨t, ls, rfl, ht, -⟩ := map_eq_cons_iff.mp hr
  refine role_first hf ha ?_
  rw [ht]
  rfl

theorem later_not_separated (hs : step ∈ (splitFrom d ts).later) :
    ∃ q, ¬Separated q (kinds step) := by
  fun_induction splitFrom d ts with
  | case1 | case2 => cases hs
  | case3 d u us h s ih =>
    rcases mem_cons.mp hs with rfl | hs
    · obtain ⟨openers, q⟩ := d
      obtain rfl := (role_separator h).2
      exact ⟨q, first_not_separated q us⟩
    · exact ih hs
  | case4 _ _ _ _ _ _ ih => exact ih hs

/-- No step of a list holds a separator of the list. -/
theorem steps_not_parted (hs : step ∈ (split ts).steps) : ¬Parted (kinds step) := by
  intro hp
  rcases mem_cons.mp hs with rfl | hs
  · exact first_not_separated 0 ts (hp 0)
  · obtain ⟨q, hq⟩ := later_not_separated hs
    exact hq (hp q)

/-- Tokens that are passed over belong to the first step. -/
theorem splitFrom_append (h : after d (kinds ts) = some d') :
    splitFrom d (ts ++ us) = { splitFrom d' us with first := ts ++ (splitFrom d' us).first } := by
  induction ts generalizing d with
  | nil => cases h; rfl
  | cons t ts ih =>
    simp only [kinds_cons, after] at h
    split at h
    · rename_i d1 hr
      rw [cons_append, splitFrom_inside hr, ih h]
      rfl
    · cases h

theorem rest_suffix (d : Depth) (ts : List Token) : (splitFrom d ts).rest <:+ ts := by
  obtain ⟨us, hus, -⟩ := exists_taken d ts
  exact ⟨us, hus.symm⟩

/-- Where a list ends depends only on the tokens up to there and the next one. -/
theorem splitFrom_tail {left : List Token} (vs : List Token) (hne : left ≠ [])
    (h : (splitFrom d (ts ++ us)).rest = left ++ us) :
    splitFrom d (ts ++ vs) = { splitFrom d (ts ++ us) with rest := left ++ vs } := by
  induction ts generalizing d with
  | nil =>
    have hle := (rest_suffix d us).length_le
    rw [show splitFrom d us = splitFrom d ([] ++ us) from rfl, h, length_append] at hle
    exact absurd (eq_nil_of_length_eq_zero (by omega)) hne
  | cons t ts ih =>
    rw [cons_append] at h ⊢
    cases hr : role d t.kind with
    | stop =>
      rw [splitFrom_stop hr] at h ⊢
      have hleft : left = t :: ts := append_cancel_right h.symm
      rw [hleft, cons_append, splitFrom_stop hr]
      rfl
    | separator =>
      rw [splitFrom_separator hr] at h
      rw [splitFrom_separator hr, cons_append, splitFrom_separator hr, ih h]
    | inside d' =>
      rw [splitFrom_inside hr] at h
      rw [splitFrom_inside hr, cons_append, splitFrom_inside hr, ih h]

/-- A list whose steps are given is cut into exactly these steps. -/
theorem split_steps {first : List Token} {stop : Token} {rest : List Token}
    (hf : Flat (kinds first)) (hl : ∀ p ∈ later, p.1.kind = .comma ∧ Flat (kinds p.2))
    (hs : role {} stop.kind = .stop) :
    split (first ++ later.flatMap (fun p => p.1 :: p.2) ++ stop :: rest) =
      { first, later := later.map Prod.snd, rest := stop :: rest } := by
  have hflat {d : Depth} (hd : d = ⟨[], 0⟩) (ts us : List Token) (h : Flat (kinds ts)) :
      splitFrom d (ts ++ us) = { splitFrom d us with first := ts ++ (splitFrom d us).first } := by
    subst hd
    exact splitFrom_append (h 0)
  unfold split
  induction later generalizing first with
  | nil =>
    rw [flatMap_nil, append_nil, hflat rfl _ _ hf, splitFrom_stop hs]
    simp
  | cons p later ih =>
    obtain ⟨⟨hc, hp⟩, hl⟩ := forall_mem_cons.mp hl
    have hsep : role {} p.1.kind = .separator := by rw [hc]; rfl
    rw [flatMap_cons, append_assoc, hflat rfl _ _ hf, cons_append, cons_append,
      splitFrom_separator hsep, ih hp hl]
    simp

end Split

end StepBinding.Construct.Steps
