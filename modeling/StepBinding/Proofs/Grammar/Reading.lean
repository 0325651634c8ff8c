import StepBinding.Proofs.Construct.Filed
import StepBinding.Proofs.Grammar.Keeps
import StepBinding.Proofs.Tree.Spans

/-! Readings that end well. A reading is clean if it ends with a cursor that is not faulty; it is
calm if moreover no error was met at all. All parts of a clean reading are clean. What a clean
reading of some tokens did is told by the kinds of the tokens that it passed, by the nodes that it
made of them and by what these nodes have to do with the log. -/

namespace StepBinding.Grammar

open List Token Construct Steps StepBinding.Tree Node

variable {k : Kind} {t : Token}

/-- A kind that is told from the end mark by some function. -/
theorem ne_endMark {γ : Type} {g : Kind → γ} {x : γ} (h : g k = x) (hx : g .endMark ≠ x) :
    k ≠ .endMark :=
  fun hk => hx (hk ▸ h)

/-- A property of tokens that an end mark does not have. -/
class Inside (P : Token → Prop) : Prop where
  ne_endMark : ∀ {t}, P t → t.kind ≠ .endMark

instance : Inside Stream.Valid := ⟨fun h => h.inside⟩

instance : Inside (fun t => t.kind ≠ .endMark) := ⟨id⟩

namespace Cursor

/-- No diagnostic is an error. -/
def Silent (c : Cursor) : Prop := ∀ d ∈ c.diagnostics, d.isError = false

theorem Leads.silent {c c' : Cursor} (h : c.Leads c') (hs : c'.Silent) : c.Silent :=
  fun d hd => hs d (h.diagnostics.subset hd)

/-- The token to be read next. -/
def next (c : Cursor) : Token := c.rest.headD c.last

/-- The cursor before a token stream. -/
def start (tokens : List Token) : Cursor := { rest := tokens, last := tokens.headD default }

/-- Valid tokens and an end mark are left. -/
def Good (c : Cursor) : Prop :=
  ∃ ts stop, c.rest = ts ++ [stop] ∧ stop.kind = .endMark ∧ ∀ t ∈ ts, Stream.Valid t

/-- Tokens with the property and an end mark are left. -/
def Ends (P : Token → Prop) (c : Cursor) : Prop :=
  ∃ ts stop, c.rest = ts ++ [stop] ∧ stop.kind = .endMark ∧ ∀ t ∈ ts, P t

/-- Tokens of other kinds and an end mark are left. -/
abbrev Closed (c : Cursor) : Prop := c.Ends fun t => t.kind ≠ .endMark

section Ends

variable {P : Token → Prop} {c c' : Cursor}

theorem Ends.ne_nil (h : c.Ends P) : c.rest ≠ [] := by
  obtain ⟨ts, stop, hts, -⟩ := h
  simp [hts]

/-- What is left later ends as what is left now does. -/
theorem Ends.of_suffix {us : List Token} (h : c.Ends P) (hr : c.rest = us ++ c'.rest)
    (hne : c'.rest ≠ []) : c'.Ends P := by
  obtain ⟨ts, stop, hts, hs, hv⟩ := h
  rcases eq_nil_or_concat c'.rest with hnil | ⟨init, last, hlast⟩
  · exact absurd hnil hne
  · rw [hts, hlast, concat_eq_append, ← append_assoc] at hr
    obtain ⟨rfl, heq⟩ := append_inj' hr rfl
    cases heq
    exact ⟨init, stop, by rw [hlast, concat_eq_append], hs,
      fun t ht => hv t (mem_append_right _ ht)⟩

/-- Unless the end mark comes next, a token with the property does, and more tokens follow it. -/
theorem Ends.next_cases (h : c.Ends P) : (c.next.kind = .endMark ∧ c.rest = [c.next]) ∨
    (P c.next ∧ ∃ ts, c.rest = c.next :: ts ∧ ts ≠ []) := by
  obtain ⟨ts, stop, hts, hs, hv⟩ := h
  cases ts with
  | nil => exact .inl ⟨by simp [next, hts, hs], by simp [next, hts]⟩
  | cons t ts =>
    refine .inr ⟨?_, ts ++ [stop], by simp [next, hts], by simp⟩
    have : c.next = t := by simp [next, hts]
    exact this ▸ hv t mem_cons_self

theorem Ends.of_mem (h : c.Ends P) (ht : t ∈ c.rest) (hk : t.kind ≠ .endMark) : P t := by
  obtain ⟨ts, stop, hts, hs, hv⟩ := h
  rw [hts] at ht
  rcases mem_append.mp ht with ht | ht
  · exact hv t ht
  · cases mem_singleton.mp ht
    exact absurd hs hk

theorem Ends.of_next (h : c.Ends P) (hk : c.next.kind ≠ .endMark) : P c.next :=
  h.next_cases.elim (fun h => absurd h.1 hk) (·.1)

theorem Ends.imp {Q : Token → Prop} (h : c.Ends P) (hpq : ∀ t, P t → Q t) : c.Ends Q := by
  obtain ⟨ts, stop, hts, hs, hv⟩ := h
  exact ⟨ts, stop, hts, hs, fun t ht => hpq t (hv t ht)⟩

/-- The range from the next token to the last of some tokens that are passed. -/
theorem covers_of_next {ts : List Token} (hts : c.rest = ts ++ c'.rest) (hne : ts ≠ []) :
    (c.next.span.through (ts.getLastD c.last).span).Covers ts := by
  obtain ⟨t, us, rfl⟩ := exists_cons_of_ne_nil hne
  refine ⟨t, rfl, _, ?_, by rw [next, hts]; rfl⟩
  simp [getLastD_eq_getLast?, getLast?_cons]

theorem Good.closed (h : c.Good) : c.Closed := Ends.imp h fun _ ht => ht.inside

theorem Good.ne_nil (h : c.Good) : c.rest ≠ [] := Ends.ne_nil h

theorem Good.next_cases (h : c.Good) : (c.next.kind = .endMark ∧ c.rest = [c.next]) ∨
    (Stream.Valid c.next ∧ ∃ ts, c.rest = c.next :: ts ∧ ts ≠ []) :=
  Ends.next_cases h

theorem Good.of_suffix {us : List Token} (h : c.Good) (hr : c.rest = us ++ c'.rest)
    (hne : c'.rest ≠ []) : c'.Good :=
  Ends.of_suffix h hr hne

end Ends

end Cursor

section Clean

variable {α β σ : Type}

/-- The reading ends with a cursor that is not faulty and, if it is to be calm, without an error. -/
structure Clean (calm : Prop) (p : Parse α) (c : Cursor) (a : α) (c' : Cursor) : Prop where
  ok : p c = .ok a c'
  sound : c'.faulty = false
  silent : calm → c'.Silent

variable {calm : Prop} {p : Parse α} {f : α → Parse β} {c c' : Cursor} {a : α} {b : β}

/-- The parts of a clean reading are clean, as the second part forgets nothing of what the first
part gives it. -/
theorem Clean.bind_at (hk : ∀ {a c1}, p c = .ok a c1 → Keeps (f a))
    (h : Clean calm (p >>= f) c b c') : ∃ a c1, Clean calm p c a c1 ∧ Clean calm (f a) c1 b c' := by
  obtain ⟨a, c1, hp, hok⟩ := bind_eq_ok h.ok
  have hl : c1.Leads c' := (hk hp).of_ok hok
  refine ⟨a, c1, ⟨hp, ?_, fun hc => hl.silent (h.silent hc)⟩, ⟨hok, h.sound, h.silent⟩⟩
  cases hf : c1.faulty with
  | false => rfl
  | true => exact absurd (hl.faulty hf) (by rw [h.sound]; exact nofun)

theorem Clean.bind_of (hk : ∀ a, Keeps (f a)) (h : Clean calm (p >>= f) c b c') :
    ∃ a c1, Clean calm p c a c1 ∧ Clean calm (f a) c1 b c' :=
  h.bind_at fun {a _} _ => hk a

theorem Clean.bind [∀ a, Keeps (f a)] (h : Clean calm (p >>= f) c b c') :
    ∃ a c1, Clean calm p c a c1 ∧ Clean calm (f a) c1 b c' :=
  h.bind_of fun _ => inferInstance

theorem Clean.pure_inv {x : α} (h : Clean calm (pure x) c a c') : a = x ∧ c' = c := by
  cases h.ok
  exact ⟨rfl, rfl⟩

/-- A first part that only looks is done. -/
theorem Clean.look {x : α} (hx : p c = .ok x c) (h : Clean calm (p >>= f) c b c') :
    Clean calm (f x) c b c' := by
  refine ⟨?_, h.sound, h.silent⟩
  have hok := h.ok
  change EStateM.bind p f c = _ at hok
  rwa [EStateM.bind, hx] at hok

theorem Clean.current {f : Token → Parse β} (h : Clean calm (current >>= f) c b c') :
    Clean calm (f c.next) c b c' :=
  Clean.look (p := Grammar.current) rfl h

theorem Clean.get {f : Cursor → Parse β} (h : Clean calm (get >>= f) c b c') :
    Clean calm (f c) c b c' :=
  Clean.look (p := MonadState.get) rfl h

theorem Clean.peek {n : Nat} {f : Token → Parse β} (h : Clean calm (peek n >>= f) c b c') :
    Clean calm (f ((c.rest[n]?).getD (c.rest.getLastD c.last))) c b c' :=
  Clean.look (p := Grammar.peek n) rfl h

theorem Clean.spanFrom {start : Span} {f : Span → Parse β}
    (h : Clean calm (spanFrom start >>= f) c b c') :
    Clean calm (f (start.through c.last.span)) c b c' :=
  Clean.look (p := Grammar.spanFrom start) rfl h

/-- The result is made of what was read. -/
theorem Clean.map_inv {g : α → β} (h : Clean calm (do return g (← p)) c b c') :
    ∃ a, b = g a ∧ Clean calm p c a c' := by
  obtain ⟨a, c1, hp, h⟩ := h.bind
  obtain ⟨rfl, rfl⟩ := h.pure_inv
  exact ⟨a, rfl, hp⟩

/-- The result is made of what was read and of its range. -/
theorem Clean.span_inv {start : Span} {g : α → Span → β}
    (h : Clean calm (do let a ← p; return g a (← Grammar.spanFrom start)) c b c') :
    ∃ a, b = g a (start.through c'.last.span) ∧ Clean calm p c a c' := by
  obtain ⟨a, c1, hp, h⟩ := h.bind
  obtain ⟨rfl, rfl⟩ := h.spanFrom.pure_inv
  exact ⟨a, rfl, hp⟩

theorem Clean.isAt {k : Kind} {f : Bool → Parse β} (h : Clean calm (isAt k >>= f) c b c') :
    Clean calm (f (c.next.kind == k)) c b c' :=
  Clean.look (p := Grammar.isAt k) rfl h

theorem Clean.isAtAny {ks : List Kind} {f : Bool → Parse β}
    (h : Clean calm (isAtAny ks >>= f) c b c') : Clean calm (f (ks.contains c.next.kind)) c b c' :=
  Clean.look (p := Grammar.isAtAny ks) rfl h

theorem Clean.ite {q : Prop} [Decidable q] {p1 p2 : Parse α}
    (h : Clean calm (if q then p1 else p2) c a c') :
    (q ∧ Clean calm p1 c a c') ∨ (¬q ∧ Clean calm p2 c a c') := by
  split at h
  · exact .inl ⟨‹_›, h⟩
  · exact .inr ⟨‹_›, h⟩

/-- A branch on the kind of the next token. -/
theorem Clean.branch {p1 p2 : Parse α}
    (h : Clean calm (do if ← Grammar.isAt k then p1 else p2) c a c') :
    (c.next.kind = k ∧ Clean calm p1 c a c') ∨ (c.next.kind ≠ k ∧ Clean calm p2 c a c') := by
  have h := h.isAt.ite
  rwa [beq_iff_eq] at h

theorem Clean.not_fail {message : String} {span : Span}
    (h : Clean calm (fail message span : Parse α) c a c') : False := by
  cases h.ok

theorem Clean.expect_inv {what : String} (h : Clean calm (expect k what) c t c') :
    c.next.kind = k ∧ Clean calm advance c t c' := by
  rcases h.current.ite with ⟨hk, h⟩ | ⟨_, h⟩
  · exact ⟨hk, h⟩
  · exact h.not_fail.elim

/-- A clean reading did not go on after a misplaced token. -/
theorem Clean.tryCatch_inv {handler : Stop → Parse α} (hp : Keeps p)
    (hm : Keeps (handler .misplaced)) (ho : ∀ e ≠ .misplaced, handler e = throw e)
    (h : Clean calm (tryCatch p handler) c a c') : Clean calm p c a c' := by
  rcases tryCatch_cases ho c with ⟨c1, hr, heq⟩ | ⟨heq, -⟩
  · have hf := (hm.of_ok (heq ▸ h.ok)).faulty (hp.of_misplaced hr).2
    rw [h.sound] at hf
    cases hf
  · exact ⟨heq ▸ h.ok, h.sound, h.silent⟩

/-- A pass that goes on keeps the invariant; one that leaves has the result. -/
def Pass.Keeps (Inv : σ → Cursor → Prop) (Post : β → Cursor → Prop) (c : Cursor) : Pass σ β → Prop
  | .again s => Inv s c
  | .leave b => Post b c

/-- What each pass of a loop preserves holds at its end. -/
theorem Clean.loop_inv {body : σ → Parse (Pass σ β)} [∀ s, Keeps (body s)] {s : σ}
    (Inv : σ → Cursor → Prop) (Post : β → Cursor → Prop)
    (h : Clean calm (loop body s) c b c') (hs : Inv s c)
    (pass : ∀ {s c step c1}, Inv s c → Clean calm (body s) c step c1 → step.Keeps Inv Post c1) :
    Post b c' := by
  have hp := h.get
  generalize c.last :: c.rest = limit at hp
  clear h
  induction limit generalizing s c with
  | nil => cases hp.ok
  | cons t limit ih =>
    unfold passes at hp
    obtain ⟨step, c1, hbody, hrest⟩ := hp.bind_of fun step => by cases step <;> infer_instance
    cases step with
    | again s' => exact ih (pass hs hbody) hrest
    | leave b' =>
      obtain ⟨rfl, rfl⟩ := hrest.pure_inv
      exact pass hs hbody

end Clean

/-- The condition on a node that was read from tokens with the property `P`. -/
def Shaped (P : Token → Prop) (calm : Prop) (n : Node) : Prop :=
  ((∀ t, P t → Stream.Valid t) → n.Formed IsName) ∧ (calm → n.Tidy)

/-- The log tells the same of the nodes as they do, which were read between two of its states. All
other step bindings that were entered there are settled, and a calm reading has no others. -/
structure Enters (P : Token → Prop) (calm : Prop) (log : Log) (ns : List Node) (log' : Log) :
    Prop where
  grows : log.Extends log'
  filed : Filed log ns log'
  settled : ∀ i, log.size ≤ i → i < log'.size → i ∈ marks ns ∨ log'.Settled i
  whole : calm → marks ns = List.range' log.size (log'.size - log.size)
  shaped : ∀ n ∈ ns, Shaped P calm n

namespace Enters

variable {P : Token → Prop} {calm : Prop} {log log1 log2 : Log} {ns ms : List Node}

theorem refl (log : Log) : Enters P calm log [] log where
  grows := .refl _
  filed := .nil
  settled _ hle hlt := absurd hlt (Nat.not_lt.mpr hle)
  whole _ := by simp [marks]
  shaped := nofun

theorem trans (h : Enters P calm log ns log1) (h' : Enters P calm log1 ms log2) :
    Enters P calm log (ns ++ ms) log2 where
  grows := h.grows.trans h'.grows
  filed := h.filed.append h.grows h'.filed h'.grows
  settled i hle hlt := by
    rw [marks_append]
    by_cases hi : i < log1.size
    · exact (h.settled i hle hi).imp (mem_append_left _) h'.grows.settled
    · exact (h'.settled i (Nat.not_lt.mp hi) hlt).imp_left (mem_append_right _)
  whole hc := by
    have hs := h.grows.size
    have hs' := h'.grows.size
    have happend := List.range'_append_1 (s := log.size) (m := log1.size - log.size)
      (n := log2.size - log1.size)
    rw [marks_append, h.whole hc, h'.whole hc, show log2.size - log.size = log1.size - log.size +
      (log2.size - log1.size) by omega, ← happend, Nat.add_sub_cancel' hs]
  shaped := forall_mem_append.mpr ⟨h.shaped, h'.shaped⟩

/-- Only the nodes that stand for step bindings count for the log. -/
theorem congr (h : Enters P calm log ns log1) (he : entries ms = entries ns)
    (hs : ∀ n ∈ ms, Shaped P calm n) : Enters P calm log ms log1 := by
  have hmarks : marks ms = marks ns := by rw [← marks_entries, he, marks_entries]
  exact ⟨h.grows, h.filed.congr_left he, hmarks ▸ h.settled, hmarks ▸ h.whole, hs⟩

end Enters

/-- Tokens of the given kinds are passed, in which the given nodes lie. -/
structure Crosses (P : Token → Prop) (c : Cursor) (ks : List Kind) (ns : List Node) (c' : Cursor) :
    Prop where
  good : c'.Ends P
  tokens : ∃ ts, c.rest = ts ++ c'.rest ∧ kinds ts = ks ∧ c'.last = ts.getLastD c.last ∧ Laid ts ns

/-- A clean reading passes tokens of the given kinds, in which the given nodes lie, and enters
these in the log. -/
structure Moves (P : Token → Prop) (calm : Prop) (c : Cursor) (ks : List Kind) (ns : List Node)
    (c' : Cursor) : Prop extends Crosses P c ks ns c' where
  enters : Enters P calm c.log (walks ns) c'.log

section Moves

variable {P : Token → Prop} {calm : Prop} {c c1 c2 : Cursor} {ks ls : List Kind} {n : Node}
  {ns ms : List Node}

namespace Crosses

theorem refl (h : c.Ends P) : Crosses P c [] [] c := ⟨h, [], rfl, rfl, rfl, .nil _⟩

theorem trans (h : Crosses P c ks ns c1) (h' : Crosses P c1 ls ms c2) :
    Crosses P c (ks ++ ls) (ns ++ ms) c2 where
  good := h'.good
  tokens := by
    obtain ⟨ts, hts, rfl, hlast, hlaid⟩ := h.tokens
    obtain ⟨us, hus, rfl, hlast', hlaid'⟩ := h'.tokens
    refine ⟨ts ++ us, by rw [hts, hus, append_assoc], kinds_append ts us, ?_,
      hlaid.append hlaid'⟩
    rw [hlast', hlast]
    simp [getLastD_eq_getLast?, getLast?_append]

/-- Only the tokens that are left and the last one that was read count. -/
theorem congr_right (h : Crosses P c ks ns c1) (hr : c2.rest = c1.rest) (hl : c2.last = c1.last) :
    Crosses P c ks ns c2 := by
  obtain ⟨hg, ht⟩ := h
  unfold Cursor.Ends at hg
  rw [← hr] at hg ht
  rw [← hl] at ht
  exact ⟨hg, ht⟩

/-- The first token that is passed is the one that came next, and not the end mark. -/
theorem head_cases [Inside P] (hg : c.Ends P) (h : Crosses P c ks ns c1) :
    (ks = [] ∧ c1.next.kind = c.next.kind) ∨ ∃ ls, ks = c.next.kind :: ls ∧ c.next.kind ≠ .endMark := by
  obtain ⟨ts, hts, rfl, -⟩ := h.tokens
  obtain ⟨us, stop, hus, -⟩ := h.good
  cases ts with
  | nil =>
    refine .inl ⟨rfl, ?_⟩
    rw [nil_append] at hts
    simp [Cursor.next, hts, hus]
  | cons t ts =>
    have hnext : c.next = t := by simp [Cursor.next, hts]
    refine .inr ⟨kinds ts, by rw [hnext]; rfl, ?_⟩
    rcases hg.next_cases with ⟨-, hrest⟩ | ⟨hP, -⟩
    · rw [hts, hus] at hrest
      simp at hrest
    · exact Inside.ne_endMark hP

/-- What was passed before nests with what is passed now, if that nests at all. -/
theorem evenTo [Inside P] (hg : c.Ends P) (h : Crosses P c ls ns c1)
    (hk : EvenTo c.next.kind ks) (hl : EvenTo c1.next.kind ls) :
    EvenTo c1.next.kind (ks ++ ls) := by
  rcases h.head_cases hg with ⟨rfl, hnext⟩ | ⟨ls, rfl, hne⟩
  · rw [append_nil, hnext]
    exact hk
  · exact hk.append hne hl

/-- A node over all of the tokens that are passed, from its parts. -/
theorem node (h : Crosses P c ks n.children c1)
    (hspan : n.span = c.next.span.through c1.last.span) (hks : ks ≠ []) :
    Crosses P c ks [n] c1 := by
  obtain ⟨ts, hts, hk, hlast, hlaid⟩ := h.tokens
  refine ⟨h.good, ts, hts, hk, hlast, .node ?_ hlaid⟩
  rw [hspan, hlast]
  exact Cursor.covers_of_next hts (fun hnil => hks (by rw [← hk, hnil]; rfl))

/-- The token read last is the one that was passed. -/
theorem last (h : Crosses P c [k] ns c1) : c1.last = c.next := by
  obtain ⟨ts, hts, hk, hlast, -⟩ := h.tokens
  obtain ⟨t, rfl, -⟩ := map_eq_singleton_iff.mp hk
  simp [hlast, Cursor.next, hts]

end Crosses

namespace Moves

theorem refl (h : c.Ends P) : Moves P calm c [] [] c := ⟨.refl h, .refl _⟩

theorem trans (h : Moves P calm c ks ns c1) (h' : Moves P calm c1 ls ms c2) :
    Moves P calm c (ks ++ ls) (ns ++ ms) c2 :=
  ⟨h.toCrosses.trans h'.toCrosses, walks_append ns ms ▸ h.enters.trans h'.enters⟩

/-- Nodes may be regrouped that stand for no step binding. -/
theorem regroup (h : Moves P calm c ks ns c1) (hl : ∀ {ts}, Laid ts ns → Laid ts ms)
    (he : entries (walks ms) = entries (walks ns)) (hs : ∀ n ∈ walks ms, Shaped P calm n) :
    Moves P calm c ks ms c1 := by
  obtain ⟨ts, hts, hk, hlast, hlaid⟩ := h.tokens
  exact ⟨⟨h.good, ts, hts, hk, hlast, hl hlaid⟩, h.enters.congr he hs⟩

/-- One token of a kind that is not that of the end mark. -/
theorem advance {k : Kind} {t : Token} (hg : c.Ends P) (hk : c.next.kind = k) (hne : k ≠ .endMark)
    (h : Clean calm advance c t c1) : t = c.next ∧ Moves P calm c [k] [] c1 ∧ c1.log = c.log := by
  have hgood := hg
  rcases hg.next_cases with ⟨he, -⟩ | ⟨-, ts, hts, hts'⟩
  · exact absurd (hk.symm.trans he) hne
  · obtain ⟨u, us, rfl⟩ := exists_cons_of_ne_nil hts'
    have hok := h.ok
    unfold Grammar.advance at hok
    rw [hts] at hok
    cases hok
    exact ⟨rfl, ⟨⟨hgood.of_suffix (show _ = [c.next] ++ _ from hts) nofun,
      [c.next], hts, by simp [hk], rfl, .nil _⟩, .refl _⟩, rfl⟩

theorem expect {k : Kind} {what : String} {t : Token} (hg : c.Ends P) (hne : k ≠ .endMark)
    (h : Clean calm (expect k what) c t c1) :
    t = c.next ∧ c.next.kind = k ∧ Moves P calm c [k] [] c1 := by
  obtain ⟨hk, hadv⟩ := h.expect_inv
  obtain ⟨ht, hm, -⟩ := Moves.advance hg hk hne hadv
  exact ⟨ht, hk, hm⟩

end Moves

end Moves

section Tokens

variable {P : Token → Prop} {β : Type} {calm : Prop} {c c' : Cursor} {b : β} {f : Token → Parse β}
  [∀ t, Keeps (f t)]

/-- A token of a kind that is known is read. -/
theorem Clean.read (hg : c.Ends P) (hk : c.next.kind = k) (h : Clean calm (advance >>= f) c b c')
    (hne : k ≠ .endMark) : ∃ c1, Moves P calm c [k] [] c1 ∧ Clean calm (f c.next) c1 b c' := by
  obtain ⟨t, c1, hadv, h⟩ := h.bind
  obtain ⟨rfl, hm, -⟩ := Moves.advance hg hk hne hadv
  exact ⟨c1, hm, h⟩

/-- A token of a given kind is read. -/
theorem Clean.expect {what : String} (hg : c.Ends P)
    (h : Clean calm (Grammar.expect k what >>= f) c b c') (hne : k ≠ .endMark) :
    ∃ c1, c.next.kind = k ∧ Moves P calm c [k] [] c1 ∧ Clean calm (f c.next) c1 b c' := by
  obtain ⟨t, c1, hexpect, h⟩ := h.bind
  obtain ⟨rfl, hk, hm⟩ := Moves.expect hg hne hexpect
  exact ⟨c1, hk, hm, h⟩

end Tokens

end StepBinding.Grammar
